import Mathlib.Data.List.Basic

namespace OpenAsip
set_option autoImplicit true

namespace Scheduler

/-- The brokers in the order in which `SimpleResourceManager::buildResourceModel` adds them to the
plan. -/
inductive Broker where
  | inputFU
  | outputFU
  | executionPipeline
  | inputPSocket
  | iu
  | outputPSocket
  | bus
  | iTemplate
deriving DecidableEq

def brokers : List Broker :=
  [.inputFU, .outputFU, .executionPipeline, .inputPSocket, .iu, .outputPSocket, .bus, .iTemplate]

inductive SourceKind where
  | fuPort
  | gpr
  | immediateRegister
  | constant
deriving DecidableEq

/-- What the brokers ask of a move when they say whether they apply to it. -/
structure MoveTerminals where
  source : SourceKind
  requiresLimm : Bool
  destinationIsFUPort : Bool
  hasPortGuard : Bool

/-- What the caller may force. -/
structure Request (β φ υ : Type) where
  bus : Option β
  srcFU : Option φ
  dstFU : Option φ
  immWriteCycle : Int
  immu : Option υ
  immRegIndex : Int
deriving DecidableEq

/-- The brokers over a state of their resources and of the moves that they change. `isMove` tells a
move from a long immediate. A list of resources is sorted as `SchedulingResourceSet` sorts it. -/
structure ResourceBrokers (σ ν ρ β φ υ : Type) where
  isMove : ν → Bool
  move : σ → ν → MoveTerminals
  canTransportImmediate : σ → ν → Option β → Bool
  allAvailableResources : Broker → σ → Int → ν → Request β φ υ → List ρ
  busIsAvailable : σ → ρ → Int → ν → Request β φ υ → Bool
  isAlreadyAssigned : Broker → σ → Int → ν → Option β → Bool
  assign : Broker → σ → Int → ν → ρ → Request β φ υ → σ
  unassign : Broker → σ → Int → ν → σ

namespace ResourceBrokers
variable (R : ResourceBrokers σ ν ρ β φ υ)

/-- The constant of the move has to be written to an immediate register first. -/
def needsLongImmediate (s : σ) (node : ν) (bus : Option β) : Bool :=
  (R.move s node).source = .constant ∧
    ((R.move s node).requiresLimm ∨ ¬ R.canTransportImmediate s node bus)

def isApplicable (broker : Broker) (s : σ) (node : ν) (bus : Option β) : Bool :=
  match broker with
  | .inputFU => R.isMove node && (R.move s node).destinationIsFUPort
  | .outputFU => R.isMove node && ((R.move s node).source = .fuPort || (R.move s node).hasPortGuard)
  | .executionPipeline => false
  | .inputPSocket => R.isMove node
  | .iu => R.isMove node &&
      ((R.move s node).source = .immediateRegister || R.needsLongImmediate s node bus)
  | .outputPSocket => R.isMove node &&
      (R.needsLongImmediate s node bus || (R.move s node).source ≠ .constant)
  | .bus => R.isMove node
  | .iTemplate => true

def applicableBrokers (s : σ) (node : ν) (bus : Option β) : List Broker :=
  brokers.filter fun broker => R.isApplicable broker s node bus

theorem applicableBrokers_of_not_isMove {s : σ} {node : ν} (h : R.isMove node = false)
    (bus : Option β) : R.applicableBrokers s node bus = [.iTemplate] := by
  simp [applicableBrokers, brokers, isApplicable, h]

theorem applicableBrokers_ne_nil (s : σ) (node : ν) (bus : Option β) :
    R.applicableBrokers s node bus ≠ [] := by
  intro h
  have hmem : Broker.iTemplate ∈ R.applicableBrokers s node bus := by
    simp [applicableBrokers, brokers, isApplicable]
  simp [h] at hmem

/-- The broker of the buses is applicable to moves, and so is one before it. -/
theorem head_applicableBrokers_ne_bus (s : σ) (node : ν) (bus : Option β) :
    (R.applicableBrokers s node bus).head? ≠ some .bus := by
  cases h : R.isMove node with
  | false => simp [R.applicableBrokers_of_not_isMove h]
  | true =>
    have hpipeline : R.isApplicable .executionPipeline s node bus = false := rfl
    have hsocket : R.isApplicable .inputPSocket s node bus = true := h
    rw [applicableBrokers, List.head?_filter, brokers]
    cases hinput : R.isApplicable .inputFU s node bus with
    | true => simp [hinput]
    | false =>
      cases houtput : R.isApplicable .outputFU s node bus with
      | true => simp [hinput, houtput]
      | false => simp [hinput, houtput, hpipeline, hsocket]

theorem applicableBrokers_sublist (s : σ) (node : ν) (bus : Option β) :
    (R.applicableBrokers s node bus).Sublist brokers := List.filter_sublist

variable [DecidableEq ρ]

/-- `ResourceBroker::isAvailable`, which only the bus broker has as its own. -/
def isAvailable (broker : Broker) (s : σ) (resource : ρ) (cycle : Int) (node : ν)
    (request : Request β φ υ) : Bool :=
  match broker with
  | .bus => R.busIsAvailable s resource cycle node request
  | broker => resource ∈ R.allAvailableResources broker s cycle node request

/-- Whether the first of the brokers that apply to the node has a resource for it. -/
def offersResource (s : σ) (cycle : Int) (node : ν) (request : Request β φ υ) : Bool :=
  match R.applicableBrokers s node request.bus with
  | [] => false
  | broker :: _ => R.allAvailableResources broker s cycle node request ≠ []

theorem offersResource_of_isAvailable {R : ResourceBrokers σ ν ρ β φ υ} {s : σ} {resource : ρ}
    {cycle : Int} {node : ν} {request : Request β φ υ} {broker : Broker}
    (h : (R.applicableBrokers s node request.bus).head? = some broker)
    (havailable : R.isAvailable broker s resource cycle node request = true) :
    R.offersResource s cycle node request = true := by
  have hbus : broker ≠ .bus := fun heq =>
    R.head_applicableBrokers_ne_bus s node request.bus (h.trans (by rw [heq]))
  have hmem : resource ∈ R.allAvailableResources broker s cycle node request := by
    cases broker with
    | bus => exact absurd rfl hbus
    | _ => simpa [isAvailable] using havailable
  cases hl : R.applicableBrokers s node request.bus with
  | nil => simp [hl] at h
  | cons first rest =>
    simp only [hl, List.head?_cons, Option.some.injEq] at h
    subst h
    simpa [offersResource, hl] using List.ne_nil_of_mem hmem

end ResourceBrokers

/-- `tried` is one more than `lastTriedAssignment_`. -/
structure PendingAssignment (ρ : Type) where
  broker : Broker
  availableResources : List ρ
  tried : Nat

/-- The plan with the broker it is at, the applicable ones before it (the nearest first) and those
after it. -/
structure AssignmentPlan (σ ρ : Type) where
  resources : σ
  earlier : List (PendingAssignment ρ)
  current : PendingAssignment ρ
  later : List (PendingAssignment ρ)
  ordered : ((earlier.reverse ++ current :: later).map PendingAssignment.broker).Sublist brokers

namespace AssignmentPlan
variable (R : ResourceBrokers σ ν ρ β φ υ) (cycle : Int) (node : ν) (request : Request β φ υ)

/-- The plan before its first broker has been asked. -/
def start (s : σ) (broker : Broker) (rest : List Broker) (h : (broker :: rest).Sublist brokers) :
    AssignmentPlan σ ρ :=
  ⟨s, [], ⟨broker, [], 0⟩, rest.map fun broker => ⟨broker, [], 0⟩, by
    simpa [Function.comp_def] using h⟩

/-- The cycle of the node is left to the director. -/
def setRequest (s : σ) : Option (AssignmentPlan σ ρ) :=
  match h : R.applicableBrokers s node request.bus with
  | [] => none
  | broker :: rest =>
    some (start s broker rest (h ▸ R.applicableBrokers_sublist s node request.bus))

/-- The resource that the current broker tries next, if it has one left. -/
def isTestedAssignmentPossible (p : AssignmentPlan σ ρ) : Option ρ × AssignmentPlan σ ρ :=
  let available :=
    if p.current.tried = 0 then
      R.allAvailableResources p.current.broker p.resources cycle node request
    else p.current.availableResources
  (available[p.current.tried]?,
    { p with
      current := { p.current with availableResources := available }
      ordered := by simpa using p.ordered })

def undoAssignment (broker : Broker) (s : σ) : σ :=
  if R.isAlreadyAssigned broker s cycle node request.bus then R.unassign broker s cycle node else s

def tryNextAssignment (resource : ρ) (p : AssignmentPlan σ ρ) : AssignmentPlan σ ρ :=
  let s := undoAssignment R cycle node request p.current.broker p.resources
  { p with
    resources := R.assign p.current.broker s cycle node resource request
    current := { p.current with tried := p.current.tried + 1 }
    ordered := by simpa using p.ordered }

def advance (p : AssignmentPlan σ ρ) (next : PendingAssignment ρ)
    (rest : List (PendingAssignment ρ)) (h : p.later = next :: rest) : AssignmentPlan σ ρ :=
  ⟨p.resources, p.current :: p.earlier, next, rest, by simpa [h] using p.ordered⟩

/-- What is still assigned by the current broker goes when it forgets, and once more before the
plan goes back. -/
def backtrack (p : AssignmentPlan σ ρ) (previous : PendingAssignment ρ)
    (rest : List (PendingAssignment ρ)) (h : p.earlier = previous :: rest) : AssignmentPlan σ ρ :=
  let undo := undoAssignment R cycle node request
  ⟨undo previous.broker (undo p.current.broker (undo p.current.broker p.resources)), rest, previous,
    { p.current with tried := 0 } :: p.later, by simpa [h] using p.ordered⟩

/-- What each broker has tried last. -/
def workingAssignment (p : AssignmentPlan σ ρ) : List (Broker × ρ) :=
  (p.earlier.reverse ++ [p.current]).filterMap fun a =>
    a.availableResources[a.tried - 1]?.map fun resource => (a.broker, resource)

theorem workingAssignment_ordered (p : AssignmentPlan σ ρ) :
    (p.workingAssignment.map Prod.fst).Sublist brokers := by
  have hsub : ∀ l : List (PendingAssignment ρ),
      ((l.filterMap fun a => a.availableResources[a.tried - 1]?.map
        fun resource => (a.broker, resource)).map Prod.fst).Sublist
          (l.map PendingAssignment.broker) := by
    intro l
    induction l with
    | nil => exact .slnil
    | cons a rest ih =>
      cases ha : a.availableResources[a.tried - 1]? with
      | none => simpa [List.filterMap_cons, ha] using ih.cons a.broker
      | some resource => simpa [List.filterMap_cons, ha] using ih.cons_cons a.broker
  have hcut : ((p.earlier.reverse ++ [p.current]).map PendingAssignment.broker).Sublist
      ((p.earlier.reverse ++ p.current :: p.later).map PendingAssignment.broker) := by
    simp
  exact (hsub _).trans (hcut.trans p.ordered)

/-- The plan with which the loop of `SimpleBrokerDirector::assign` ends, and whether it has found an
assignment for every broker. -/
def search : Nat → AssignmentPlan σ ρ → Option (AssignmentPlan σ ρ × Bool)
  | 0, _ => none
  | fuel + 1, p =>
    let (next, p) := p.isTestedAssignmentPossible R cycle node request
    match next with
    | none =>
      match h : p.earlier with
      | [] => some (p, false)
      | previous :: rest => search fuel (p.backtrack R cycle node request previous rest h)
    | some resource =>
      let p := p.tryNextAssignment R cycle node request resource
      match h : p.later with
      | [] => some (p, true)
      | next :: rest => search fuel (p.advance next rest h)

section
variable {R cycle node request} {s : σ}

theorem setRequest_eq (R : ResourceBrokers σ ν ρ β φ υ) (node : ν) (request : Request β φ υ)
    (s : σ) :
    ∃ broker rest hsub, R.applicableBrokers s node request.bus = broker :: rest ∧
      setRequest R node request s = some (start s broker rest hsub) := by
  unfold setRequest
  split
  · next h => exact absurd h (R.applicableBrokers_ne_nil s node request.bus)
  · next broker rest h =>
    exact ⟨broker, rest, h ▸ R.applicableBrokers_sublist s node request.bus, h, rfl⟩

/-- The search is over at once if the first broker has nothing for the node. -/
theorem search_notFound {p q : AssignmentPlan σ ρ} {success : Bool} {fuel : Nat}
    (hp : setRequest R node request s = some p)
    (h : p.search R cycle node request fuel = some (q, success))
    (hoffers : R.offersResource s cycle node request = false) :
    success = false ∧ q.resources = s := by
  obtain ⟨broker, rest, _, happ, hp'⟩ := setRequest_eq R node request s
  obtain rfl := Option.some.inj (hp'.symm.trans hp)
  have hnone : R.allAvailableResources broker s cycle node request = [] := by
    simpa [ResourceBrokers.offersResource, happ] using hoffers
  cases fuel with
  | zero => cases h
  | succ fuel =>
    simp only [search, start, isTestedAssignmentPossible, if_true, hnone, List.getElem?_nil] at h
    cases h
    exact ⟨rfl, rfl⟩

/-- A search with a single broker is over at once as well. -/
theorem search_found {p q : AssignmentPlan σ ρ} {success : Bool} {fuel : Nat} {broker : Broker}
    (hp : setRequest R node request s = some p)
    (h : p.search R cycle node request fuel = some (q, success))
    (happ : R.applicableBrokers s node request.bus = [broker])
    (hoffers : R.offersResource s cycle node request = true) : success = true := by
  obtain ⟨first, rest, _, happ', hp'⟩ := setRequest_eq R node request s
  obtain rfl := Option.some.inj (hp'.symm.trans hp)
  obtain ⟨rfl, rfl⟩ := List.cons.inj (happ'.symm.trans happ)
  have hsome : R.allAvailableResources first s cycle node request ≠ [] := by
    simpa [ResourceBrokers.offersResource, happ] using hoffers
  obtain ⟨resource, resources, hresources⟩ := List.exists_cons_of_ne_nil hsome
  cases fuel with
  | zero => cases h
  | succ fuel =>
    simp only [search, start, isTestedAssignmentPossible, if_true, hresources,
      List.getElem?_cons_zero] at h
    cases h
    rfl

end

end AssignmentPlan

/-- The assignment that the last successful test went through. -/
structure TestedAssignment (ν ρ : Type) where
  node : ν
  cycle : Int
  assignments : List (Broker × ρ)
  ordered : (assignments.map Prod.fst).Sublist brokers

namespace TestedAssignment
variable {σ ν ρ β φ υ : Type}

/-- `last` is the last request of the plan. The bus is not among what is compared. -/
def isFor [DecidableEq ν] [DecidableEq φ] [DecidableEq υ] (cached : TestedAssignment ν ρ)
    (cycle : Int) (node : ν) (last request : Request β φ υ) : Bool :=
  cached.node = node ∧ cached.cycle = cycle ∧ last.immRegIndex = request.immRegIndex ∧
    request.immu = last.immu ∧ last.immWriteCycle = request.immWriteCycle ∧
    last.srcFU = request.srcFU ∧ last.dstFU = request.dstFU ∧ cached.assignments ≠ []

/-- The loop that asks whether the same brokers are applicable now. -/
def sameBrokers (isApplicable : Broker → Bool) : List Broker → List (Broker × ρ) → Bool
  | [], _ => true
  | broker :: rest, [] => !isApplicable broker && sameBrokers isApplicable rest []
  | broker :: rest, (first, resource) :: others =>
    if isApplicable broker then first = broker && sameBrokers isApplicable rest others
    else first ≠ broker && sameBrokers isApplicable rest ((first, resource) :: others)

theorem sameBrokers_map_fst {isApplicable : Broker → Bool} {l : List Broker}
    {cached : List (Broker × ρ)} (hl : (cached.map Prod.fst).Sublist l)
    (h : sameBrokers isApplicable l cached = true) :
    cached.map Prod.fst = l.filter isApplicable := by
  induction l generalizing cached with
  | nil => simpa using hl
  | cons broker rest ih =>
    cases cached with
    | nil =>
      simp only [sameBrokers, Bool.and_eq_true, Bool.not_eq_true'] at h
      rw [List.filter_cons_of_neg (by simp [h.1])]
      exact ih (List.nil_sublist rest) h.2
    | cons a others =>
      by_cases happ : isApplicable broker = true
      · simp only [sameBrokers, happ, if_true, Bool.and_eq_true, decide_eq_true_eq] at h
        rw [List.map_cons, h.1, List.cons_sublist_cons] at hl
        rw [List.filter_cons_of_pos happ, List.map_cons, h.1, ih hl h.2]
      · simp only [sameBrokers, happ, Bool.false_eq_true, if_false, Bool.and_eq_true,
          decide_eq_true_eq] at h
        rw [List.filter_cons_of_neg happ]
        refine ih ?_ h.2
        cases hl with
        | cons _ hrest => exact hrest
        | cons_cons _ _ => exact absurd rfl h.1

variable (R : ResourceBrokers σ ν ρ β φ υ) [DecidableEq ρ]

/-- The brokers in `assigned`, the last one first, are undone if the next one cannot follow. -/
def tryAssignments (cycle : Int) (node : ν) (request : Request β φ υ) :
    List (Broker × ρ) → List Broker → σ → σ × Bool
  | [], _, s => (s, true)
  | (broker, resource) :: rest, assigned, s =>
    if R.isAvailable broker s resource cycle node request then
      tryAssignments cycle node request rest (broker :: assigned)
        (R.assign broker s cycle node resource request)
    else (assigned.foldl (fun s broker => R.unassign broker s cycle node) s, false)

/-- The resources after the attempt, and whether it succeeded. -/
def tryCachedAssignment [DecidableEq ν] [DecidableEq φ] [DecidableEq υ]
    (cached : Option (TestedAssignment ν ρ)) (last : Request β φ υ) (s : σ) (cycle : Int)
    (node : ν) (request : Request β φ υ) : σ × Bool :=
  match cached with
  | none => (s, false)
  | some cached =>
    if cached.isFor cycle node last request ∧
        sameBrokers (fun broker => R.isApplicable broker s node request.bus) brokers
          cached.assignments then
      tryAssignments R cycle node request cached.assignments [] s
    else (s, false)

/-- Nothing is done before the first of the applicable brokers has been asked. -/
theorem tryCachedAssignment_cases [DecidableEq ν] [DecidableEq φ] [DecidableEq υ]
    (cached : Option (TestedAssignment ν ρ)) (last : Request β φ υ) (s : σ) (cycle : Int)
    (node : ν) (request : Request β φ υ) :
    tryCachedAssignment R cached last s cycle node request = (s, false) ∨
      ∃ broker resource others,
        (R.applicableBrokers s node request.bus).head? = some broker ∧
        R.isAvailable broker s resource cycle node request = true ∧
        others.map Prod.fst = (R.applicableBrokers s node request.bus).tail ∧
        tryCachedAssignment R cached last s cycle node request =
          tryAssignments R cycle node request others [broker]
            (R.assign broker s cycle node resource request) := by
  cases cached with
  | none => exact .inl rfl
  | some cached =>
    by_cases h : cached.isFor cycle node last request ∧
        sameBrokers (fun broker => R.isApplicable broker s node request.bus) brokers
          cached.assignments
    · have heq := sameBrokers_map_fst cached.ordered h.2
      simp only [tryCachedAssignment, h, and_self, if_true]
      cases hcached : cached.assignments with
      | nil => simp [isFor, hcached] at h
      | cons a others =>
        obtain ⟨broker, resource⟩ := a
        rw [hcached, List.map_cons] at heq
        by_cases havailable : R.isAvailable broker s resource cycle node request = true
        · refine .inr ⟨broker, resource, others, ?_, havailable, ?_, ?_⟩
          · rw [ResourceBrokers.applicableBrokers, ← heq, List.head?_cons]
          · rw [ResourceBrokers.applicableBrokers, ← heq, List.tail_cons]
          · simp [tryAssignments, havailable]
        · simp [tryAssignments, havailable]
    · simp [tryCachedAssignment, h]

end TestedAssignment
end Scheduler

end OpenAsip
