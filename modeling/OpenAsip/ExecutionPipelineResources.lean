import Mathlib.Data.Finset.Empty
import OpenAsip.PSocketResources

namespace OpenAsip
set_option autoImplicit true

namespace Scheduler

/-- For each operation of a unit, whether it uses a resource in a cycle after its trigger. The
constructor adds an operation when it finds a resource that the operation uses in one of its
cycles, or a port that it reads or writes in one. -/
structure ExecutionPipelineResourceTable where
  maximalLatency : Nat
  numberOfResources : Nat
  operationPipelines : String → Option (Nat → Nat → Bool)
  nonempty : ∀ operation, (operationPipelines operation).isSome →
    0 < maximalLatency ∧ 0 < numberOfResources

/-- What is read of the nodes that write operands. A triggering move that does not set the opcode
has the operation as a hint. -/
structure OperandMoves (ν : Type) where
  isMove : ν → Bool
  guard : ν → Option Guard
  isDestinationOperation : ν → Bool
  isTriggering : ν → Bool
  operation : ν → Option String
  hintOperation : ν → String
  /-- The nodes that write the guard of a node, if there is a dependence graph. -/
  guardRawPredecessors : Option (ν → Finset ν)

namespace OperandMoves
variable {ν : Type} [DecidableEq ν]

/-- What is tested of the moves alone. -/
def exclusive (moves : OperandMoves ν) (mn1 mn2 : ν) : Bool :=
  moves.isMove mn1 && moves.isMove mn2 &&
    match moves.guard mn1, moves.guard mn2 with
    | some guard1, some guard2 =>
      match moves.guardRawPredecessors with
      | some predecessors => guard1.isInverted ≠ guard2.isInverted &&
          (predecessors mn1 ≠ ∅ && predecessors mn1 = predecessors mn2)
      | none => guard1.isOpposite guard2
    | _, _ => false

/-- Without a dependence graph the moves have to be in the same cycle too. -/
def exclusiveMoves (moves : OperandMoves ν) (placed : ν → Option Nat) (mn1 mn2 : ν) (cycle : Nat) :
    Bool :=
  moves.exclusive mn1 mn2 &&
    (moves.guardRawPredecessors.isSome ||
      match placed mn1, placed mn2 with
      | none, _ => false
      | some cycle1, some cycle2 => cycle1 = cycle2
      | some cycle1, none => cycle1 = cycle || cycle = 2147483647)

def opName (moves : OperandMoves ν) (node : ν) : String :=
  (moves.operation node).getD (moves.hintOperation node)

end OperandMoves

/-- The nodes that use a resource in a cycle. -/
abbrev ResourceReservation (ν : Type) := Option ν × Option ν

/-- The vectors of a `SparseVector`, of which all but finitely many are empty, and one more than its
last key. -/
structure ResourceReservationTable (ν : Type) where
  size : Nat
  row : Nat → List (ResourceReservation ν)

namespace ResourceReservationTable
variable {ν : Type}

def slot (t : ResourceReservationTable ν) (cycle resource : Nat) : ResourceReservation ν :=
  (t.row cycle)[resource]?.getD (none, none)

/-- `operator[]` puts an element for a key that is not there. -/
def setRow (t : ResourceReservationTable ν) (cycle : Nat) (row : List (ResourceReservation ν)) :
    ResourceReservationTable ν :=
  ⟨max t.size (cycle + 1), Function.update t.row cycle row⟩

def setSlot (t : ResourceReservationTable ν) (cycle resource : Nat) (rr : ResourceReservation ν) :
    ResourceReservationTable ν :=
  t.setRow cycle ((t.row cycle).set resource rr)

end ResourceReservationTable

structure ExecutionPipelineResource (ν : Type) where
  resources : ExecutionPipelineResourceTable
  initiationInterval : Nat
  maxCycle : Nat
  fuExecutionPipeline : ResourceReservationTable ν
  assignedSourceNodes : List (Nat × ν)
  assignedDestinationNodes : List (Nat × ν)

namespace ExecutionPipelineResource
variable {ν : Type} [DecidableEq ν]

def create (resources : ExecutionPipelineResourceTable) (initiationInterval : Nat) :
    ExecutionPipelineResource ν :=
  ⟨resources, initiationInterval, 2147483647, ⟨0, fun _ => []⟩, [], []⟩

def instructionIndex (r : ExecutionPipelineResource ν) (cycle : Nat) : Nat :=
  Scheduler.instructionIndex r.initiationInterval cycle

/-- Whether the pipeline is that of a schedule without an initiation interval. -/
def plain (r : ExecutionPipelineResource ν) : Bool :=
  r.initiationInterval = 0 ∨ r.initiationInterval = 2147483647

/-- The loop of `size` down from a cycle. -/
def lastUsed (used : Nat → Bool) : Nat → Nat
  | 0 => 0
  | cycle + 1 => if used cycle then cycle + 1 else lastUsed used cycle

/-- One more than the last cycle in which a resource is used. No cycle before the first one that
is assigned is looked at. -/
def size (r : ExecutionPipelineResource ν) : Nat :=
  let t := r.fuExecutionPipeline
  if t.size = 0 ∨ r.assignedDestinationNodes = [] ∧ r.assignedSourceNodes = [] then 0
  else
    let stoppingCycle := (r.assignedDestinationNodes ++ r.assignedSourceNodes).foldl
      (fun cycle a => min cycle a.1) (t.size - 1)
    lastUsed (fun cycle => stoppingCycle ≤ cycle && t.row cycle ≠ [] &&
      (List.range r.resources.numberOfResources).any fun j => (t.slot cycle j).1.isSome) t.size

/-- The cycles after the trigger and the resources, in the order of the loops over them. -/
def places (resources : ExecutionPipelineResourceTable) : List (Nat × Nat) :=
  (List.range resources.maximalLatency).flatMap fun i =>
    (List.range resources.numberOfResources).map fun j => (i, j)

/-- A resource that is free, or that one node uses which excludes the new one, is used for the new
node. -/
def reserve (exclusive : ν → Bool) (node : ν) (rr : ResourceReservation ν) :
    Option (ResourceReservation ν) :=
  match rr.1 with
  | none => some (some node, rr.2)
  | some other => if rr.2 = none ∧ exclusive other then some (some other, some node) else none

/-- The loop over the resources in a cycle, with the places that it has used. -/
def reserveRow (exclusive : ν → Bool) (node : ν) (uses : Nat → Bool) (i cycle : Nat) :
    List Nat → ResourceReservationTable ν → List (Nat × Nat) →
      Bool × ResourceReservationTable ν × List (Nat × Nat)
  | [], t, assigned => (true, t, assigned)
  | j :: rest, t, assigned =>
    if uses j then
      match reserve exclusive node (t.slot cycle j) with
      | some rr => reserveRow exclusive node uses i cycle rest (t.setSlot cycle j rr)
          (assigned ++ [(i, j)])
      | none => (false, t, assigned)
    else reserveRow exclusive node uses i cycle rest t assigned

/-- The loop over the cycles. `curSize` is what `size` was before it, and `fupSize` the size of the
vector. -/
def reserveRows (r : ExecutionPipelineResource ν) (exclusive : ν → Bool) (node : ν) (cycle : Nat)
    (uses : Nat → Nat → Bool) (curSize fupSize : Nat) :
    List Nat → ResourceReservationTable ν → List (Nat × Nat) →
      Bool × ResourceReservationTable ν × List (Nat × Nat)
  | [], t, assigned => (true, t, assigned)
  | i :: rest, t, assigned =>
    let modci := r.instructionIndex (cycle + i)
    if r.plain ∧ curSize ≤ modci then (true, t, assigned)
    else if ¬r.plain ∧ fupSize ≤ modci ∨ t.row modci = [] then
      reserveRows r exclusive node cycle uses curSize fupSize rest t assigned
    else
      match reserveRow exclusive node (uses i) i modci
        (List.range r.resources.numberOfResources) t assigned with
      | (true, t, assigned) =>
        reserveRows r exclusive node cycle uses curSize fupSize rest t assigned
      | (false, t, assigned) => (false, t, assigned)

def undoReserve (node : ν) (rr : ResourceReservation ν) : Outcome (ResourceReservation ν) :=
  if rr.1 = some node then
    if rr.2 = none then .ok (rr.2, none) else .error .assertion
  else if rr.2 = some node then .ok (rr.1, none) else .error .assertion

def undoReserves (r : ExecutionPipelineResource ν) (node : ν) (cycle : Nat)
    (assigned : List (Nat × Nat)) (t : ResourceReservationTable ν) :
    Outcome (ResourceReservationTable ν) :=
  (places r.resources).foldlM (fun t place =>
    if place ∈ assigned then
      (undoReserve node (t.slot (r.instructionIndex (cycle + place.1)) place.2)).map
        (t.setSlot (r.instructionIndex (cycle + place.1)) place.2)
    else .ok t) t

/-- The answer and the table, which is changed and changed back. -/
def resourcesAllowTrigger (moves : OperandMoves ν) (placed : ν → Option Nat)
    (r : ExecutionPipelineResource ν) (cycle : Nat) (node : ν) :
    Outcome (Bool × ResourceReservationTable ν) :=
  match r.resources.operationPipelines (moves.opName node) with
  | none => .ok (false, r.fuExecutionPipeline)
  | some uses =>
    if r.maxCycle ≠ 2147483647 ∧ (places r.resources).any fun place =>
        uses place.1 place.2 && r.maxCycle < cycle + place.1 then
      .ok (false, r.fuExecutionPipeline)
    else
      let exclusive := fun other =>
        moves.exclusiveMoves placed other node (r.instructionIndex cycle)
      let reserved := r.reserveRows exclusive node cycle uses r.size r.fuExecutionPipeline.size
        (List.range r.resources.maximalLatency) r.fuExecutionPipeline []
      (r.undoReserves node cycle reserved.2.2 reserved.2.1).map fun t => (reserved.1, t)

/-- What `assignDestination` does for a place. -/
def assignPlace (r : ExecutionPipelineResource ν) (node : ν) (cycle : Nat)
    (uses : Nat → Nat → Bool) (t : ResourceReservationTable ν) (place : Nat × Nat) :
    Outcome (ResourceReservationTable ν) :=
  let modic := r.instructionIndex (cycle + place.1)
  let t := if t.row modic = [] then
    t.setRow modic (List.replicate r.resources.numberOfResources (none, none)) else t
  if uses place.1 place.2 then
    match t.slot modic place.2 with
    | (none, second) => .ok (t.setSlot modic place.2 (some node, second))
    | (some first, none) => .ok (t.setSlot modic place.2 (some first, some node))
    | (some _, some _) => .error .assertion
  else .ok t

/-- What `assignDestination` does with the pipeline. It records operands and results as well. -/
def assignDestination (moves : OperandMoves ν) (r : ExecutionPipelineResource ν) (cycle : Nat)
    (node : ν) : Outcome (ExecutionPipelineResource ν) :=
  if !moves.isDestinationOperation node then .ok r
  else
    let r := { r with assignedDestinationNodes := (cycle, node) :: r.assignedDestinationNodes }
    if !moves.isTriggering node then .ok r
    else
      match moves.operation node with
      | none => .error (.exception .general)
      | some operation =>
        match r.resources.operationPipelines operation with
        | none => .error (.exception .general)
        | some uses =>
          ((places r.resources).foldlM (r.assignPlace node cycle uses) r.fuExecutionPipeline).map
            fun t => { r with fuExecutionPipeline := t }

/-- What `unassignDestination` does for a place. -/
def unassignPlace (r : ExecutionPipelineResource ν) (node : ν) (cycle : Nat)
    (uses : Nat → Nat → Bool) (t : ResourceReservationTable ν) (place : Nat × Nat) :
    Outcome (ResourceReservationTable ν) :=
  let modic := r.instructionIndex (cycle + place.1)
  if t.row modic = [] then .error .assertion
  else
    let rr := t.slot modic place.2
    if rr.1 = some node then
      if uses place.1 place.2 then .ok (t.setSlot modic place.2 (rr.2, none))
      else .error .assertion
    else if rr.2 = some node then
      if uses place.1 place.2 then .ok (t.setSlot modic place.2 (rr.1, none))
      else .error .assertion
    else .ok t

/-- What `unassignDestination` does with the pipeline. -/
def unassignDestination (moves : OperandMoves ν) (r : ExecutionPipelineResource ν) (cycle : Nat)
    (node : ν) : Outcome (ExecutionPipelineResource ν) :=
  if !moves.isDestinationOperation node then .ok r
  else if node ∉ r.assignedDestinationNodes.map Prod.snd then .ok r
  else
    let r := { r with
      assignedDestinationNodes := r.assignedDestinationNodes.filter fun a => a.2 ≠ node }
    if !moves.isTriggering node then .ok r
    else
      match r.resources.operationPipelines (moves.opName node) with
      | none => .error (.exception .general)
      | some uses =>
        if r.fuExecutionPipeline.size ≤
            r.instructionIndex (cycle + r.resources.maximalLatency - 1) then
          .error (.exception .general)
        else
          ((places r.resources).foldlM (r.unassignPlace node cycle uses) r.fuExecutionPipeline).map
            fun t => { r with fuExecutionPipeline := t }

/-- What `assignSource` does that `size` reads. A result of an earlier iteration is read an
initiation interval later. -/
def assignSource (r : ExecutionPipelineResource ν) (isLoopBypass : Bool) (cycle : Nat) (node : ν) :
    ExecutionPipelineResource ν :=
  let readCycle :=
    if r.initiationInterval ≠ 0 ∧ isLoopBypass then cycle + r.initiationInterval else cycle
  { r with assignedSourceNodes := (readCycle, node) :: r.assignedSourceNodes }

def unassignSource (r : ExecutionPipelineResource ν) (node : ν) : ExecutionPipelineResource ν :=
  { r with assignedSourceNodes := r.assignedSourceNodes.filter fun a => a.2 ≠ node }

theorem lt_lastUsed {used : Nat → Bool} {cycle n : Nat} (hused : used cycle = true)
    (hlt : cycle < n) : cycle < lastUsed used n := by
  induction n with
  | zero => exact absurd hlt (Nat.not_lt_zero _)
  | succ n ih =>
    rw [lastUsed]
    split
    · exact hlt
    · next hnot =>
      apply ih
      rcases Nat.lt_succ_iff_lt_or_eq.1 hlt with hlt | rfl
      · exact hlt
      · exact absurd hused hnot

omit [DecidableEq ν] in
theorem foldl_min_le (l : List (Nat × ν)) (n : Nat) :
    l.foldl (fun cycle a => min cycle a.1) n ≤ n ∧
      ∀ a ∈ l, l.foldl (fun cycle a => min cycle a.1) n ≤ a.1 := by
  induction l generalizing n with
  | nil => exact ⟨le_rfl, fun a ha => absurd ha List.not_mem_nil⟩
  | cons b l ih =>
    obtain ⟨hle, hmem⟩ := ih (min n b.1)
    refine ⟨hle.trans (min_le_left _ _), List.forall_mem_cons.2 ⟨?_, hmem⟩⟩
    exact hle.trans (min_le_right _ _)

end ExecutionPipelineResource

namespace ResourceReservationTable
variable {ν : Type} {t t' : ResourceReservationTable ν} {n cycle resource : Nat}
  {rr : ResourceReservation ν}

theorem setRow_row (t : ResourceReservationTable ν) (cycle cycle' : Nat)
    (row : List (ResourceReservation ν)) :
    (t.setRow cycle row).row cycle' = if cycle' = cycle then row else t.row cycle' := by
  rw [setRow]
  exact Function.update_apply _ _ _ _

theorem length_setSlot (cycle' : Nat) :
    ((t.setSlot cycle resource rr).row cycle').length = (t.row cycle').length := by
  rw [setSlot, setRow_row]
  split
  · next h => rw [List.length_set, h]
  · rfl

theorem slot_setSlot (rr : ResourceReservation ν) (h : resource < (t.row cycle).length)
    (cycle' resource' : Nat) :
    (t.setSlot cycle resource rr).slot cycle' resource' =
      if cycle' = cycle ∧ resource' = resource then rr else t.slot cycle' resource' := by
  rw [slot, setSlot, setRow_row]
  by_cases hcycle : cycle' = cycle
  · subst hcycle
    rw [if_pos rfl, List.getElem?_set]
    by_cases hresource : resource = resource'
    · subst hresource
      rw [if_pos rfl, if_pos h, if_pos ⟨rfl, rfl⟩]
      rfl
    · rw [if_neg hresource, if_neg fun h => hresource h.2.symm]
      rfl
  · rw [if_neg hcycle, if_neg fun h => hcycle h.1]
    rfl

/-- Every row that is there has all the resources. -/
structure Shaped (n : Nat) (t : ResourceReservationTable ν) : Prop where
  length : ∀ cycle, t.row cycle = [] ∨ (t.row cycle).length = n
  bound : ∀ cycle, t.size ≤ cycle → t.row cycle = []

theorem Shaped.length_eq (h : t.Shaped n) (hrow : t.row cycle ≠ []) : (t.row cycle).length = n :=
  (h.length cycle).resolve_left hrow

theorem Shaped.lt_size (h : t.Shaped n) (hrow : t.row cycle ≠ []) : cycle < t.size := by
  by_contra hle
  exact hrow (h.bound cycle (not_lt.1 hle))

theorem size_setSlot (h : cycle < t.size) : (t.setSlot cycle resource rr).size = t.size :=
  max_eq_left h

theorem setSlot_row_eq_nil (cycle' : Nat) :
    (t.setSlot cycle resource rr).row cycle' = [] ↔ t.row cycle' = [] := by
  rw [← List.length_eq_zero_iff, length_setSlot, List.length_eq_zero_iff]

theorem Shaped.setSlot (h : t.Shaped n) (hrow : t.row cycle ≠ []) :
    (t.setSlot cycle resource rr).Shaped n := by
  constructor
  · intro cycle'
    rw [setSlot_row_eq_nil, length_setSlot]
    exact h.length cycle'
  · intro cycle' hle
    rw [size_setSlot (h.lt_size hrow)] at hle
    rw [setSlot_row_eq_nil]
    exact h.bound cycle' hle

/-- A row is made where there is none. -/
theorem Shaped.setRow (h : t.Shaped n) (cycle : Nat) :
    (t.setRow cycle (List.replicate n (none, none))).Shaped n := by
  constructor
  · intro cycle'
    rw [setRow_row]
    split
    · exact .inr List.length_replicate
    · exact h.length cycle'
  · intro cycle' hle
    have hle : max t.size (cycle + 1) ≤ cycle' := hle
    rw [setRow_row, if_neg, h.bound cycle' ((le_max_left _ _).trans hle)]
    have hlt := (le_max_right t.size (cycle + 1)).trans hle
    omega

theorem slot_of_row_nil (h : t.row cycle = []) (resource : Nat) :
    t.slot cycle resource = (none, none) := by
  rw [slot, h]
  rfl

theorem slot_setRow (h : t.row cycle = []) (n cycle' resource : Nat) :
    (t.setRow cycle (List.replicate n (none, none))).slot cycle' resource =
      t.slot cycle' resource := by
  rw [slot, setRow_row]
  split
  · next hcycle =>
    subst hcycle
    rw [slot_of_row_nil h]
    by_cases hlt : resource < n
    · rw [List.getElem?_replicate, if_pos hlt]
      rfl
    · rw [List.getElem?_replicate, if_neg hlt]
      rfl
  · rfl

theorem eq_of_slots (hsize : t.size = t'.size)
    (hlength : ∀ cycle, (t.row cycle).length = (t'.row cycle).length)
    (hslot : ∀ cycle resource, t.slot cycle resource = t'.slot cycle resource) : t = t' := by
  have hrow : t.row = t'.row := by
    funext cycle
    apply List.ext_getElem (hlength cycle)
    intro j hj hj'
    have hget := hslot cycle j
    rw [slot, slot, List.getElem?_eq_getElem hj, List.getElem?_eq_getElem hj'] at hget
    exact hget
  obtain ⟨size, row⟩ := t
  obtain ⟨size', row'⟩ := t'
  cases hsize
  cases hrow
  rfl

end ResourceReservationTable

namespace ExecutionPipelineResource
variable {ν : Type} [DecidableEq ν] {t t₀ : ResourceReservationTable ν} {exclusive : ν → Bool}
  {node : ν} {rr rr' : ResourceReservation ν}

/-- The first of the nodes is there whenever the second one is. -/
def Filled (rr : ResourceReservation ν) : Prop := rr.1 = none → rr.2 = none

/-- A node can use what is free, and what is used by one node that excludes it. -/
def Free (exclusive : ν → Bool) (rr : ResourceReservation ν) : Prop :=
  ∀ other, rr.1 = some other → rr.2 = none ∧ exclusive other = true

omit [DecidableEq ν] in
theorem free_of_none (h : rr.1 = none) : Free exclusive rr := by
  intro other hother
  cases h.symm.trans hother

omit [DecidableEq ν] in
theorem reserve_isSome (node : ν) : (reserve exclusive node rr).isSome ↔ Free exclusive rr := by
  obtain ⟨first, second⟩ := rr
  cases first with
  | none => simp [reserve, Free]
  | some other =>
    rw [reserve]
    dsimp only
    split
    · next h => simpa [Free] using h
    · next h => simpa [Free] using h

/-- What has been reserved is not reserved for the node once more, and it can be undone. -/
theorem reserve_some (hself : exclusive node = false) (hfilled : Filled rr)
    (h : reserve exclusive node rr = some rr') :
    ¬Free exclusive rr' ∧ undoReserve node rr' = .ok rr := by
  obtain ⟨first, second⟩ := rr
  cases first with
  | none =>
    cases h
    cases hfilled rfl
    constructor
    · intro hfree
      cases hself.symm.trans (hfree node rfl).2
    · simp [undoReserve]
  | some other =>
    rw [reserve] at h
    dsimp only at h
    split at h
    · next hother =>
      cases h
      obtain ⟨rfl, hother⟩ := hother
      constructor
      · intro hfree
        cases (hfree other rfl).1
      · have hne : other ≠ node := by
          rintro rfl
          cases hself.symm.trans hother
        simp [undoReserve, hne]
    · cases h

/-- A table in which the node has been put at some places. -/
structure Tentative (exclusive : ν → Bool) (node : ν) (index : Nat → Nat)
    (t₀ t : ResourceReservationTable ν) (marked : Nat × Nat → Prop) : Prop where
  size : t.size = t₀.size
  length : ∀ cycle, (t.row cycle).length = (t₀.row cycle).length
  reserved : ∀ p, marked p → p.2 < (t₀.row (index p.1)).length ∧
    reserve exclusive node (t₀.slot (index p.1) p.2) = some (t.slot (index p.1) p.2)
  kept : ∀ cycle resource, (∀ p, marked p → index p.1 = cycle → p.2 ≠ resource) →
    t.slot cycle resource = t₀.slot cycle resource
  distinct : ∀ p q, marked p → marked q → index p.1 = index q.1 → p.2 = q.2 → p = q

variable {index : Nat → Nat} {marked : Nat × Nat → Prop}

omit [DecidableEq ν] in
theorem Tentative.refl (t : ResourceReservationTable ν) (h : ∀ p, ¬marked p) :
    Tentative exclusive node index t t marked := by
  constructor
  · rfl
  · exact fun _ => rfl
  · exact fun p hp => absurd hp (h p)
  · exact fun _ _ _ => rfl
  · exact fun p _ hp => absurd hp (h p)

omit [DecidableEq ν] in
theorem Tentative.congr {marked' : Nat × Nat → Prop} (hiff : ∀ p, marked p ↔ marked' p)
    (h : Tentative exclusive node index t₀ t marked) :
    Tentative exclusive node index t₀ t marked' := by
  have heq : marked = marked' := funext fun p => propext (hiff p)
  rwa [← heq]

omit [DecidableEq ν] in
theorem Tentative.eq (h : Tentative exclusive node index t₀ t marked) (hnone : ∀ p, ¬marked p) :
    t = t₀ :=
  ResourceReservationTable.eq_of_slots h.size h.length fun cycle resource =>
    h.kept cycle resource fun p hp => absurd hp (hnone p)

/-- A place is reserved whose row is there, and the others stay as they are. -/
theorem Tentative.insert (h : Tentative exclusive node index t₀ t marked)
    (hself : exclusive node = false) (hfilled : ∀ cycle resource, Filled (t₀.slot cycle resource))
    (hshaped : t₀.Shaped n) {p : Nat × Nat} (hp : p.2 < n) (hrow : t.row (index p.1) ≠ [])
    (hreserve : reserve exclusive node (t.slot (index p.1) p.2) = some rr) :
    (∀ q, marked q → index q.1 = index p.1 → q.2 ≠ p.2) ∧
      Tentative exclusive node index t₀ (t.setSlot (index p.1) p.2 rr)
        fun q => marked q ∨ q = p := by
  have hrow₀ : t₀.row (index p.1) ≠ [] := by
    intro hnil
    apply hrow
    rw [← List.length_eq_zero_iff, h.length, hnil, List.length_nil]
  have hlength : p.2 < (t₀.row (index p.1)).length := hshaped.length_eq hrow₀ ▸ hp
  have hnew : ∀ q, marked q → index q.1 = index p.1 → q.2 ≠ p.2 := by
    intro q hq hindex hresource
    have hsome := (h.reserved q hq).2
    rw [hindex, hresource] at hsome
    apply (reserve_some hself (hfilled _ _) hsome).1
    rw [← reserve_isSome node, hreserve]
    rfl
  have hslot := ResourceReservationTable.slot_setSlot rr
    ((h.length (index p.1)).symm ▸ hlength)
  have hkept := h.kept (index p.1) p.2 hnew
  refine ⟨hnew, ?_⟩
  constructor
  · rw [ResourceReservationTable.size_setSlot, h.size]
    rw [h.size]
    exact hshaped.lt_size hrow₀
  · intro cycle
    rw [ResourceReservationTable.length_setSlot, h.length]
  · rintro q (hq | rfl)
    · rw [hslot, if_neg fun heq => hnew q hq heq.1 heq.2]
      exact h.reserved q hq
    · rw [hslot, if_pos ⟨rfl, rfl⟩, ← hkept]
      exact ⟨hlength, hreserve⟩
  · intro cycle resource hother
    rw [hslot, if_neg fun heq => hother p (.inr rfl) heq.1.symm heq.2.symm]
    exact h.kept cycle resource fun q hq => hother q (.inl hq)
  · rintro q q' (hq | rfl) (hq' | rfl) hindex hresource
    · exact h.distinct q q' hq hq' hindex hresource
    · exact absurd hresource (hnew q hq hindex)
    · exact absurd hresource.symm (hnew q' hq' hindex.symm)
    · rfl

/-- A place is undone. -/
theorem Tentative.undo (h : Tentative exclusive node index t₀ t marked)
    (hself : exclusive node = false) (hfilled : ∀ cycle resource, Filled (t₀.slot cycle resource))
    (hshaped : t₀.Shaped n) {p : Nat × Nat} (hp : marked p) :
    undoReserve node (t.slot (index p.1) p.2) = .ok (t₀.slot (index p.1) p.2) ∧
      Tentative exclusive node index t₀
        (t.setSlot (index p.1) p.2 (t₀.slot (index p.1) p.2)) fun q => marked q ∧ q ≠ p := by
  obtain ⟨hlt, hreserve⟩ := h.reserved p hp
  refine ⟨(reserve_some hself (hfilled _ _) hreserve).2, ?_⟩
  have hrow₀ : t₀.row (index p.1) ≠ [] := List.ne_nil_of_length_pos (Nat.zero_lt_of_lt hlt)
  have hslot := ResourceReservationTable.slot_setSlot (t₀.slot (index p.1) p.2)
    ((h.length (index p.1)).symm ▸ hlt)
  constructor
  · rw [ResourceReservationTable.size_setSlot, h.size]
    rw [h.size]
    exact hshaped.lt_size hrow₀
  · intro cycle
    rw [ResourceReservationTable.length_setSlot, h.length]
  · rintro q ⟨hq, hne⟩
    rw [hslot, if_neg fun heq => hne (h.distinct q p hq hp heq.1 heq.2)]
    exact h.reserved q hq
  · intro cycle resource hother
    rw [hslot]
    split
    · next heq => rw [heq.1, heq.2]
    · next hne =>
      apply h.kept
      intro q hq hindex hresource
      by_cases heq : q = p
      · subst heq
        exact hne ⟨hindex.symm, hresource.symm⟩
      · exact hother q ⟨hq, heq⟩ hindex hresource
  · exact fun q q' hq hq' => h.distinct q q' hq.1 hq'.1

/-- What the loops over the places have done so far. -/
structure Trial (exclusive : ν → Bool) (node : ν) (index : Nat → Nat) (uses : Nat → Nat → Bool)
    (n : Nat) (t₀ t : ResourceReservationTable ν) (assigned : List (Nat × Nat)) : Prop where
  tentative : Tentative exclusive node index t₀ t (· ∈ assigned)
  uses : ∀ p ∈ assigned, p.2 < n ∧ uses p.1 p.2 = true

variable {uses : Nat → Nat → Bool} {n : Nat} {assigned : List (Nat × Nat)}

/-- The loop over the resources goes on to the end if all of them are reserved. -/
theorem Trial.reserveRow (h : Trial exclusive node index uses n t₀ t assigned)
    (hself : exclusive node = false) (hfilled : ∀ cycle resource, Filled (t₀.slot cycle resource))
    (hshaped : t₀.Shaped n) {i : Nat} (hrow : t.row (index i) ≠ []) (js : List Nat)
    (hnodup : js.Nodup) (hjs : ∀ j ∈ js, j < n ∧ (i, j) ∉ assigned) :
    ∃ success t' assigned',
      ExecutionPipelineResource.reserveRow exclusive node (uses i) i (index i) js t assigned =
        (success, t', assigned') ∧
      Trial exclusive node index uses n t₀ t' assigned' ∧
      (∀ p, p ∈ assigned' → p ∈ assigned ∨ p.1 = i) ∧
      (success = true → ∀ j ∈ js, uses i j = true → Free exclusive (t₀.slot (index i) j)) ∧
      (success = false → ∃ j ∈ js, uses i j = true ∧ (i, j) ∉ assigned' ∧
        ¬Free exclusive (t'.slot (index i) j)) := by
  induction js generalizing t assigned with
  | nil =>
    exact ⟨true, t, assigned, rfl, h, fun p hp => .inl hp,
      fun _ j hj => absurd hj List.not_mem_nil, fun hf => absurd hf.symm Bool.false_ne_true⟩
  | cons j js ih =>
    obtain ⟨⟨hj, hnot⟩, hjs⟩ := List.forall_mem_cons.1 hjs
    obtain ⟨hjnot, hnodup⟩ := List.nodup_cons.1 hnodup
    by_cases huse : uses i j = true
    · rw [ExecutionPipelineResource.reserveRow, if_pos huse]
      cases hreserve : reserve exclusive node (t.slot (index i) j) with
      | none =>
        refine ⟨false, t, assigned, rfl, h, fun p hp => .inl hp,
          fun hf => absurd hf Bool.false_ne_true, fun _ => ?_⟩
        refine ⟨j, List.mem_cons_self, huse, hnot, ?_⟩
        rw [← reserve_isSome node, hreserve]
        exact Bool.false_ne_true
      | some rr =>
        obtain ⟨hnew, htentative⟩ :=
          h.tentative.insert hself hfilled hshaped (p := (i, j)) hj hrow hreserve
        have htrial : Trial exclusive node index uses n t₀ (t.setSlot (index i) j rr)
            (assigned ++ [(i, j)]) := by
          constructor
          · simpa only [List.mem_append, List.mem_singleton] using htentative
          · intro p hp
            rcases List.mem_append.1 hp with hp | hp
            · exact h.uses p hp
            · cases List.mem_singleton.1 hp
              exact ⟨hj, huse⟩
        have hjs' : ∀ j' ∈ js, j' < n ∧ (i, j') ∉ assigned ++ [(i, j)] := by
          intro j' hj'
          refine ⟨(hjs j' hj').1, fun hmem => ?_⟩
          rcases List.mem_append.1 hmem with hmem | hmem
          · exact (hjs j' hj').2 hmem
          · cases List.mem_singleton.1 hmem
            exact hjnot hj'
        have hrow' : (t.setSlot (index i) j rr).row (index i) ≠ [] :=
          (ResourceReservationTable.setSlot_row_eq_nil _).not.2 hrow
        obtain ⟨success, t', assigned', heq, ht', hmem, htrue, hfalse⟩ :=
          ih htrial hrow' hnodup hjs'
        refine ⟨success, t', assigned', heq, ht', ?_, ?_, ?_⟩
        · intro p hp
          rcases hmem p hp with hp | hp
          · rcases List.mem_append.1 hp with hp | hp
            · exact .inl hp
            · cases List.mem_singleton.1 hp
              exact .inr rfl
          · exact .inr hp
        · intro hsuccess
          refine List.forall_mem_cons.2 ⟨fun _ => ?_, htrue hsuccess⟩
          rw [← h.tentative.kept (index i) j hnew, ← reserve_isSome node, hreserve]
          rfl
        · intro hsuccess
          obtain ⟨j', hj', hfail⟩ := hfalse hsuccess
          exact ⟨j', List.mem_cons_of_mem _ hj', hfail⟩
    · obtain ⟨success, t', assigned', heq, ht', hmem, htrue, hfalse⟩ := ih h hrow hnodup hjs
      refine ⟨success, t', assigned', ?_, ht', hmem, ?_, ?_⟩
      · rw [ExecutionPipelineResource.reserveRow, if_neg huse, heq]
      · intro hsuccess
        exact List.forall_mem_cons.2 ⟨fun h => absurd h huse, htrue hsuccess⟩
      · intro hsuccess
        obtain ⟨j', hj', hfail⟩ := hfalse hsuccess
        exact ⟨j', List.mem_cons_of_mem _ hj', hfail⟩

/-- A resource that a cycle cannot have is used by another node, or by the node itself in a cycle
with the same index. -/
def Blocked (exclusive : ν → Bool) (index : Nat → Nat) (uses : Nat → Nat → Bool)
    (t : ResourceReservationTable ν) (i j : Nat) (is : List Nat) : Prop :=
  ¬Free exclusive (t.slot (index i) j) ∨
    ∃ i' ∈ is, i' ≠ i ∧ uses i' j = true ∧ index i' = index i

omit [DecidableEq ν] in
theorem Trial.blocked (h : Trial exclusive node index uses n t₀ t assigned) {i j : Nat}
    {is : List Nat} (his : ∀ p ∈ assigned, p.1 ∈ is) (hnot : (i, j) ∉ assigned)
    (hfail : ¬Free exclusive (t.slot (index i) j)) :
    Blocked exclusive index uses t₀ i j is := by
  by_cases hkept : ∀ p ∈ assigned, index p.1 = index i → p.2 ≠ j
  · rw [h.tentative.kept (index i) j hkept] at hfail
    exact .inl hfail
  · push Not at hkept
    obtain ⟨⟨i', j'⟩, hp, hindex, rfl⟩ := hkept
    refine .inr ⟨i', his _ hp, ?_, (h.uses _ hp).2, hindex⟩
    rintro rfl
    exact hnot hp

/-- The cycles that the loop leaves out have no resource that is in use. -/
theorem Trial.reserveRows {r : ExecutionPipelineResource ν} {cycle curSize fupSize lat : Nat}
    (hindex : index = fun i => r.instructionIndex (cycle + i))
    (hn : r.resources.numberOfResources = n)
    (h : Trial exclusive node index uses n t₀ t assigned)
    (hself : exclusive node = false) (hfilled : ∀ cycle resource, Filled (t₀.slot cycle resource))
    (hshaped : t₀.Shaped n) (hfup : fupSize = t₀.size)
    (hcur : r.plain = true → ∀ m, curSize ≤ m → ∀ j, (t₀.slot m j).1 = none)
    (hmono : r.plain = true → ∀ i i', i ≤ i' → i' < lat → index i ≤ index i')
    (is : List Nat) (hsorted : is.Pairwise (· < ·)) (his : ∀ i ∈ is, i < lat)
    (hassigned : ∀ p ∈ assigned, p.1 < lat ∧ p.1 ∉ is) :
    ∃ success t' assigned',
      r.reserveRows exclusive node cycle uses curSize fupSize is t assigned =
        (success, t', assigned') ∧
      Trial exclusive node index uses n t₀ t' assigned' ∧ (∀ p ∈ assigned', p.1 < lat) ∧
      (success = true → ∀ i ∈ is, ∀ j < n, uses i j = true → Free exclusive (t₀.slot (index i) j)) ∧
      (success = false → ∃ i ∈ is, ∃ j < n, uses i j = true ∧
        Blocked exclusive index uses t₀ i j (List.range lat)) := by
  induction is generalizing t assigned with
  | nil =>
    exact ⟨true, t, assigned, rfl, h, fun p hp => (hassigned p hp).1,
      fun _ i hi => absurd hi List.not_mem_nil, fun hf => absurd hf.symm Bool.false_ne_true⟩
  | cons i is ih =>
    obtain ⟨hlt, hsorted⟩ := List.pairwise_cons.1 hsorted
    obtain ⟨hi, his⟩ := List.forall_mem_cons.1 his
    have hindexi : r.instructionIndex (cycle + i) = index i := by rw [hindex]
    have hrest : ∀ p ∈ assigned, p.1 < lat ∧ p.1 ∉ is := fun p hp =>
      ⟨(hassigned p hp).1, fun hmem => (hassigned p hp).2 (List.mem_cons_of_mem _ hmem)⟩
    rw [ExecutionPipelineResource.reserveRows, hindexi]
    by_cases hbreak : r.plain ∧ curSize ≤ index i
    · refine ⟨true, t, assigned, if_pos hbreak, h, fun p hp => (hassigned p hp).1, ?_,
        fun hf => absurd hf.symm Bool.false_ne_true⟩
      intro _ i' hi' j _ _
      have hle : i ≤ i' ∧ i' < lat := by
        rcases List.mem_cons.1 hi' with rfl | hi'
        · exact ⟨le_rfl, hi⟩
        · exact ⟨(hlt i' hi').le, his i' hi'⟩
      exact free_of_none (hcur hbreak.1 _ (hbreak.2.trans (hmono hbreak.1 i i' hle.1 hle.2)) j)
    · rw [if_neg hbreak]
      by_cases hskip : ¬r.plain ∧ fupSize ≤ index i ∨ t.row (index i) = []
      · rw [if_pos hskip]
        have hnil : t₀.row (index i) = [] := by
          rcases hskip with hskip | hskip
          · exact hshaped.bound _ (hfup ▸ hskip.2)
          · rw [← List.length_eq_zero_iff, ← h.tentative.length, hskip, List.length_nil]
        obtain ⟨success, t', assigned', heq, ht', hmem, htrue, hfalse⟩ := ih h hsorted his hrest
        refine ⟨success, t', assigned', heq, ht', hmem, fun hsuccess => ?_, fun hsuccess => ?_⟩
        · refine List.forall_mem_cons.2 ⟨fun j _ _ => ?_, htrue hsuccess⟩
          apply free_of_none
          rw [ResourceReservationTable.slot_of_row_nil hnil]
        · obtain ⟨i', hi', hfail⟩ := hfalse hsuccess
          exact ⟨i', List.mem_cons_of_mem _ hi', hfail⟩
      · rw [if_neg hskip, hn]
        have hjs : ∀ j ∈ List.range n, j < n ∧ (i, j) ∉ assigned := fun j hj =>
          ⟨List.mem_range.1 hj, fun hmem => (hassigned _ hmem).2 List.mem_cons_self⟩
        obtain ⟨success, t', assigned', heq, ht', hmem, htrue, hfalse⟩ :=
          h.reserveRow hself hfilled hshaped (not_or.1 hskip).2 _ List.nodup_range hjs
        have hlat : ∀ p ∈ assigned', p.1 < lat := by
          intro p hp
          rcases hmem p hp with hp | rfl
          · exact (hassigned p hp).1
          · exact hi
        rw [heq]
        cases success with
        | true =>
          have hassigned' : ∀ p ∈ assigned', p.1 < lat ∧ p.1 ∉ is := by
            intro p hp
            refine ⟨hlat p hp, ?_⟩
            rcases hmem p hp with hp | rfl
            · exact (hrest p hp).2
            · exact fun hmem => lt_irrefl _ (hlt _ hmem)
          obtain ⟨success, t'', assigned'', heq', ht'', hmem', htrue', hfalse'⟩ :=
            ih ht' hsorted his hassigned'
          refine ⟨success, t'', assigned'', heq', ht'', hmem', fun hsuccess => ?_,
            fun hsuccess => ?_⟩
          · refine List.forall_mem_cons.2 ⟨fun j hj => ?_, htrue' hsuccess⟩
            exact htrue rfl j (List.mem_range.2 hj)
          · obtain ⟨i', hi', hfail⟩ := hfalse' hsuccess
            exact ⟨i', List.mem_cons_of_mem _ hi', hfail⟩
        | false =>
          refine ⟨false, t', assigned', rfl, ht', hlat, fun hf => absurd hf Bool.false_ne_true,
            fun _ => ?_⟩
          obtain ⟨j, hj, huse, hnot, hfail⟩ := hfalse rfl
          refine ⟨i, List.mem_cons_self, j, List.mem_range.1 hj, huse, ?_⟩
          exact ht'.blocked (fun p hp => List.mem_range.2 (hlat p hp)) hnot hfail

theorem places_nodup (resources : ExecutionPipelineResourceTable) : (places resources).Nodup :=
  List.nodup_range.product List.nodup_range

theorem places_sorted (resources : ExecutionPipelineResourceTable) :
    (places resources).Pairwise fun p q => p.1 ≤ q.1 := by
  rw [places, List.pairwise_flatMap]
  constructor
  · intro i _
    rw [List.pairwise_map]
    exact List.Pairwise.imp (fun _ => le_rfl) List.pairwise_lt_range
  · apply List.Pairwise.imp _ List.pairwise_lt_range
    intro i i' hlt p hp q hq
    obtain ⟨_, _, rfl⟩ := List.mem_map.1 hp
    obtain ⟨_, _, rfl⟩ := List.mem_map.1 hq
    exact hlt.le

theorem mem_places {resources : ExecutionPipelineResourceTable} {p : Nat × Nat} :
    p ∈ places resources ↔ p.1 < resources.maximalLatency ∧ p.2 < resources.numberOfResources := by
  obtain ⟨i, j⟩ := p
  simp [places]

/-- What has been reserved is undone. -/
theorem undo_tentative {r : ExecutionPipelineResource ν} {cycle : Nat}
    (hindex : index = fun i => r.instructionIndex (cycle + i)) (hself : exclusive node = false)
    (hfilled : ∀ cycle resource, Filled (t₀.slot cycle resource)) (hshaped : t₀.Shaped n)
    (l : List (Nat × Nat)) (hnodup : l.Nodup)
    (h : Tentative exclusive node index t₀ t fun p => p ∈ assigned ∧ p ∈ l) :
    l.foldlM (fun t place =>
      if place ∈ assigned then
        (undoReserve node (t.slot (r.instructionIndex (cycle + place.1)) place.2)).map
          (t.setSlot (r.instructionIndex (cycle + place.1)) place.2)
      else .ok t) t = (.ok t₀ : Outcome _) := by
  induction l generalizing t with
  | nil =>
    rw [h.eq fun p hp => List.not_mem_nil hp.2]
    rfl
  | cons p l ih =>
    obtain ⟨hnot, hnodup⟩ := List.nodup_cons.1 hnodup
    rw [List.foldlM_cons]
    by_cases hp : p ∈ assigned
    · obtain ⟨hundo, htentative⟩ := h.undo hself hfilled hshaped ⟨hp, List.mem_cons_self⟩
      have hindexp : r.instructionIndex (cycle + p.1) = index p.1 := by rw [hindex]
      rw [if_pos hp, hindexp, hundo]
      apply ih hnodup
      apply htentative.congr
      intro q
      rw [List.mem_cons]
      constructor
      · rintro ⟨⟨hq, rfl | hql⟩, hne⟩
        · exact absurd rfl hne
        · exact ⟨hq, hql⟩
      · rintro ⟨hq, hql⟩
        refine ⟨⟨hq, .inr hql⟩, ?_⟩
        rintro rfl
        exact hnot hql
    · rw [if_neg hp]
      apply ih hnodup
      apply h.congr
      intro q
      rw [List.mem_cons]
      constructor
      · rintro ⟨hq, rfl | hql⟩
        · exact absurd hq hp
        · exact ⟨hq, hql⟩
      · exact fun hq => ⟨hq.1, .inr hq.2⟩

theorem Trial.undoReserves (h : Trial exclusive node index uses n t₀ t assigned)
    {r : ExecutionPipelineResource ν} {cycle : Nat}
    (hindex : index = fun i => r.instructionIndex (cycle + i))
    (hn : r.resources.numberOfResources = n) (hself : exclusive node = false)
    (hfilled : ∀ cycle resource, Filled (t₀.slot cycle resource)) (hshaped : t₀.Shaped n)
    (hassigned : ∀ p ∈ assigned, p.1 < r.resources.maximalLatency) :
    r.undoReserves node cycle assigned t = .ok t₀ := by
  rw [ExecutionPipelineResource.undoReserves]
  apply undo_tentative hindex hself hfilled hshaped _ (places_nodup _)
  apply h.tentative.congr
  intro p
  constructor
  · exact fun hp => ⟨hp, mem_places.2 ⟨hassigned p hp, hn ▸ (h.uses p hp).1⟩⟩
  · exact And.left

end ExecutionPipelineResource

end Scheduler

end OpenAsip
