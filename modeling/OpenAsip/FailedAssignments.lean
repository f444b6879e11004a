import OpenAsip.AssignmentPlans
import OpenAsip.BrokerDirectors

namespace OpenAsip
set_option autoImplicit true

namespace Scheduler

/-- What `SimpleBrokerDirector::assign` reads and changes before it knows that the node is
assigned. `recorded` tells which moves have original resources, and a copy that is there already is
not replaced. -/
structure DirectorState (σ ν ρ β φ υ : Type) where
  placed : ν → Option Int
  recorded : ν → Bool
  resources : σ
  tested : Option (TestedAssignment ν ρ)
  lastRequest : Request β φ υ

namespace DirectorState
variable {σ ν ρ β φ υ : Type} [DecidableEq ν] [DecidableEq ρ] [DecidableEq φ] [DecidableEq υ]

/-- The calls that `assign` refuses without a search. -/
def Refused (s : DirectorState σ ν ρ β φ υ) (cycle : Int) (node : ν) : Prop :=
  cycle < 0 ∨ cycle = 2 ^ 31 - 1 ∨ (s.placed node ≠ none ∧ s.placed node ≠ some cycle)

instance (s : DirectorState σ ν ρ β φ υ) (cycle : Int) (node : ν) :
    Decidable (s.Refused cycle node) :=
  inferInstanceAs (Decidable (_ ∨ _ ∨ _))

variable (R : ResourceBrokers σ ν ρ β φ υ)

/-- The node is placed and the copies are made before the search, which starts from what the cached
assignment leaves. -/
def request (s : DirectorState σ ν ρ β φ υ) (cycle : Int) (node : ν) (request : Request β φ υ) :
    DirectorState σ ν ρ β φ υ × Bool :=
  let r := TestedAssignment.tryCachedAssignment R s.tested s.lastRequest s.resources cycle node
    request
  (⟨Function.update s.placed node (some cycle),
    Function.update s.recorded node (s.recorded node || R.isMove node), r.1, none, request⟩, r.2)

/-- The state after the call and the exception that it throws. What follows an assignment is in
`SimpleBrokerDirector.place`. -/
def assign (fuel : Nat) (s : DirectorState σ ν ρ β φ υ) (cycle : Int) (node : ν)
    (request : Request β φ υ) : Option (DirectorState σ ν ρ β φ υ × Option ExceptionClass) :=
  if s.Refused cycle node then some (s, some .invalidData)
  else
    match s.request R cycle node request with
    | (s, true) => some (s, none)
    | (s, false) =>
      match AssignmentPlan.setRequest R node request s.resources with
      | none => some (s, some .general)
      | some plan => do
        let (plan, success) ← plan.search R cycle node request fuel
        if success then
          some ({ s with
            resources := plan.resources
            tested := some ⟨node, cycle, plan.workingAssignment, plan.workingAssignment_ordered⟩ },
            none)
        else some ({ s with resources := plan.resources }, some .general)

/-- What a search needs has been done for the node before. -/
def Requested (s : DirectorState σ ν ρ β φ υ) (cycle : Int) (node : ν) : Prop :=
  s.placed node = some cycle ∧ (R.isMove node = true → s.recorded node = true)

/-- The same nodes are placed in the same cycles, the same moves have copies of what they had, and
the brokers, the resources and the moves are as they were. -/
def Same (s t : DirectorState σ ν ρ β φ υ) : Prop :=
  t.placed = s.placed ∧ t.recorded = s.recorded ∧ t.resources = s.resources

variable {R} {s t : DirectorState σ ν ρ β φ υ} {cycle : Int} {node : ν} {request : Request β φ υ}
  {fuel : Nat} {e : Option ExceptionClass}

theorem request_resources
    (hoffers : R.offersResource s.resources cycle node request = false) :
    (s.request R cycle node request).1.resources = s.resources ∧
      (s.request R cycle node request).2 = false := by
  rcases TestedAssignment.tryCachedAssignment_cases R s.tested s.lastRequest s.resources cycle node
    request with
    hcached | ⟨broker, resource, others, hfirst, havailable, _, _⟩
  · simp [DirectorState.request, hcached]
  · have := ResourceBrokers.offersResource_of_isAvailable hfirst havailable
    simp [hoffers] at this

/-- The cached assignment of a long immediate is that of the templates. -/
theorem request_immediate (hmove : R.isMove node = false) :
    (s.request R cycle node request).1.resources = s.resources ∨
      (s.request R cycle node request).2 = true := by
  rcases TestedAssignment.tryCachedAssignment_cases R s.tested s.lastRequest s.resources cycle node
    request with
    hcached | ⟨broker, resource, others, _, _, hothers, hcached⟩
  · exact .inl (by simp [DirectorState.request, hcached])
  · rw [R.applicableBrokers_of_not_isMove hmove, List.tail_cons, List.map_eq_nil_iff] at hothers
    subst hothers
    exact .inr (by simp [DirectorState.request, hcached, TestedAssignment.tryAssignments])

theorem assign_cases (h : s.assign R fuel cycle node request = some (t, e)) :
    (s.Refused cycle node ∧ t = s ∧ e = some .invalidData) ∨
      (¬ s.Refused cycle node ∧ t.placed = Function.update s.placed node (some cycle) ∧
        t.recorded = Function.update s.recorded node (s.recorded node || R.isMove node) ∧
        (e = none ∨ e = some .general ∧
          (R.offersResource s.resources cycle node request = false →
            t.resources = s.resources) ∧
          (R.isMove node = false →
            R.offersResource s.resources cycle node request = false))) := by
  by_cases hrefused : s.Refused cycle node
  · simp only [assign, hrefused, if_true, Option.some.injEq, Prod.mk.injEq] at h
    exact .inl ⟨hrefused, h.1.symm, h.2.symm⟩
  · refine .inr ⟨hrefused, ?_⟩
    simp only [assign, hrefused, if_false] at h
    rcases hu : s.request R cycle node request with ⟨u, success⟩
    have hplaced : u.placed = Function.update s.placed node (some cycle) :=
      congrArg (fun r => r.1.placed) hu.symm
    have hrecorded :
        u.recorded = Function.update s.recorded node (s.recorded node || R.isMove node) :=
      congrArg (fun r => r.1.recorded) hu.symm
    cases success with
    | true =>
      simp only [hu, Option.some.injEq, Prod.mk.injEq] at h
      exact h.1 ▸ ⟨hplaced, hrecorded, .inl h.2.symm⟩
    | false =>
      obtain ⟨broker, rest, hsub, _, hp⟩ :=
        AssignmentPlan.setRequest_eq R node request u.resources
      simp only [hu, hp] at h
      rcases hq : AssignmentPlan.search R cycle node request fuel
        (AssignmentPlan.start u.resources broker rest hsub) with _ | ⟨q, found⟩
      · simp [hq] at h
      · cases found with
        | true =>
          simp only [hq, Option.bind_eq_bind, Option.bind_some, if_true, Option.some.injEq,
            Prod.mk.injEq] at h
          exact h.1 ▸ ⟨hplaced, hrecorded, .inl h.2.symm⟩
        | false =>
          simp only [hq, Option.bind_eq_bind, Option.bind_some, Bool.false_eq_true, if_false,
            Option.some.injEq, Prod.mk.injEq] at h
          refine h.1 ▸ ⟨hplaced, hrecorded, .inr ⟨h.2.symm, fun hoffers => ?_, fun hmove => ?_⟩⟩
          · have hsame := (request_resources hoffers).1
            rw [hu] at hsame
            exact (AssignmentPlan.search_notFound hp hq (hsame ▸ hoffers)).2.trans hsame
          · by_contra hoffers
            rw [Bool.not_eq_false] at hoffers
            have hsame : (s.request R cycle node request).1.resources = s.resources ∨
                (s.request R cycle node request).2 = true := request_immediate hmove
            rw [hu] at hsame
            rcases hsame with hsame | hsame
            · have := AssignmentPlan.search_found hp hq
                (R.applicableBrokers_of_not_isMove hmove request.bus) (hsame ▸ hoffers)
              cases this
            · cases hsame

/-- Moves without guards between registers of one file, which has a port of each kind, over a bus.
A resource is in use in the cycles that are recorded for it. -/
def oneBus : ResourceBrokers (List (Broker × Int × Bool)) Bool Unit Unit Unit Unit where
  isMove _ := true
  move _ _ := ⟨.gpr, false, false, false⟩
  canTransportImmediate _ _ _ := false
  allAvailableResources broker s cycle _ _ :=
    if broker ≠ .iTemplate ∧ s.any fun r => r.1 = broker ∧ r.2.1 = cycle then [] else [()]
  busIsAvailable s _ cycle _ _ := !s.any fun r => r.1 = .bus ∧ r.2.1 = cycle
  isAlreadyAssigned broker s cycle node _ := (broker, cycle, node) ∈ s
  assign broker s cycle node _ _ := (broker, cycle, node) :: s
  unassign broker s cycle node := s.filter (· ≠ (broker, cycle, node))

/-- No move is placed. -/
def unplaced : DirectorState (List (Broker × Int × Bool)) Bool Unit Unit Unit Unit :=
  ⟨fun _ => none, fun _ => false, [], none, ⟨none, none, none, -1, none, -1⟩⟩

/-- One move is assigned, and a search for the other one has failed. -/
def leftPlaced : DirectorState (List (Broker × Int × Bool)) Bool Unit Unit Unit Unit :=
  ⟨fun _ => some 0, fun _ => true, [(.iTemplate, 0, false), (.bus, 0, false),
    (.outputPSocket, 0, false), (.inputPSocket, 0, false)], none, unplaced.lastRequest⟩

/-- After a search that found nothing the node can be assigned in no other cycle. -/
theorem assign_after_failure (h : s.assign R fuel cycle node request = some (t, some x))
    (hrefused : ¬ s.Refused cycle node) (hcycle : cycle' ≠ cycle) (fuel' : Nat)
    (request' : Request β φ υ) :
    t.assign R fuel' cycle' node request' = some (t, some .invalidData) := by
  rcases assign_cases h with ⟨hr, _⟩ | ⟨_, hplaced, _⟩
  · exact absurd hr hrefused
  · have : t.Refused cycle' node := .inr (.inr (by
      rw [hplaced, Function.update_self]
      exact ⟨Option.some_ne_none cycle, fun heq => hcycle (Option.some.inj heq).symm⟩))
    simp [assign, this]

/-- What the search comes to in `SimpleBrokerDirector.assign` is what the plan comes to here. -/
theorem assign_refines (info : ν → NodeInfo) (d : SimpleBrokerDirector ν)
    (hmove : (info node).isMove = R.isMove node) (hplaced : d.placed = s.placed)
    (hrecorded : d.recorded = s.recorded)
    (h : s.assign R fuel cycle node request = some (t, e)) :
    ∃ search, (d.assign info cycle node search).1.placed = t.placed ∧
      (d.assign info cycle node search).1.recorded = t.recorded ∧
      (d.assign info cycle node search).2 = e := by
  rcases assign_cases h with ⟨hr, rfl, rfl⟩ | ⟨hr, ht, hrec, he⟩
  · refine ⟨.notFound true, ?_⟩
    simp only [SimpleBrokerDirector.assign, hplaced]
    rcases hr with hr | hr | hr
    · simp [hr, hplaced, hrecorded]
    · simp [hr, hplaced, hrecorded]
    · simp only [hr, ne_eq, not_false_eq_true, and_self, if_true]
      split <;> simp [hplaced, hrecorded]
  · simp only [Refused, not_or] at hr
    have hd : (d.request info cycle node).placed = t.placed ∧
        (d.request info cycle node).recorded = t.recorded := by
      simp [SimpleBrokerDirector.request, hplaced, hrecorded, hmove, ht, hrec]
    rcases he with rfl | ⟨rfl, _⟩
    · refine ⟨.found (-1) false, ?_⟩
      rw [SimpleBrokerDirector.assign, if_neg hr.1, if_neg hr.2.1, if_neg (hplaced ▸ hr.2.2)]
      exact ⟨hd.1, hd.2, rfl⟩
    · refine ⟨.notFound true, ?_⟩
      rw [SimpleBrokerDirector.assign, if_neg hr.1, if_neg hr.2.1, if_neg (hplaced ▸ hr.2.2)]
      exact ⟨hd.1, hd.2, rfl⟩

end DirectorState
end Scheduler

end OpenAsip
