import OpenAsip.FailedAssignments

namespace OpenAsip
set_option autoImplicit true

namespace Scheduler
namespace AssignmentPlan
variable {σ ν ρ β φ υ : Type} (R : ResourceBrokers σ ν ρ β φ υ) (cycle : Int)
  (node : ν) (request : Request β φ υ)

/-- All brokers forget what they have tried, and the plan is at its first broker again. -/
def resetAssignments (p : AssignmentPlan σ ρ) : σ :=
  (p.earlier.reverse ++ p.current :: p.later).foldl
    (fun s a => undoAssignment R cycle node request a.broker s) p.resources

/-- The resources after the loop of `SimpleBrokerDirector::canAssign`, and its answer. It does not
assign what the last broker has. -/
def test : Nat → AssignmentPlan σ ρ → Option (σ × Bool)
  | 0, _ => none
  | fuel + 1, p =>
    let (next, p) := p.isTestedAssignmentPossible R cycle node request
    match next with
    | none =>
      match h : p.earlier with
      | [] => some (p.resetAssignments R cycle node request, false)
      | previous :: rest => test fuel (p.backtrack R cycle node request previous rest h)
    | some resource =>
      match h : p.later with
      | [] => some (p.resetAssignments R cycle node request, true)
      | next :: rest =>
        let p' := p.tryNextAssignment R cycle node request resource
        test fuel (p'.advance next rest h)

variable {R cycle node request}

/-- What the current broker has left to try. -/
def remaining (R : ResourceBrokers σ ν ρ β φ υ) (cycle : Int) (node : ν) (request : Request β φ υ)
    (p : AssignmentPlan σ ρ) : List ρ :=
  if p.current.tried = 0 then
    R.allAvailableResources p.current.broker p.resources cycle node request
  else p.current.availableResources.drop p.current.tried

/-- A broker that has tried one of the resources that it offered. -/
structure Asked (R : ResourceBrokers σ ν ρ β φ υ) (cycle : Int) (node : ν) (request : Request β φ υ)
    (a : PendingAssignment ρ) : Prop where
  tried : 0 < a.tried
  tried_le : a.tried ≤ a.availableResources.length
  offered : ∃ s, a.availableResources = R.allAvailableResources a.broker s cycle node request

structure Valid (R : ResourceBrokers σ ν ρ β φ υ) (cycle : Int) (node : ν) (request : Request β φ υ)
    (p : AssignmentPlan σ ρ) : Prop where
  earlier : ∀ a ∈ p.earlier, Asked R cycle node request a
  current : p.current.tried = 0 ∨ Asked R cycle node request p.current
  later : ∀ a ∈ p.later, a.tried = 0

def brokers (p : AssignmentPlan σ ρ) : List Broker :=
  (p.earlier.reverse ++ p.current :: p.later).map PendingAssignment.broker

/-- What the current broker has become when it has tried what it has left to try first. -/
structure Next (R : ResourceBrokers σ ν ρ β φ υ) (cycle : Int) (node : ν) (request : Request β φ υ)
    (p : AssignmentPlan σ ρ) (a : PendingAssignment ρ) : Prop where
  broker : a.broker = p.current.broker
  asked : Asked R cycle node request a
  remaining : (p.remaining R cycle node request).length =
    (a.availableResources.drop a.tried).length + 1

/-- What a round of the loop can do that is not the last one. -/
inductive Round (R : ResourceBrokers σ ν ρ β φ υ) (cycle : Int) (node : ν)
    (request : Request β φ υ) (p q : AssignmentPlan σ ρ) : Prop where
  | backtrack (a : PendingAssignment ρ) (hbroker : a.broker = p.current.broker)
      (htried : a.tried = 0) (hearlier : p.earlier = q.current :: q.earlier)
      (hlater : q.later = a :: p.later)
  | advance (a : PendingAssignment ρ) (hnext : Next R cycle node request p a)
      (hearlier : q.earlier = a :: p.earlier) (hlater : p.later = q.current :: q.later)

theorem Round.brokers {p q : AssignmentPlan σ ρ} (h : Round R cycle node request p q) :
    q.brokers = p.brokers := by
  cases h with
  | backtrack a hbroker htried hearlier hlater =>
    simp [AssignmentPlan.brokers, hearlier, hlater, hbroker]
  | advance a hnext hearlier hlater =>
    simp [AssignmentPlan.brokers, hearlier, hlater, hnext.broker]

theorem Round.valid {p q : AssignmentPlan σ ρ} (h : Round R cycle node request p q)
    (hp : p.Valid R cycle node request) : q.Valid R cycle node request := by
  cases h with
  | backtrack a hbroker htried hearlier hlater =>
    have hall := hp.earlier
    rw [hearlier] at hall
    obtain ⟨hcurrent, hrest⟩ := List.forall_mem_cons.1 hall
    exact ⟨hrest, .inr hcurrent, hlater ▸ List.forall_mem_cons.2 ⟨htried, hp.later⟩⟩
  | advance a hnext hearlier hlater =>
    have hall := hp.later
    rw [hlater] at hall
    obtain ⟨hcurrent, hrest⟩ := List.forall_mem_cons.1 hall
    exact ⟨hearlier ▸ List.forall_mem_cons.2 ⟨hnext.asked, hp.earlier⟩, .inl hcurrent, hrest⟩

/-- The plan after the current broker has been asked and has tried a resource. -/
theorem next_tryNextAssignment {p : AssignmentPlan σ ρ} (hp : p.Valid R cycle node request)
    {resource : ρ}
    (h : (p.isTestedAssignmentPossible R cycle node request).1 = some resource) :
    Next R cycle node request p
      ((p.isTestedAssignmentPossible R cycle node request).2.tryNextAssignment R cycle node request
        resource).current := by
  by_cases hzero : p.current.tried = 0
  · simp only [isTestedAssignmentPossible, hzero, if_true] at h
    obtain ⟨hlt, _⟩ := List.getElem?_eq_some_iff.1 h
    constructor
    · rfl
    · constructor
      · exact Nat.succ_pos _
      · simpa [tryNextAssignment, isTestedAssignmentPossible, hzero] using Nat.succ_le_of_lt hlt
      · exact ⟨p.resources, by simp [tryNextAssignment, isTestedAssignmentPossible, hzero]⟩
    · simp only [remaining, hzero, if_true, tryNextAssignment, isTestedAssignmentPossible,
        List.length_drop]
      omega
  · have hasked := hp.current.resolve_left hzero
    simp only [isTestedAssignmentPossible, hzero, if_false] at h
    obtain ⟨hlt, _⟩ := List.getElem?_eq_some_iff.1 h
    constructor
    · rfl
    · constructor
      · exact Nat.succ_pos _
      · simpa [tryNextAssignment, isTestedAssignmentPossible, hzero] using Nat.succ_le_of_lt hlt
      · obtain ⟨s, hs⟩ := hasked.offered
        exact ⟨s, by simpa [tryNextAssignment, isTestedAssignmentPossible, hzero] using hs⟩
    · simp only [remaining, hzero, if_false, tryNextAssignment, isTestedAssignmentPossible,
        List.length_drop]
      omega

/-- The plan after its current broker has been asked. -/
def asked (R : ResourceBrokers σ ν ρ β φ υ) (cycle : Int) (node : ν) (request : Request β φ υ)
    (p : AssignmentPlan σ ρ) : AssignmentPlan σ ρ :=
  (p.isTestedAssignmentPossible R cycle node request).2

section Rounds
variable {p : AssignmentPlan σ ρ} {fuel : Nat} {resource : ρ}

theorem rounds_fail (fuel : Nat)
    (hask : (p.isTestedAssignmentPossible R cycle node request).1 = none) (h : p.earlier = []) :
    p.search R cycle node request (fuel + 1) = some (p.asked R cycle node request, false) ∧
      p.test R cycle node request (fuel + 1) =
        some ((p.asked R cycle node request).resetAssignments R cycle node request, false) := by
  constructor
  · rw [search]
    simp only [hask]
    split
    · rfl
    · next previous rest h' => exact absurd (h.symm.trans h') (List.cons_ne_nil _ _).symm
  · rw [test]
    simp only [hask]
    split
    · rfl
    · next previous rest h' => exact absurd (h.symm.trans h') (List.cons_ne_nil _ _).symm

theorem rounds_backtrack (hask : (p.isTestedAssignmentPossible R cycle node request).1 = none)
    {previous : PendingAssignment ρ} {rest : List (PendingAssignment ρ)}
    (h : p.earlier = previous :: rest) :
    ∃ (q : AssignmentPlan σ ρ) (a : PendingAssignment ρ),
      (a.broker = p.current.broker ∧ a.tried = 0) ∧ p.earlier = q.current :: q.earlier ∧
      q.later = a :: p.later ∧ ∀ fuel,
        p.search R cycle node request (fuel + 1) = q.search R cycle node request fuel ∧
        p.test R cycle node request (fuel + 1) = q.test R cycle node request fuel := by
  refine ⟨(p.asked R cycle node request).backtrack R cycle node request previous rest h,
    { (p.asked R cycle node request).current with tried := 0 }, ⟨rfl, rfl⟩, h, rfl,
    fun fuel => ⟨?_, ?_⟩⟩
  · rw [search]
    simp only [hask]
    split
    · next h' => exact absurd (h.symm.trans h') (List.cons_ne_nil _ _)
    · next previous' rest' h' =>
      obtain ⟨rfl, rfl⟩ := List.cons.inj (h.symm.trans h')
      rfl
  · rw [test]
    simp only [hask]
    split
    · next h' => exact absurd (h.symm.trans h') (List.cons_ne_nil _ _)
    · next previous' rest' h' =>
      obtain ⟨rfl, rfl⟩ := List.cons.inj (h.symm.trans h')
      rfl

theorem rounds_succeed (fuel : Nat)
    (hask : (p.isTestedAssignmentPossible R cycle node request).1 = some resource)
    (h : p.later = []) :
    p.search R cycle node request (fuel + 1) =
        some ((p.asked R cycle node request).tryNextAssignment R cycle node request resource,
          true) ∧
      p.test R cycle node request (fuel + 1) =
        some ((p.asked R cycle node request).resetAssignments R cycle node request, true) := by
  constructor
  · rw [search]
    simp only [hask]
    split
    · rfl
    · next next rest h' => exact absurd (h.symm.trans h') (List.cons_ne_nil _ _).symm
  · rw [test]
    simp only [hask]
    split
    · rfl
    · next next rest h' => exact absurd (h.symm.trans h') (List.cons_ne_nil _ _).symm

theorem rounds_advance
    (hask : (p.isTestedAssignmentPossible R cycle node request).1 = some resource)
    (hp : p.Valid R cycle node request) {next : PendingAssignment ρ}
    {rest : List (PendingAssignment ρ)} (h : p.later = next :: rest) :
    ∃ (q : AssignmentPlan σ ρ) (a : PendingAssignment ρ), Next R cycle node request p a ∧
      q.earlier = a :: p.earlier ∧ p.later = q.current :: q.later ∧ ∀ fuel,
        p.search R cycle node request (fuel + 1) = q.search R cycle node request fuel ∧
        p.test R cycle node request (fuel + 1) = q.test R cycle node request fuel := by
  refine ⟨((p.asked R cycle node request).tryNextAssignment R cycle node request resource).advance
    next rest h, _, next_tryNextAssignment hp hask, rfl, h, fun fuel => ⟨?_, ?_⟩⟩
  · rw [search]
    simp only [hask]
    split
    · next h' => exact absurd (h.symm.trans h') (List.cons_ne_nil _ _)
    · next next' rest' h' =>
      obtain ⟨rfl, rfl⟩ := List.cons.inj (h.symm.trans h')
      rfl
  · rw [test]
    simp only [hask]
    split
    · next h' => exact absurd (h.symm.trans h') (List.cons_ne_nil _ _)
    · next next' rest' h' =>
      obtain ⟨rfl, rfl⟩ := List.cons.inj (h.symm.trans h')
      rfl

end Rounds

/-- Every broker that applies has tried a resource last that it offered. -/
structure Found (R : ResourceBrokers σ ν ρ β φ υ) (cycle : Int) (node : ν) (request : Request β φ υ)
    (p q : AssignmentPlan σ ρ) : Prop where
  brokers : q.brokers = p.brokers
  later : q.later = []
  asked : ∀ a ∈ q.current :: q.earlier, Asked R cycle node request a

/-- The loops of `canAssign` and of `assign` end with one answer. -/
def Ends (R : ResourceBrokers σ ν ρ β φ υ) (cycle : Int) (node : ν) (request : Request β φ υ)
    (p : AssignmentPlan σ ρ) : Prop :=
  ∃ fuel q s success, p.search R cycle node request fuel = some (q, success) ∧
    p.test R cycle node request fuel = some (s, success) ∧
    (success = true → Found R cycle node request p q)

theorem Ends.of_round {p q : AssignmentPlan σ ρ} (h : Round R cycle node request p q)
    (heq : ∀ fuel, p.search R cycle node request (fuel + 1) = q.search R cycle node request fuel ∧
      p.test R cycle node request (fuel + 1) = q.test R cycle node request fuel)
    (hq : q.Ends R cycle node request) : p.Ends R cycle node request := by
  obtain ⟨fuel, q', s, success, hsearch, htest, hfound⟩ := hq
  refine ⟨fuel + 1, q', s, success, (heq fuel).1.trans hsearch, (heq fuel).2.trans htest, ?_⟩
  intro hsuccess
  have hfound := hfound hsuccess
  exact ⟨hfound.brokers.trans h.brokers, hfound.later, hfound.asked⟩

theorem ends_of_none {p : AssignmentPlan σ ρ} (hp : p.Valid R cycle node request)
    (hask : (p.isTestedAssignmentPossible R cycle node request).1 = none)
    (hback : ∀ q : AssignmentPlan σ ρ, p.earlier = q.current :: q.earlier →
      q.Valid R cycle node request → q.later.length = p.later.length + 1 →
        q.Ends R cycle node request) : p.Ends R cycle node request := by
  cases hearlier : p.earlier with
  | nil =>
    obtain ⟨hsearch, htest⟩ := rounds_fail 0 hask hearlier
    exact ⟨1, _, _, false, hsearch, htest, fun h => absurd h Bool.false_ne_true⟩
  | cons previous rest =>
    obtain ⟨q, a, ha, hq, hlater, heq⟩ := rounds_backtrack hask hearlier
    have hround : Round R cycle node request p q := .backtrack a ha.1 ha.2 hq hlater
    apply Ends.of_round hround heq
    apply hback q hq (hround.valid hp)
    rw [hlater, List.length_cons]

/-- The plan goes on to the next broker until it has nothing left to try. -/
theorem ends_of_ends_next {n : Nat}
    (ih : ∀ p : AssignmentPlan σ ρ, p.later.length = n → p.Valid R cycle node request →
      (∀ q : AssignmentPlan σ ρ, p.earlier = q.current :: q.earlier →
        q.Valid R cycle node request → q.later.length = n + 1 → q.Ends R cycle node request) →
      p.Ends R cycle node request)
    (m : Nat) (p : AssignmentPlan σ ρ) (hm : (p.remaining R cycle node request).length < m)
    (hlater : p.later.length = n + 1) (hp : p.Valid R cycle node request)
    (hback : ∀ q : AssignmentPlan σ ρ, p.earlier = q.current :: q.earlier →
      q.Valid R cycle node request → q.later.length = n + 2 → q.Ends R cycle node request) :
    p.Ends R cycle node request := by
  induction m generalizing p with
  | zero => exact absurd hm (Nat.not_lt_zero _)
  | succ m ihm =>
    generalize hask : (p.isTestedAssignmentPossible R cycle node request).1 = next
    cases next with
    | none =>
      apply ends_of_none hp hask
      rwa [hlater]
    | some resource =>
      obtain ⟨next, rest, hrest⟩ := List.exists_cons_of_length_eq_add_one hlater
      obtain ⟨q, a, hnext, hearlier, hq, heq⟩ := rounds_advance hask hp hrest
      have hround : Round R cycle node request p q := .advance a hnext hearlier hq
      apply Ends.of_round hround heq
      rw [hq, List.length_cons, Nat.add_right_cancel_iff] at hlater
      apply ih q hlater (hround.valid hp)
      intro q' hq' hvalid hlength
      obtain ⟨rfl, hsame⟩ := List.cons.inj (hearlier.symm.trans hq')
      apply ihm q' ?_ hlength hvalid
      · rwa [← hsame]
      · have hremaining := hnext.remaining
        rw [remaining, if_neg hnext.asked.tried.ne']
        omega

/-- The induction is on the brokers that follow. If the loop ends wherever it goes back to, then it
ends. -/
theorem ends_of_backtrack (n : Nat) (p : AssignmentPlan σ ρ) (hlater : p.later.length = n)
    (hp : p.Valid R cycle node request)
    (hback : ∀ q : AssignmentPlan σ ρ, p.earlier = q.current :: q.earlier →
      q.Valid R cycle node request → q.later.length = n + 1 → q.Ends R cycle node request) :
    p.Ends R cycle node request := by
  induction n generalizing p with
  | zero =>
    generalize hask : (p.isTestedAssignmentPossible R cycle node request).1 = next
    cases next with
    | none =>
      apply ends_of_none hp hask
      rwa [hlater]
    | some resource =>
      have hnil := List.eq_nil_of_length_eq_zero hlater
      obtain ⟨hsearch, htest⟩ := rounds_succeed 0 hask hnil
      have hnext := next_tryNextAssignment hp hask
      refine ⟨1, _, _, true, hsearch, htest, fun _ => ?_⟩
      constructor
      · simp [brokers, tryNextAssignment, asked, isTestedAssignmentPossible]
      · exact hnil
      · exact List.forall_mem_cons.2 ⟨hnext.asked, hp.earlier⟩
  | succ n ih => exact ends_of_ends_next ih _ p (Nat.lt_succ_self _) hlater hp hback

theorem start_ends {s : σ} {broker : Broker} {rest : List Broker}
    (h : (broker :: rest).Sublist Scheduler.brokers) :
    (start (ρ := ρ) s broker rest h).Ends R cycle node request := by
  apply ends_of_backtrack _ _ rfl
  · constructor
    · exact fun a ha => absurd ha List.not_mem_nil
    · exact .inl rfl
    · intro a ha
      obtain ⟨_, _, rfl⟩ := List.mem_map.1 ha
      rfl
  · intro q hq
    cases hq

theorem Asked.workingAssignment {l : List (PendingAssignment ρ)}
    (h : ∀ a ∈ l, Asked R cycle node request a) :
    (l.filterMap fun a => a.availableResources[a.tried - 1]?.map
        fun resource => (a.broker, resource)).map Prod.fst = l.map PendingAssignment.broker ∧
      ∀ x ∈ l.filterMap fun a => a.availableResources[a.tried - 1]?.map
          fun resource => (a.broker, resource),
        ∃ s, x.2 ∈ R.allAvailableResources x.1 s cycle node request := by
  induction l with
  | nil => exact ⟨rfl, fun x hx => absurd hx List.not_mem_nil⟩
  | cons a l ih =>
    obtain ⟨ha, hl⟩ := List.forall_mem_cons.1 h
    obtain ⟨hmap, hmem⟩ := ih hl
    have hlt : a.tried - 1 < a.availableResources.length := by
      have hpos := ha.tried
      have hle := ha.tried_le
      omega
    have hget : a.availableResources[a.tried - 1]? = some a.availableResources[a.tried - 1] :=
      List.getElem?_eq_getElem hlt
    simp only [List.filterMap_cons, hget, Option.map_some, List.map_cons, hmap]
    refine ⟨trivial, List.forall_mem_cons.2 ⟨?_, hmem⟩⟩
    obtain ⟨s, hs⟩ := ha.offered
    exact ⟨s, hs ▸ List.getElem_mem hlt⟩

/-- Whatever the brokers answer, the loops of `canAssign` and of `assign` end, and they end with the
same answer. An assignment has a resource for each of the brokers that apply, which the broker has
offered. -/
theorem request_ends (R : ResourceBrokers σ ν ρ β φ υ) (cycle : Int) (node : ν)
    (request : Request β φ υ) (s : σ) :
    ∃ p fuel q s' success, setRequest R node request s = some p ∧
      p.search R cycle node request fuel = some (q, success) ∧
      p.test R cycle node request fuel = some (s', success) ∧
      (success = true →
        q.workingAssignment.map Prod.fst = R.applicableBrokers s node request.bus ∧
        ∀ a ∈ q.workingAssignment,
          ∃ t, a.2 ∈ R.allAvailableResources a.1 t cycle node request) := by
  obtain ⟨broker, rest, hsub, happ, hp⟩ := setRequest_eq R node request s
  have hends : (start s broker rest hsub : AssignmentPlan σ ρ).Ends R cycle node request :=
    start_ends hsub
  obtain ⟨fuel, q, s', success, hsearch, htest, hfound⟩ := hends
  refine ⟨_, fuel, q, s', success, hp, hsearch, htest, fun hsuccess => ?_⟩
  have hfound := hfound hsuccess
  have hall : ∀ a ∈ q.earlier.reverse ++ [q.current], Asked R cycle node request a := by
    intro a ha
    apply hfound.asked a
    simpa [or_comm] using ha
  obtain ⟨hmap, hmem⟩ := Asked.workingAssignment hall
  refine ⟨hmap.trans ?_, hmem⟩
  have hbrokers := hfound.brokers
  rw [brokers, hfound.later] at hbrokers
  rw [hbrokers, happ]
  simp [brokers, start, Function.comp_def]

end AssignmentPlan

variable {σ ν ρ β φ υ : Type} [DecidableEq ν] [DecidableEq ρ] [DecidableEq φ] [DecidableEq υ]

/-- Every call of `assign` returns or throws. -/
theorem DirectorState.assign_ends (R : ResourceBrokers σ ν ρ β φ υ) (s : DirectorState σ ν ρ β φ υ)
    (cycle : Int) (node : ν) (request : Request β φ υ) :
    ∃ fuel t e, s.assign R fuel cycle node request = some (t, e) := by
  by_cases hrefused : s.Refused cycle node
  · exact ⟨0, s, _, if_pos hrefused⟩
  · generalize hr : s.request R cycle node request = r
    obtain ⟨t, success⟩ := r
    cases success with
    | true => exact ⟨0, t, none, by simp only [assign, hrefused, if_false, hr]⟩
    | false =>
      obtain ⟨p, fuel, q, s', success, hp, hsearch, _, _⟩ :=
        AssignmentPlan.request_ends R cycle node request t.resources
      refine ⟨fuel, ?_⟩
      simp only [assign, hrefused, if_false, hr, hp, hsearch]
      cases success with
      | true => exact ⟨_, _, rfl⟩
      | false => exact ⟨_, _, rfl⟩

end Scheduler

end OpenAsip
