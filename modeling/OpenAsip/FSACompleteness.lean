import OpenAsip.ConflictAgreement

namespace OpenAsip
set_option autoImplicit true

namespace ConflictDetection
open Reservations

namespace FUFiniteStateAutomaton
variable {fu : FunctionUnit}

/-- The automatons that a simulation may have built before all states are asked for. -/
inductive LazilyBuilt : FUFiniteStateAutomaton fu → Prop where
  | create : create fu = .ok fsa → LazilyBuilt fsa
  | destination : LazilyBuilt fsa → fsa.destinationState source t = .ok (target, fsa') →
      LazilyBuilt fsa'

/-- The states to which transitions lead from the start state. -/
inductive Reachable (fsa : FUFiniteStateAutomaton fu) : Nat → Prop where
  | start : Reachable fsa 0
  | step : Reachable fsa source → fsa.transition (.state source) t = .ok (.state target) →
      Reachable fsa target

/-- A transition of a state is legal and leads to the matrix of the next cycle, or it is not. -/
def Follows (fsa : FUFiniteStateAutomaton fu) (m operation : fu.CollisionMatrix) (collides : Bool)
    (target : FSAStateIndex) : Prop :=
  if collides then target = .illegal
  else ∃ k m', target = .state k ∧ fsa.stateCollisionMatrices[k]? = some m' ∧
    m'.equals (m.shiftLeft.orWith operation) = true

/-- The states differ in their matrices, and all transitions of reachable states are resolved. -/
structure Complete (fsa : FUFiniteStateAutomaton fu) (matrices : List fu.CollisionMatrix) :
    Prop where
  start : ∃ m, fsa.stateCollisionMatrices[0]? = some m ∧
    m.equals (BitMatrix.create _ _ false) = true
  distinct : fsa.stateCollisionMatrices.Pairwise fun m m' => m.equals m' = false
  transitions : ∀ source, fsa.Reachable source → ∃ m, fsa.stateCollisionMatrices[source]? = some m ∧
    ∀ t, t ≤ fu.operationCount → ∃ operation collides target,
      vectorAt matrices t = .ok operation ∧ isIllegal m t = .ok collides ∧
      fsa.transition (.state source) t = .ok target ∧ fsa.Follows m operation collides target

/-- All states are built in a bounded number of rounds, from whatever has been built before and in
whatever order the hash set gives the unfinished states. -/
def StateMachineBuilt (fu : FunctionUnit) : Prop :=
  (∃ fsa, create fu = .ok fsa) ∧ ∃ matrices, collisionMatrices fu = .ok matrices ∧
    ∃ bound, ∀ fsa : FUFiniteStateAutomaton fu, LazilyBuilt fsa → ∀ order, ∀ rounds ≥ bound,
      ∃ fsa', fsa.buildStateMachine order rounds = .ok (some fsa') ∧ fsa'.Complete matrices

variable {fsa fsa' : FUFiniteStateAutomaton fu} {target : FSAStateIndex} {t : Nat}

theorem transition_state {source : FSAStateIndex} (h : fsa.transition source t = .ok target) :
    ∃ k row, source = .state k ∧ fsa.transitions[k]? = some row ∧ row[t]? = some target := by
  cases source with
  | illegal => cases h
  | unknown => cases h
  | state k =>
    simp only [FUFiniteStateAutomaton.transition] at h
    cases hrow : fsa.transitions[k]? with
    | none =>
      rw [hrow] at h
      cases h
    | some row =>
      simp only [hrow] at h
      cases htarget : row[t]? with
      | none =>
        rw [htarget] at h
        cases h
      | some x =>
        rw [htarget] at h
        cases h
        exact ⟨k, row, rfl, hrow, htarget⟩

theorem Valid.destinationState {source : FSAStateIndex} (h : fsa.Valid) (hfits : fu.Fits)
    (he : fsa.destinationState source t = .ok (target, fsa')) : fsa'.Valid := by
  obtain ⟨x, hx, he⟩ := Except.bind_ok he
  split at he
  · obtain ⟨k, row, rfl, hrow, hentry⟩ := transition_state hx
    obtain ⟨hk, -⟩ := List.getElem?_eq_some_iff.1 hrow
    obtain ⟨ht, -⟩ := List.getElem?_eq_some_iff.1 hentry
    rw [h.rows row (List.mem_of_getElem? hrow)] at ht
    rw [h.length] at hk
    obtain ⟨target', fsa'', he', hvalid, -, -⟩ :=
      h.resolveState hfits (List.getElem?_eq_getElem hk) (Nat.le_of_lt_succ ht)
    rw [he'] at he
    cases he
    exact hvalid
  · cases he
    exact h

theorem LazilyBuilt.valid (hfits : fu.Fits) (h : LazilyBuilt fsa) : fsa.Valid := by
  induction h with
  | create he =>
    obtain ⟨fsa', he', hvalid⟩ := create_valid hfits
    rw [he'] at he
    cases he
    exact hvalid
  | destination _ he ih => exact ih.destinationState hfits he

/-- The start state is among the closed states, and no transition leaves them. -/
theorem Closed.reachable (h : fsa.Closed states) (hvalid : fsa.Valid) (hstart : 0 ∈ states)
    (hs : fsa.Reachable source) : source ∈ states := by
  induction hs with
  | start => exact hstart
  | @step source t target _ ht ih =>
    obtain ⟨k, row, hk, hrow, hentry⟩ := transition_state ht
    cases hk
    obtain ⟨hlt, -⟩ := List.getElem?_eq_some_iff.1 hentry
    rw [hvalid.rows row (List.mem_of_getElem? hrow)] at hlt
    obtain ⟨x, hx, rfl | ⟨k, rfl, hmem⟩⟩ := h.leads source ih t hlt
    · rw [hx] at ht
      cases ht
    · rw [hx] at ht
      cases ht
      exact hmem

/-- The transition says the same in the matrices of the operations. -/
theorem Correct.follows {m operation : fu.CollisionMatrix}
    (h : fsa.Correct source t target) (hm : fsa.stateCollisionMatrices[source]? = some m)
    (hop : ∀ (j : Fin fu.operationCount) (distance : Nat), operation.bit j distance = true ↔
      ∃ i : Fin fu.operationCount, t = i ∧ Collides (UsesRow fu) i j distance)
    (hc : collides = true ↔ ∃ i : Fin fu.operationCount, t = i ∧ m.bit i 1 = true) :
    fsa.Follows m operation collides target := by
  cases target with
  | unknown => exact h.elim
  | illegal =>
    obtain ⟨m', hm', hi⟩ := h
    rw [hm] at hm'
    cases hm'
    rw [Follows, if_pos (hc.2 hi)]
  | state k =>
    obtain ⟨m₁, m', hm₁, hm', hlegal, hbits⟩ := h
    rw [hm] at hm₁
    cases hm₁
    have hfree : ¬ collides = true := by
      intro ht
      obtain ⟨i, hi, hbit⟩ := hc.1 ht
      rw [hlegal i hi] at hbit
      cases hbit
    rw [Follows, if_neg hfree]
    refine ⟨k, m', rfl, hm', (BitMatrix.equals_iff _ _).2 fun j hj distance _ => ?_⟩
    rw [BitMatrix.bit_orWith _ _ hj, BitMatrix.bit_shiftLeft _ hj, Bool.eq_iff_iff, Bool.or_eq_true,
      hop ⟨j, hj⟩ distance]
    exact hbits ⟨j, hj⟩ distance

theorem Closed.complete (hfits : fu.Fits) (h : fsa.Closed states) (hvalid : fsa.Valid)
    (hstart : 0 ∈ states) (hmatrices : collisionMatrices fu = .ok matrices) :
    fsa.Complete matrices := by
  obtain ⟨matrices', he, hoperations, hnop⟩ := collisionMatrices_ok hfits.columns
  rw [hmatrices] at he
  cases he
  refine ⟨⟨_, hvalid.start, (BitMatrix.equals_iff _ _).2 fun _ _ _ _ => rfl⟩, hvalid.distinct,
    fun source hs => ?_⟩
  have hmem := h.reachable hvalid hstart hs
  have hm := List.getElem?_eq_getElem (h.lt source hmem)
  refine ⟨_, hm, fun t ht => ?_⟩
  obtain ⟨operation, hoperation, hbits⟩ := exists_operation hoperations hnop ht
  obtain ⟨collides, hcollides, hiff⟩ := isIllegal_ok hfits _ ht
  obtain ⟨target, htarget, hleads⟩ := h.leads source hmem t (Nat.lt_succ_of_le ht)
  have hknown : target ≠ .unknown := by
    rintro rfl
    obtain hf | ⟨k, hf, -⟩ := hleads
    · cases hf
    · cases hf
  have hcorrect := hvalid.correct source t target htarget hknown
  exact ⟨operation, collides, target, hoperation, hcollides, htarget,
    hcorrect.follows hm hbits hiff⟩

/-- Without a column the first test of a collision reads a word that does not exist. -/
theorem StateMachineBuilt.fits {fu : FunctionUnit} (h : StateMachineBuilt fu) : fu.Fits := by
  obtain ⟨⟨fsa, hfsa⟩, matrices, hmatrices, bound, hbuilt⟩ := h
  rcases Nat.eq_zero_or_pos fu.operationCount with hzero | hpos
  · exact FunctionUnit.Fits.of_no_operations hzero
  · refine ⟨fun _ => Nat.pos_of_ne_zero fun hlatency => ?_,
      collisionMatrices_columns hpos hmatrices⟩
    obtain ⟨fsa', -, hcomplete⟩ := hbuilt fsa (.create hfsa) (fun _ => 0) bound (Nat.le_refl _)
    obtain ⟨m, -, htransitions⟩ := hcomplete.transitions 0 .start
    obtain ⟨-, collides, -, -, hcollides, -⟩ := htransitions 0 (Nat.zero_le _)
    rw [isIllegal, if_neg (Nat.ne_of_lt hpos), FunctionUnit.bitAt_undefined hlatency] at hcollides
    cases hcollides

theorem StateMachineBuilt.of_fits {fu : FunctionUnit} (hfits : fu.Fits) :
    StateMachineBuilt fu := by
  obtain ⟨fsa, hfsa, -⟩ := create_valid hfits
  obtain ⟨matrices, hmatrices, -⟩ := collisionMatrices_ok hfits.columns
  refine ⟨⟨fsa, hfsa⟩, matrices, hmatrices, stateBound fu, fun fsa hlazy order rounds hrounds => ?_⟩
  obtain ⟨fsa', states, he, hvalid, -, hclosed, hstart⟩ :=
    (hlazy.valid hfits).buildStateMachine hfits order hrounds
  exact ⟨fsa', he, hclosed.complete hfits hvalid hstart hmatrices⟩

/-- The state machine is built exactly for the units whose pipelines are not all empty and whose
columns all have a bit. -/
theorem stateMachineBuilt_iff (fu : FunctionUnit) : StateMachineBuilt fu ↔ fu.Fits :=
  ⟨StateMachineBuilt.fits, StateMachineBuilt.of_fits⟩

theorem emptyPipeline_not_built :
    (∃ fsa, create emptyPipeline = .ok fsa ∧
      fsa.buildStateMachine (fun _ => 0) 1 = .error .undefined) ∧
    ¬ StateMachineBuilt emptyPipeline := by
  refine ⟨⟨_, rfl, rfl⟩, fun h => ?_⟩
  exact absurd (h.fits.pos (by decide)) (by decide)

end FUFiniteStateAutomaton
end ConflictDetection
end OpenAsip
