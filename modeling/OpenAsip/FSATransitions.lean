import OpenAsip.FSAStates

namespace OpenAsip
set_option autoImplicit true

namespace ConflictDetection
open Reservations

namespace FUFiniteStateAutomaton
variable {fu : FunctionUnit} {fsa fsa' : FUFiniteStateAutomaton fu} {m : fu.CollisionMatrix}
variable {source t k : Nat} {target : FSAStateIndex}

/-- The matrices of the operations, and the empty one for the transition of no operation. -/
theorem exists_operation {matrices : List fu.CollisionMatrix}
    (hoperations : ∀ i : Fin fu.operationCount, ∃ m, vectorAt matrices i = .ok m ∧
      ∀ (j : Fin fu.operationCount) (distance : Nat),
        m.bit j distance = true ↔ Collides (UsesRow fu) i j distance)
    (hnop : vectorAt matrices fu.operationCount = .ok (BitMatrix.create _ _ false))
    (ht : t ≤ fu.operationCount) :
    ∃ m, vectorAt matrices t = .ok m ∧
      ∀ (j : Fin fu.operationCount) (distance : Nat), m.bit j distance = true ↔
        ∃ i : Fin fu.operationCount, t = i ∧ Collides (UsesRow fu) i j distance := by
  obtain hlt | heq := Nat.lt_or_eq_of_le ht
  · obtain ⟨m, hm, hbits⟩ := hoperations ⟨t, hlt⟩
    refine ⟨m, hm, fun j distance => (hbits j distance).trans ?_⟩
    constructor
    · intro hc
      exact ⟨⟨t, hlt⟩, rfl, hc⟩
    · rintro ⟨i, hi, hc⟩
      obtain rfl : i = ⟨t, hlt⟩ := Fin.ext hi.symm
      exact hc
  · refine ⟨BitMatrix.create _ _ false, by rw [heq]; exact hnop, fun j distance => ?_⟩
    rw [BitMatrix.bit_create_false j.2]
    refine ⟨nofun, ?_⟩
    rintro ⟨i, hi, -⟩
    exact absurd (heq.symm.trans hi) (Nat.ne_of_gt i.2)

theorem findState_some (h : fsa.findState m = some k) :
    ∃ m', fsa.stateCollisionMatrices[k]? = some m' ∧ m'.equals m = true := by
  obtain ⟨hk, he, -⟩ := List.findIdx?_eq_some_iff_getElem.1 h
  exact ⟨_, List.getElem?_eq_getElem hk, he⟩

/-- Bounded matrices that are equal in the columns have the same bits. -/
theorem bit_eq_of_equals {m m' : fu.CollisionMatrix} (he : m.equals m' = true)
    (hm : ∀ (j : Fin fu.operationCount) (distance : Nat),
      m.bit j distance = true → distance < fu.maxLatency)
    (hm' : ∀ (j : Fin fu.operationCount) (distance : Nat),
      m'.bit j distance = true → distance < fu.maxLatency)
    (j : Fin fu.operationCount) (distance : Nat) : m.bit j distance = m'.bit j distance := by
  by_cases hd : distance < fu.maxLatency
  · exact (BitMatrix.equals_iff m m').1 he j j.2 distance hd
  · rw [Bool.eq_false_iff.2 (mt (hm j distance) hd), Bool.eq_false_iff.2 (mt (hm' j distance) hd)]

/-- The test of column 1. Only the row of an operation is read. -/
theorem isIllegal_ok (hfits : fu.Fits) (m : fu.CollisionMatrix) (ht : t ≤ fu.operationCount) :
    ∃ b, isIllegal m t = .ok b ∧
      (b = true ↔ ∃ i : Fin fu.operationCount, t = i ∧ m.bit i 1 = true) := by
  by_cases hnop : t = fu.operationCount
  · refine ⟨false, if_pos hnop, nofun, ?_⟩
    rintro ⟨i, hi, -⟩
    exact absurd (hnop.symm.trans hi) (Nat.ne_of_gt i.2)
  · have hlt : t < fu.operationCount := Nat.lt_of_le_of_ne ht hnop
    have hpos := hfits.words_pos ⟨t, hlt⟩
    refine ⟨m.bit t 1, ?_, fun hb => ⟨⟨t, hlt⟩, rfl, hb⟩, ?_⟩
    · rw [isIllegal, if_neg hnop, BitMatrix.bitAt_ok m hlt (by omega)]
    · rintro ⟨i, rfl, hb⟩
      exact hb

theorem Valid.resolveState (h : fsa.Valid) (hfits : fu.Fits)
    (hm : fsa.stateCollisionMatrices[source]? = some m) (ht : t ≤ fu.operationCount) :
    ∃ target fsa', fsa.resolveState (.state source) t = .ok (target, fsa') ∧ fsa'.Valid ∧
      fsa'.Extends fsa ∧ fsa'.Correct source t target := by
  obtain ⟨op, hop, hopbits⟩ := exists_operation h.operations h.nop ht
  obtain ⟨b, hb, hcollision⟩ := isIllegal_ok hfits m ht
  have hbits : ∀ (j : Fin fu.operationCount) (distance : Nat),
      (m.shiftLeft.orWith op).bit j distance = true ↔ m.bit j (distance + 1) = true ∨
        ∃ i : Fin fu.operationCount, t = i ∧ Collides (UsesRow fu) i j distance := by
    intro j distance
    rw [BitMatrix.bit_orWith _ _ j.2, Bool.or_eq_true, BitMatrix.bit_shiftLeft _ j.2,
      hopbits j distance]
  have hbounded : ∀ (j : Fin fu.operationCount) (distance : Nat),
      (m.shiftLeft.orWith op).bit j distance = true → distance < fu.maxLatency := by
    intro j distance hbit
    obtain hold | ⟨i, -, hc⟩ := (hbits j distance).1 hbit
    · exact Nat.lt_of_succ_lt (h.bounded m (List.mem_of_getElem? hm) j (distance + 1) hold)
    · exact collides_lt hc
  rw [FUFiniteStateAutomaton.resolveState, hop]
  dsimp only [bind, Except.bind]
  rw [hm]
  dsimp only
  rw [hb]
  dsimp only
  cases b with
  | true =>
    have hc : fsa.Correct source t .illegal := ⟨m, hm, hcollision.1 rfl⟩
    exact ⟨_, _, rfl, h.setTransition hc, Extends.refl fsa, hc⟩
  | false =>
    have hlegal : ∀ i : Fin fu.operationCount, t = i → m.bit i 1 = false := by
      intro i hi
      refine Bool.eq_false_iff.2 fun hbit => ?_
      cases hcollision.2 ⟨i, hi, hbit⟩
    rw [if_neg Bool.false_ne_true]
    cases hfind : fsa.findState (m.shiftLeft.orWith op) with
    | some k =>
      obtain ⟨m', hm', he⟩ := findState_some hfind
      have hsame := bit_eq_of_equals he (h.bounded m' (List.mem_of_getElem? hm')) hbounded
      have hc : fsa.Correct source t (.state k) :=
        ⟨m, m', hm, hm', hlegal, fun j distance => by rw [hsame, hbits]⟩
      exact ⟨_, _, rfl, h.setTransition hc, Extends.refl fsa, hc⟩
    | none =>
      have hext := addState_extends fsa (m.shiftLeft.orWith op)
      have hnew : (fsa.addState (m.shiftLeft.orWith op)).stateCollisionMatrices[
          fsa.stateCollisionMatrices.length]? = some (m.shiftLeft.orWith op) := by
        rw [FUFiniteStateAutomaton.addState, List.getElem?_concat_length]
      have hc : (fsa.addState (m.shiftLeft.orWith op)).Correct source t
          (.state fsa.stateCollisionMatrices.length) :=
        ⟨m, _, hext.get hm, hnew, hlegal, hbits⟩
      exact ⟨_, _, rfl, (h.addState hbounded hfind).setTransition hc, hext, hc⟩

theorem transition_addState_ok {source' : FSAStateIndex} (m : fu.CollisionMatrix)
    (h : fsa.transition source' t = .ok target) :
    (fsa.addState m).transition source' t = .ok target := by
  cases source' with
  | illegal => cases h
  | unknown => cases h
  | state k =>
    simp only [FUFiniteStateAutomaton.transition, addState] at h ⊢
    cases hrow : fsa.transitions[k]? with
    | none =>
      rw [hrow] at h
      cases h
    | some row =>
      obtain ⟨hk, -⟩ := List.getElem?_eq_some_iff.1 hrow
      rw [List.getElem?_append_left hk, hrow]
      rwa [hrow] at h

theorem transition_setTransition_self {old : FSAStateIndex}
    (h : fsa.transition (.state source) t = .ok old) :
    (fsa.setTransition source target t).transition (.state source) t = .ok target := by
  simp only [FUFiniteStateAutomaton.transition, setTransition, List.getElem?_modify] at h ⊢
  cases hrow : fsa.transitions[source]? with
  | none =>
    rw [hrow] at h
    cases h
  | some row =>
    simp only [hrow] at h
    cases hold : row[t]? with
    | none =>
      rw [hold] at h
      cases h
    | some old' =>
      obtain ⟨ht, -⟩ := List.getElem?_eq_some_iff.1 hold
      simp only [if_true, Option.map_eq_map, Option.map_some, List.getElem?_set_self ht]

theorem transition_setTransition_ne {u : Nat} {target' : FSAStateIndex}
    (hne : ¬ (k = source ∧ u = t)) :
    (fsa.setTransition source target' t).transition (.state k) u =
      fsa.transition (.state k) u := by
  simp only [FUFiniteStateAutomaton.transition, setTransition, List.getElem?_modify]
  cases hrow : fsa.transitions[k]? with
  | none => rfl
  | some row =>
    by_cases hk : source = k
    · have hu : t ≠ u := fun hu => hne ⟨hk.symm, hu.symm⟩
      simp only [if_pos hk, Option.map_eq_map, Option.map_some, List.getElem?_set_ne hu]
    · simp only [if_neg hk, Option.map_eq_map, Option.map_some]

/-- A resolved transition is one entry of the table, at most after one more state. -/
theorem resolveState_eq (h : fsa.resolveState (.state source) t = .ok (target, fsa')) :
    ∃ old, (old = fsa ∨ ∃ m, old = fsa.addState m) ∧ fsa' = old.setTransition source target t := by
  obtain ⟨op, -, h⟩ := Except.bind_ok h
  dsimp only at h
  split at h
  · obtain ⟨illegal, -, h⟩ := Except.bind_ok h
    split at h
    · cases h
      exact ⟨fsa, .inl rfl, rfl⟩
    · split at h
      · cases h
        exact ⟨fsa, .inl rfl, rfl⟩
      · cases h
        exact ⟨_, .inr ⟨_, rfl⟩, rfl⟩
  · cases h

theorem resolveState_self {old : FSAStateIndex}
    (h : fsa.resolveState (.state source) t = .ok (target, fsa'))
    (hold : fsa.transition (.state source) t = .ok old) :
    fsa'.transition (.state source) t = .ok target := by
  obtain ⟨fsa'', hfsa | ⟨m, hfsa⟩, rfl⟩ := resolveState_eq h
  · subst hfsa
    exact transition_setTransition_self hold
  · subst hfsa
    exact transition_setTransition_self (transition_addState_ok m hold)

theorem resolveState_ne {u : Nat} {target' : FSAStateIndex}
    (h : fsa.resolveState (.state source) t = .ok (target, fsa')) (hne : ¬ (k = source ∧ u = t))
    (hold : fsa.transition (.state k) u = .ok target') :
    fsa'.transition (.state k) u = .ok target' := by
  obtain ⟨fsa'', hfsa | ⟨m, hfsa⟩, rfl⟩ := resolveState_eq h
  · subst hfsa
    rwa [transition_setTransition_ne hne]
  · subst hfsa
    rw [transition_setTransition_ne hne]
    exact transition_addState_ok m hold

theorem create_valid (hfits : fu.Fits) :
    ∃ fsa : FUFiniteStateAutomaton fu, create fu = .ok fsa ∧ fsa.Valid := by
  obtain ⟨matrices, he, hmatrices, hnop⟩ := collisionMatrices_ok hfits.columns
  refine ⟨addState ⟨matrices, [], []⟩ (BitMatrix.create _ _ false), ?_, hmatrices, hnop, rfl,
    fun m hm j distance hbit => ?_, List.pairwise_singleton _ _, rfl, fun row hrow => ?_,
    fun k u target ht hne => ?_⟩
  · rw [create, he]
    dsimp only [bind, Except.bind]
    rw [hnop]
  · obtain rfl := List.mem_singleton.1 hm
    rw [BitMatrix.bit_create_false j.2] at hbit
    cases hbit
  · obtain rfl := List.mem_singleton.1 hrow
    exact List.length_replicate
  · have hold := transition_addState ht hne
    rw [FUFiniteStateAutomaton.transition] at hold
    cases hold

end FUFiniteStateAutomaton

namespace FSADetector
variable {fu : FunctionUnit} {d : FSADetector fu} {m : fu.CollisionMatrix}

/-- A known transition is correct, and an unknown one becomes so. -/
theorem transitionLazy_ok (hfits : fu.Fits) (h : d.fsa.Valid) (hcurrent : d.currentState = .state k)
    (hm : d.fsa.stateCollisionMatrices[k]? = some m) (ht : t ≤ fu.operationCount) :
    ∃ target fsa, d.transitionLazy t = .ok (target, fsa) ∧ fsa.Valid ∧ fsa.Extends d.fsa ∧
      fsa.Correct k t target := by
  obtain ⟨hk, -⟩ := List.getElem?_eq_some_iff.1 hm
  obtain ⟨target, htarget⟩ := h.transition_ok hk ht
  rw [transitionLazy, hcurrent, htarget]
  dsimp only [bind, Except.bind]
  by_cases hunknown : target = .unknown
  · rw [if_pos hunknown]
    exact h.resolveState hfits hm ht
  · rw [if_neg hunknown]
    exact ⟨target, d.fsa, rfl, h, FUFiniteStateAutomaton.Extends.refl d.fsa,
      h.correct k t target htarget hunknown⟩

/-- The next state is the matrix after all operations issued so far. -/
structure Issued (d : FSADetector fu) (h : List (Fin fu.operationCount × Nat)) : Prop where
  valid : d.fsa.Valid
  next : ∃ k m, d.nextState = .state k ∧ d.fsa.stateCollisionMatrices[k]? = some m ∧
    ∀ (j : Fin fu.operationCount) (distance : Nat),
      m.bit j distance = true ↔ Blocked (UsesRow fu) h j distance

/-- The current state is the matrix of the cycle before. -/
structure Ready (d : FSADetector fu) (h : List (Fin fu.operationCount × Nat)) : Prop
    extends d.Issued h where
  current : ∃ k m, d.currentState = .state k ∧ d.fsa.stateCollisionMatrices[k]? = some m ∧
    ∀ (j : Fin fu.operationCount) (distance : Nat),
      m.bit j (distance + 1) = true ↔ Blocked (UsesRow fu) h j distance

theorem Ready.accept (hfits : fu.Fits) (h : d.Ready hist)
    (hb : ¬ Blocked (UsesRow fu) hist i 0) :
    ∃ d', d.issueOperationLazyInline i = .ok (true, d') ∧ d'.Issued ((i, 0) :: hist) := by
  obtain ⟨k, m, hcurrent, hm, hbits⟩ := h.current
  obtain ⟨target, fsa, he, hvalid, hext, hcorrect⟩ :=
    transitionLazy_ok hfits h.valid hcurrent hm (Nat.le_of_lt i.2)
  rw [issueOperationLazyInline, he]
  dsimp only [bind, Except.bind]
  cases target with
  | illegal =>
    exfalso
    obtain ⟨m', hm', i', hi, hbit⟩ := hcorrect
    rw [hext.get hm] at hm'
    cases hm'
    obtain rfl : i' = i := Fin.ext hi.symm
    exact hb ((hbits i' 0).1 hbit)
  | unknown => exact hcorrect.elim
  | state target =>
    obtain ⟨m₁, m', hm₁, hm', -, hbits'⟩ := hcorrect
    rw [hext.get hm] at hm₁
    cases hm₁
    rw [if_neg nofun]
    refine ⟨_, rfl, hvalid, target, m', rfl, hm', fun j distance => ?_⟩
    rw [hbits' j distance, hbits j distance, blocked_cons, or_comm]
    refine or_congr_left ⟨?_, fun hc => ⟨i, rfl, hc⟩⟩
    rintro ⟨i', hi, hc⟩
    obtain rfl : i' = i := Fin.ext hi.symm
    exact hc

theorem Ready.reject (hfits : fu.Fits) (h : d.Ready hist) (hb : Blocked (UsesRow fu) hist i 0) :
    ∃ d', d.issueOperationLazyInline i = .ok (false, d') := by
  obtain ⟨k, m, hcurrent, hm, hbits⟩ := h.current
  obtain ⟨target, fsa, he, -, hext, hcorrect⟩ :=
    transitionLazy_ok hfits h.valid hcurrent hm (Nat.le_of_lt i.2)
  rw [issueOperationLazyInline, he]
  dsimp only [bind, Except.bind]
  cases target with
  | illegal =>
    rw [if_pos rfl]
    exact ⟨_, rfl⟩
  | unknown => exact hcorrect.elim
  | state target =>
    exfalso
    obtain ⟨m₁, m', hm₁, -, hlegal, -⟩ := hcorrect
    rw [hext.get hm] at hm₁
    cases hm₁
    have hbit := (hbits i 0).2 hb
    rw [hlegal i rfl] at hbit
    cases hbit

theorem Issued.advance (hfits : fu.Fits) (h : d.Issued hist) :
    ∃ d', d.advanceCycleLazyInline = .ok d' ∧ d'.Ready (aged hist) := by
  obtain ⟨k, m, hnext, hm, hbits⟩ := h.next
  obtain ⟨target, fsa, he, hvalid, hext, hcorrect⟩ :=
    transitionLazy_ok (d := { d with currentState := d.nextState }) hfits h.valid hnext hm
      (Nat.le_refl fu.operationCount)
  rw [advanceCycleLazyInline]
  dsimp only
  rw [he]
  cases target with
  | illegal =>
    obtain ⟨-, -, i, hi, -⟩ := hcorrect
    exact absurd hi (Nat.ne_of_gt i.2)
  | unknown => exact hcorrect.elim
  | state target =>
    obtain ⟨m₁, m', hm₁, hm', -, hbits'⟩ := hcorrect
    rw [hext.get hm] at hm₁
    cases hm₁
    refine ⟨_, rfl, ⟨hvalid, target, m', rfl, hm', fun j distance => ?_⟩, k, m, hnext,
      hext.get hm, fun j distance => ?_⟩
    · rw [hbits' j distance, hbits j (distance + 1), blocked_aged, or_iff_left]
      rintro ⟨i, hi, -⟩
      exact absurd hi (Nat.ne_of_gt i.2)
    · rw [hbits j (distance + 1), blocked_aged]

/-- An idle detector has nothing blocked, now or in the next cycle. -/
theorem Issued.skip (h : d.Issued hist) (hidle : d.isIdle = true) : d.Ready (aged hist) := by
  obtain ⟨hcurrent, hsame⟩ := of_decide_eq_true hidle
  rw [FUFiniteStateAutomaton.startState] at hcurrent
  obtain ⟨k, m, hnext, hm, hbits⟩ := h.next
  have hk : FSAStateIndex.state k = .state 0 := by rw [← hnext, ← hsame, hcurrent]
  cases hk
  have hzero := h.valid.start
  rw [hm] at hzero
  cases hzero
  have hfree : ∀ (j : Fin fu.operationCount) (distance : Nat),
      ¬ Blocked (UsesRow fu) hist j distance := by
    intro j distance hb
    have hbit := (hbits j distance).2 hb
    rw [BitMatrix.bit_create_false j.2] at hbit
    cases hbit
  refine ⟨⟨h.valid, 0, _, hnext, hm, fun j distance => ?_⟩, 0, _, hcurrent, hm,
    fun j distance => ?_⟩
  · rw [BitMatrix.bit_create_false j.2, blocked_aged]
    exact ⟨nofun, fun hb => absurd hb (hfree j (distance + 1))⟩
  · rw [BitMatrix.bit_create_false j.2, blocked_aged]
    exact ⟨nofun, fun hb => absurd hb (hfree j (distance + 1))⟩

theorem simulates (hfits : fu.Fits) (skipIdle : Bool) :
    Simulates (detector fu skipIdle) (UsesRow fu) Ready Issued where
  accept _ _ _ h hb := h.accept hfits hb
  reject _ _ _ h hb := h.reject hfits hb
  idle _ _ h := h.toIssued
  advance d hist h := by
    by_cases hidle : (skipIdle && d.isIdle) = true
    · refine ⟨d, if_pos hidle, h.skip ?_⟩
      rw [Bool.and_eq_true] at hidle
      exact hidle.2
    · obtain ⟨d', he, hd'⟩ := h.advance hfits
      exact ⟨d', (if_neg hidle).trans he, hd'⟩

theorem create_ready (hfits : fu.Fits) : ∃ d, create fu = .ok d ∧ d.Ready [] := by
  obtain ⟨fsa, hfsa, hvalid⟩ := FUFiniteStateAutomaton.create_valid hfits
  obtain ⟨target, fsa', he, hvalid', hext, hcorrect⟩ :=
    transitionLazy_ok (d := ⟨fsa, .state 0, .unknown⟩) hfits hvalid rfl hvalid.start
      (Nat.le_refl fu.operationCount)
  rw [create, hfsa]
  dsimp only [bind, Except.bind]
  rw [issueOperationLazyInline, FUFiniteStateAutomaton.startState, he]
  dsimp only [bind, Except.bind]
  cases target with
  | illegal =>
    obtain ⟨-, -, i, hi, -⟩ := hcorrect
    exact absurd hi (Nat.ne_of_gt i.2)
  | unknown => exact hcorrect.elim
  | state target =>
    obtain ⟨m₁, m', hm₁, hm', -, hbits'⟩ := hcorrect
    rw [hext.get hvalid.start] at hm₁
    cases hm₁
    rw [if_neg nofun]
    refine ⟨_, rfl, ⟨hvalid', target, m', rfl, hm', fun j distance => ?_⟩, 0, _, rfl,
      hext.get hvalid.start, fun j distance => ?_⟩
    · rw [hbits' j distance, BitMatrix.bit_create_false j.2]
      refine ⟨?_, fun hb => absurd hb blocked_nil⟩
      rintro (hf | ⟨i, hi, -⟩)
      · cases hf
      · exact absurd hi (Nat.ne_of_gt i.2)
    · rw [BitMatrix.bit_create_false j.2]
      exact ⟨nofun, fun hb => absurd hb blocked_nil⟩

end FSADetector
end ConflictDetection
end OpenAsip
