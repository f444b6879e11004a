import OpenAsip.ConflictSimulations
import OpenAsip.FUFiniteStateAutomaton

namespace OpenAsip
set_option autoImplicit true

namespace ConflictDetection
open Reservations

namespace FUFiniteStateAutomaton
variable {fu : FunctionUnit} {fsa fsa' : FUFiniteStateAutomaton fu} {m : fu.CollisionMatrix}
variable {source t k : Nat} {target : FSAStateIndex}

/-- What a transition says about the matrices: a legal one leads to the matrix of the next cycle,
and an illegal one belongs to an operation that is blocked then. -/
def Correct (fsa : FUFiniteStateAutomaton fu) (source transition : Nat) : FSAStateIndex → Prop
  | .state target => ∃ m m', fsa.stateCollisionMatrices[source]? = some m ∧
      fsa.stateCollisionMatrices[target]? = some m' ∧
      (∀ i : Fin fu.operationCount, transition = i → m.bit i 1 = false) ∧
      ∀ (j : Fin fu.operationCount) (distance : Nat), m'.bit j distance = true ↔
        m.bit j (distance + 1) = true ∨
          ∃ i : Fin fu.operationCount, transition = i ∧ Collides (UsesRow fu) i j distance
  | .illegal => ∃ m, fsa.stateCollisionMatrices[source]? = some m ∧
      ∃ i : Fin fu.operationCount, transition = i ∧ m.bit i 1 = true
  | .unknown => False

/-- The states differ in their matrices, and the known transitions are correct. -/
structure Valid (fsa : FUFiniteStateAutomaton fu) : Prop where
  operations : ∀ i : Fin fu.operationCount, ∃ m, vectorAt fsa.operationCollisionMatrices i = .ok m ∧
    ∀ (j : Fin fu.operationCount) (distance : Nat),
      m.bit j distance = true ↔ Collides (UsesRow fu) i j distance
  nop : vectorAt fsa.operationCollisionMatrices fu.operationCount = .ok (BitMatrix.create _ _ false)
  start : fsa.stateCollisionMatrices[0]? = some (BitMatrix.create _ _ false)
  bounded : ∀ m ∈ fsa.stateCollisionMatrices, ∀ (j : Fin fu.operationCount) (distance : Nat),
    m.bit j distance = true → distance < fu.maxLatency
  distinct : fsa.stateCollisionMatrices.Pairwise fun m m' => m.equals m' = false
  length : fsa.transitions.length = fsa.stateCollisionMatrices.length
  rows : ∀ row ∈ fsa.transitions, row.length = fu.operationCount + 1
  correct : ∀ source transition target, fsa.transition (.state source) transition = .ok target →
    target ≠ .unknown → fsa.Correct source transition target

/-- States are only ever added. -/
def Extends (fsa' fsa : FUFiniteStateAutomaton fu) : Prop :=
  fsa.stateCollisionMatrices <+: fsa'.stateCollisionMatrices

theorem Extends.refl (fsa : FUFiniteStateAutomaton fu) : fsa.Extends fsa := List.prefix_rfl

theorem Extends.trans {fsa'' : FUFiniteStateAutomaton fu} (h' : fsa''.Extends fsa')
    (h : fsa'.Extends fsa) : fsa''.Extends fsa :=
  List.IsPrefix.trans h h'

theorem Extends.get (h : fsa'.Extends fsa) (hm : fsa.stateCollisionMatrices[k]? = some m) :
    fsa'.stateCollisionMatrices[k]? = some m := by
  obtain ⟨l, hl⟩ := h
  obtain ⟨hk, -⟩ := List.getElem?_eq_some_iff.1 hm
  rw [← hl, List.getElem?_append_left hk, hm]

theorem Correct.extend (h : fsa.Correct source t target) (he : fsa'.Extends fsa) :
    fsa'.Correct source t target := by
  cases target with
  | state target =>
    obtain ⟨m, m', hm, hm', hlegal, hbits⟩ := h
    exact ⟨m, m', he.get hm, he.get hm', hlegal, hbits⟩
  | illegal =>
    obtain ⟨m, hm, hi⟩ := h
    exact ⟨m, he.get hm, hi⟩
  | unknown => exact h

/-- Every transition of a state has an entry. -/
theorem Valid.transition_ok (h : fsa.Valid) (hs : source < fsa.stateCollisionMatrices.length)
    (ht : t ≤ fu.operationCount) : ∃ target, fsa.transition (.state source) t = .ok target := by
  have hs' : source < fsa.transitions.length := h.length.symm ▸ hs
  have hrow := h.rows _ (List.getElem_mem hs')
  have ht' : t < fsa.transitions[source].length := by omega
  refine ⟨fsa.transitions[source][t], ?_⟩
  simp only [FUFiniteStateAutomaton.transition, List.getElem?_eq_getElem hs',
    List.getElem?_eq_getElem ht']

theorem transition_setTransition {u : Nat} {target' : FSAStateIndex}
    (h : (fsa.setTransition source target t).transition (.state k) u = .ok target') :
    k = source ∧ u = t ∧ target' = target ∨ fsa.transition (.state k) u = .ok target' := by
  simp only [FUFiniteStateAutomaton.transition, setTransition, List.getElem?_modify] at h ⊢
  cases hrow : fsa.transitions[k]? with
  | none =>
    rw [hrow] at h
    cases h
  | some row =>
    rw [hrow] at h
    by_cases hk : source = k
    · subst hk
      simp only [if_true, Option.map_eq_map, Option.map_some, List.getElem?_set] at h
      by_cases hu : t = u
      · subst hu
        rw [if_pos rfl] at h
        split at h
        · rename_i hsome
          split at hsome
          · cases hsome
            cases h
            exact .inl ⟨rfl, rfl, rfl⟩
          · cases hsome
        · cases h
      · rw [if_neg hu] at h
        exact .inr h
    · simp only [if_neg hk, Option.map_eq_map, Option.map_some] at h
      exact .inr h

theorem Valid.setTransition (h : fsa.Valid) (hc : fsa.Correct source t target) :
    (fsa.setTransition source target t).Valid where
  operations := h.operations
  nop := h.nop
  start := h.start
  bounded := h.bounded
  distinct := h.distinct
  length := by
    rw [FUFiniteStateAutomaton.setTransition]
    dsimp only
    rw [List.length_modify, h.length]
  rows row hrow := by
    obtain ⟨k, hk, rfl⟩ := List.getElem_of_mem hrow
    simp only [FUFiniteStateAutomaton.setTransition, List.length_modify] at hk
    simp only [FUFiniteStateAutomaton.setTransition, List.getElem_modify]
    have hlength := h.rows _ (List.getElem_mem hk)
    split
    · rwa [List.length_set]
    · exact hlength
  correct k u target' ht hne := by
    obtain ⟨rfl, rfl, rfl⟩ | hold := transition_setTransition ht
    · exact hc
    · exact h.correct k u target' hold hne

theorem addState_extends (fsa : FUFiniteStateAutomaton fu) (m : fu.CollisionMatrix) :
    (fsa.addState m).Extends fsa :=
  List.prefix_append _ _

/-- A new state has no known transitions. -/
theorem transition_addState {u : Nat}
    (h : (fsa.addState m).transition (.state k) u = .ok target) (hne : target ≠ .unknown) :
    fsa.transition (.state k) u = .ok target := by
  simp only [FUFiniteStateAutomaton.transition, addState] at h ⊢
  by_cases hk : k < fsa.transitions.length
  · rwa [List.getElem?_append_left hk] at h
  · exfalso
    rw [List.getElem?_append_right (Nat.le_of_not_lt hk)] at h
    cases hd : k - fsa.transitions.length with
    | zero =>
      rw [hd, List.getElem?_cons_zero] at h
      dsimp only at h
      rw [List.getElem?_replicate] at h
      by_cases hu : u < fu.operationCount + 1
      · rw [if_pos hu] at h
        cases h
        exact hne rfl
      · rw [if_neg hu] at h
        cases h
    | succ d =>
      rw [hd, List.getElem?_cons_succ, List.getElem?_nil] at h
      cases h

theorem Valid.addState (h : fsa.Valid)
    (hbounded : ∀ (j : Fin fu.operationCount) (distance : Nat),
      m.bit j distance = true → distance < fu.maxLatency)
    (hfind : fsa.findState m = none) : (fsa.addState m).Valid where
  operations := h.operations
  nop := h.nop
  start := (addState_extends fsa m).get h.start
  bounded m' hm' := by
    obtain hm' | hm' := List.mem_append.1 hm'
    · exact h.bounded m' hm'
    · obtain rfl := List.mem_singleton.1 hm'
      exact hbounded
  distinct := by
    refine List.pairwise_append.2 ⟨h.distinct, List.pairwise_singleton _ _, fun m' hm' m'' hm'' => ?_⟩
    obtain rfl := List.mem_singleton.1 hm''
    exact Bool.eq_false_iff.2 (by simpa using List.findIdx?_eq_none_iff.1 hfind m' hm')
  length := by
    simp only [FUFiniteStateAutomaton.addState, List.length_append, h.length, List.length_singleton]
  rows row hrow := by
    obtain hrow | hrow := List.mem_append.1 hrow
    · exact h.rows row hrow
    · obtain rfl := List.mem_singleton.1 hrow
      exact List.length_replicate
  correct k u target ht hne :=
    (h.correct k u target (transition_addState ht hne) hne).extend (addState_extends fsa m)

end FUFiniteStateAutomaton
end ConflictDetection
end OpenAsip
