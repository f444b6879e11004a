import Mathlib.Data.Bool.Basic
import Mathlib.Data.List.Range
import Mathlib.Algebra.Ring.Nat
import Mathlib.Tactic.Ring

namespace OpenAsip
set_option autoImplicit true

/-- The number that a path of a binary tree has when the paths are numbered level by level and
each level in the order of its paths. -/
def levelIndex (l : List Bool) : Nat := l.foldl (fun n b => 2 * n + b.toNat) 1

@[simp] theorem levelIndex_nil : levelIndex [] = 1 := rfl

theorem levelIndex_concat (l : List Bool) (b : Bool) :
    levelIndex (l ++ [b]) = 2 * levelIndex l + b.toNat := by
  rw [levelIndex, List.foldl_append]
  rfl

theorem foldl_bits_le (l : List Bool) (n : Nat) :
    2 ^ l.length * n ≤ l.foldl (fun n b => 2 * n + b.toNat) n ∧
      l.foldl (fun n b => 2 * n + b.toNat) n < 2 ^ l.length * (n + 1) := by
  induction l generalizing n with
  | nil => simp
  | cons b l ih =>
    obtain ⟨hle, hlt⟩ := ih (2 * n + b.toNat)
    have hb := b.toNat_le
    rw [List.foldl_cons, List.length_cons, Nat.pow_succ, Nat.mul_assoc, Nat.mul_assoc]
    refine ⟨Nat.le_trans (Nat.mul_le_mul_left _ (by omega)) hle, Nat.lt_of_lt_of_le hlt ?_⟩
    exact Nat.mul_le_mul_left _ (by omega)

theorem two_pow_length_le (l : List Bool) : 2 ^ l.length ≤ levelIndex l := by
  have hle := (foldl_bits_le l 1).1
  rwa [Nat.mul_one] at hle

theorem levelIndex_lt (l : List Bool) : levelIndex l < 2 ^ (l.length + 1) :=
  (foldl_bits_le l 1).2

theorem length_le_of_levelIndex_le {l l' : List Bool} (h : levelIndex l ≤ levelIndex l') :
    l.length ≤ l'.length := by
  have hpow : 2 ^ l.length < 2 ^ (l'.length + 1) :=
    Nat.lt_of_le_of_lt (two_pow_length_le l) (Nat.lt_of_le_of_lt h (levelIndex_lt l'))
  exact Nat.le_of_lt_succ ((Nat.pow_lt_pow_iff_right Nat.one_lt_two).1 hpow)

theorem levelIndex_pos (l : List Bool) : 0 < levelIndex l :=
  Nat.lt_of_lt_of_le (Nat.two_pow_pos _) (two_pow_length_le l)

theorem levelIndex_eq_one {l : List Bool} (h : levelIndex l = 1) : l = [] := by
  have hlength : l.length ≤ [].length := length_le_of_levelIndex_le (Nat.le_of_eq h)
  exact List.eq_nil_of_length_eq_zero (Nat.le_zero.1 hlength)

theorem levelIndex_injective : Function.Injective levelIndex := by
  intro l l' h
  induction l using List.reverseRecOn generalizing l' with
  | nil => exact (levelIndex_eq_one h.symm).symm
  | append_singleton l b ih =>
    cases l' using List.reverseRecOn with
    | nil => exact levelIndex_eq_one h
    | append_singleton l' b' =>
      rw [levelIndex_concat, levelIndex_concat] at h
      have hb := b.toNat_le
      have hb' := b'.toNat_le
      have hinj : ∀ b b' : Bool, b.toNat = b'.toNat → b = b' := by decide
      rw [ih (show levelIndex l = levelIndex l' by omega), hinj b b' (by omega)]

/-- In a level the paths are numbered in their lexicographic order. -/
theorem foldl_bits_lt_iff {l l' : List Bool} (h : l.length = l'.length) (n : Nat) :
    l.foldl (fun n b => 2 * n + b.toNat) n < l'.foldl (fun n b => 2 * n + b.toNat) n ↔ l < l' := by
  induction l generalizing l' n with
  | nil =>
    obtain rfl := List.eq_nil_of_length_eq_zero h.symm
    exact ⟨fun hlt => (Nat.lt_irrefl _ hlt).elim, fun hlt => (List.lt_irrefl [] hlt).elim⟩
  | cons b l ih =>
    cases l' with
    | nil => cases h
    | cons b' l' =>
      have hlength := Nat.succ.inj h
      rw [List.foldl_cons, List.foldl_cons, List.cons_lt_cons_iff]
      rcases Bool.eq_or_eq_not b b' with rfl | rfl
      · rw [ih hlength]
        exact ⟨fun hlt => .inr ⟨rfl, hlt⟩, fun hlt => hlt.elim (fun hb => by simp at hb) And.right⟩
      · have hlow := foldl_bits_le l (2 * n + (!b').toNat)
        have hhigh := foldl_bits_le l' (2 * n + b'.toNat)
        rw [hlength] at hlow
        cases b' with
        | false =>
          have hle : 2 ^ l'.length * (2 * n + 0 + 1) ≤ 2 ^ l'.length * (2 * n + 1) := Nat.le_refl _
          refine ⟨fun hlt => ?_, fun hlt => ?_⟩
          · exact (Nat.lt_irrefl _ (hlt.trans (hhigh.2.trans_le (hle.trans hlow.1)))).elim
          · rcases hlt with hlt | ⟨hlt, -⟩
            · exact absurd hlt (by decide)
            · cases hlt
        | true => exact ⟨fun _ => .inl (by decide), fun _ => hlow.2.trans_le hhigh.1⟩

theorem levelIndex_lt_iff {l l' : List Bool} (h : l.length = l'.length) :
    levelIndex l < levelIndex l' ↔ l < l' :=
  foldl_bits_lt_iff h 1

/-- A queue of a breadth-first search: the paths from one number on up to its children. -/
def LevelQueue (n : Nat) (paths : List (List Bool)) : Prop :=
  paths.map levelIndex = List.range' n n

theorem levelQueue_root : LevelQueue 1 [[]] := rfl

namespace LevelQueue

variable {n : Nat} {p : List Bool} {paths : List (List Bool)}

theorem ne_nil (h : LevelQueue n paths) (hn : 0 < n) : paths ≠ [] := by
  rintro rfl
  have hlength := congrArg List.length h
  rw [List.length_range'] at hlength
  exact Nat.ne_of_lt hn hlength

theorem levelIndex_head (h : LevelQueue n (p :: paths)) : levelIndex p = n := by
  cases n with
  | zero => cases h
  | succ n => exact (List.cons.inj h).1

/-- When the children of the first path go to the end, the queue starts at the next path. -/
theorem next (h : LevelQueue n (p :: paths)) :
    LevelQueue (n + 1) (paths ++ [p ++ [false], p ++ [true]]) := by
  have hp := h.levelIndex_head
  cases n with
  | zero => cases h
  | succ n =>
    rw [LevelQueue, List.map_append, (List.cons.inj h).2]
    change _ ++ [levelIndex (p ++ [false]), levelIndex (p ++ [true])] = _
    rw [levelIndex_concat, levelIndex_concat, hp, List.range'_concat, List.range'_concat,
      List.append_assoc]
    refine congrArg₂ (· ++ ·) rfl (congrArg₂ List.cons ?_ (congrArg₂ List.cons ?_ rfl))
    · rw [Bool.toNat_false]
      omega
    · rw [Bool.toNat_true]
      omega

/-- The paths with the next two numbers are the children of the first one. -/
theorem eq_child (h : LevelQueue n (p :: paths)) {l : List Bool} (hle : 2 * n ≤ levelIndex l)
    (hlt : levelIndex l < 2 * (n + 1)) : ∃ b, l = p ++ [b] := by
  refine ⟨decide (levelIndex l = 2 * n + 1), levelIndex_injective ?_⟩
  rw [levelIndex_concat, h.levelIndex_head]
  by_cases hl : levelIndex l = 2 * n + 1
  · rw [decide_eq_true hl, hl]
    rfl
  · rw [decide_eq_false hl, Bool.toNat_false]
    omega

end LevelQueue
end OpenAsip
