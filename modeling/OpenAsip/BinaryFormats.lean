import Mathlib.Algebra.Order.Field.Rat
import Mathlib.Algebra.Order.Field.Basic
import Mathlib.Order.Monotone.Basic
import Mathlib.Tactic.Linarith
import Mathlib.Tactic.Ring

namespace OpenAsip
set_option autoImplicit true

/-- A binary interchange format: a sign bit, the exponent and the fraction, from the top on. -/
structure BinaryFormat where
  exponentWidth : Nat
  fractionWidth : Nat

/-- What a pattern of a format denotes. The magnitude zero has both signs. -/
inductive FloatNumber where
  | nan
  | infinite (negative : Bool)
  | finite (negative : Bool) (magnitude : ℚ)
deriving DecidableEq

namespace BinaryFormat
variable (f : BinaryFormat)

/-- The magnitude in units of the least positive one. -/
def units (k : Nat) : Nat :=
  if k / 2 ^ f.fractionWidth = 0 then k % 2 ^ f.fractionWidth
  else (2 ^ f.fractionWidth + k % 2 ^ f.fractionWidth) * 2 ^ (k / 2 ^ f.fractionWidth - 1)

def bias : Nat := 2 ^ (f.exponentWidth - 1) - 1

def magnitude (k : Nat) : ℚ := f.units k / 2 ^ (f.bias + f.fractionWidth - 1)

/-- The pattern of the infinities without its sign. -/
def infinity : Nat := (2 ^ f.exponentWidth - 1) * 2 ^ f.fractionWidth

def signBit : Nat := f.exponentWidth + f.fractionWidth

def denotes (pattern : Nat) : FloatNumber :=
  let negative := pattern.testBit f.signBit
  let k := pattern % 2 ^ f.signBit
  if k < f.infinity then .finite negative (f.magnitude k)
  else if k = f.infinity then .infinite negative
  else .nan

/-- From here on a magnitude is rounded to infinity: half way from the greatest finite magnitude
to the next power of two. -/
def overflow : ℚ := (f.magnitude (f.infinity - 1) + f.magnitude f.infinity) / 2

/-- Rounding to the nearest magnitude of the format, and between two to the even pattern. -/
def RoundsTo (x : ℚ) (k : Nat) : Prop :=
  if x < f.overflow then
    k < f.infinity ∧
      (∀ k' < f.infinity, |x - f.magnitude k| ≤ |x - f.magnitude k'|) ∧
      ∀ k' < f.infinity, k' ≠ k → |x - f.magnitude k| = |x - f.magnitude k'| → k % 2 = 0
  else k = f.infinity

variable {f}

theorem units_normal {e m : Nat} (he : 0 < e) (hm : m ≤ 2 ^ f.fractionWidth) :
    f.units (e * 2 ^ f.fractionWidth + m) = (2 ^ f.fractionWidth + m) * 2 ^ (e - 1) := by
  have hpos := Nat.two_pow_pos f.fractionWidth
  rcases Nat.lt_or_eq_of_le hm with hlt | rfl
  · rw [units, Nat.mul_comm, Nat.mul_add_div hpos, Nat.mul_add_mod, Nat.div_eq_of_lt hlt,
      Nat.mod_eq_of_lt hlt, if_neg (by omega), Nat.add_zero]
  · obtain ⟨e, rfl⟩ := Nat.exists_eq_succ_of_ne_zero (Nat.ne_of_gt he)
    rw [units, ← Nat.succ_mul, Nat.mul_div_cancel _ hpos, Nat.mul_mod_left,
      if_neg (Nat.succ_ne_zero _), Nat.add_zero, Nat.succ_sub_one, Nat.succ_sub_one, Nat.pow_succ]
    ring

theorem units_subnormal {m : Nat} (hm : m ≤ 2 ^ f.fractionWidth) : f.units m = m := by
  have hpos := Nat.two_pow_pos f.fractionWidth
  rcases Nat.lt_or_eq_of_le hm with hlt | rfl
  · rw [units, Nat.div_eq_of_lt hlt, if_pos rfl, Nat.mod_eq_of_lt hlt]
  · rw [units, Nat.div_self hpos, if_neg Nat.one_ne_zero, Nat.mod_self]
    simp

theorem units_lt_succ (k : Nat) : f.units k < f.units (k + 1) := by
  have hm := Nat.mod_lt k (Nat.two_pow_pos f.fractionWidth)
  have hk := Nat.div_add_mod' k (2 ^ f.fractionWidth)
  generalize k / 2 ^ f.fractionWidth = e at hk
  generalize k % 2 ^ f.fractionWidth = m at hk hm
  rw [← hk, Nat.add_assoc]
  rcases Nat.eq_zero_or_pos e with rfl | he
  · rw [Nat.zero_mul, Nat.zero_add, Nat.zero_add, units_subnormal (Nat.le_of_lt hm),
      units_subnormal hm]
    exact Nat.lt_succ_self m
  · rw [units_normal he (Nat.le_of_lt hm), units_normal he hm]
    exact Nat.mul_lt_mul_of_pos_right (by omega) (Nat.two_pow_pos _)

theorem magnitude_strictMono : StrictMono f.magnitude := by
  apply strictMono_nat_of_lt_succ
  intro k
  rw [magnitude, magnitude]
  apply div_lt_div_of_pos_right _ (by positivity)
  exact_mod_cast units_lt_succ k

section Between
variable {x : ℚ} {k : Nat}

/-- A magnitude in the lower half between two of the format is nearest to the lower one. -/
theorem nearest_lower (hle : f.magnitude k ≤ x)
    (hhalf : 2 * x ≤ f.magnitude k + f.magnitude (k + 1)) (k' : Nat) :
    |x - f.magnitude k| ≤ |x - f.magnitude k'| := by
  rw [abs_of_nonneg (sub_nonneg.2 hle)]
  rcases Nat.lt_or_ge k k' with hlt | hge
  · have hmono := (magnitude_strictMono (f := f)).monotone hlt
    refine le_trans ?_ (neg_le_abs _)
    linarith
  · have hmono := (magnitude_strictMono (f := f)).monotone hge
    refine le_trans ?_ (le_abs_self _)
    linarith

theorem nearest_upper (hlt : x < f.magnitude (k + 1))
    (hhalf : f.magnitude k + f.magnitude (k + 1) ≤ 2 * x) (k' : Nat) :
    |x - f.magnitude (k + 1)| ≤ |x - f.magnitude k'| := by
  rw [abs_sub_comm, abs_of_pos (sub_pos.2 hlt)]
  rcases Nat.lt_or_ge k k' with hlt | hge
  · have hmono := (magnitude_strictMono (f := f)).monotone hlt
    refine le_trans ?_ (neg_le_abs _)
    linarith
  · have hmono := (magnitude_strictMono (f := f)).monotone hge
    refine le_trans ?_ (le_abs_self _)
    linarith

theorem eq_of_nearest_lower (hle : f.magnitude k ≤ x)
    (hhalf : 2 * x < f.magnitude k + f.magnitude (k + 1)) {k' : Nat}
    (he : |x - f.magnitude k| = |x - f.magnitude k'|) : k' = k := by
  rw [abs_of_nonneg (sub_nonneg.2 hle)] at he
  rcases Nat.lt_trichotomy k' k with hlt | heq | hgt
  · have hmono := magnitude_strictMono (f := f) hlt
    have habs := le_abs_self (x - f.magnitude k')
    linarith
  · exact heq
  · have hmono := (magnitude_strictMono (f := f)).monotone hgt
    have habs := neg_le_abs (x - f.magnitude k')
    linarith

theorem eq_of_nearest_upper (hlt : x < f.magnitude (k + 1))
    (hhalf : f.magnitude k + f.magnitude (k + 1) < 2 * x) {k' : Nat}
    (he : |x - f.magnitude (k + 1)| = |x - f.magnitude k'|) : k' = k + 1 := by
  rw [abs_sub_comm, abs_of_pos (sub_pos.2 hlt)] at he
  rcases Nat.lt_trichotomy k' (k + 1) with hlt' | heq | hgt
  · have hmono := (magnitude_strictMono (f := f)).monotone (Nat.le_of_lt_succ hlt')
    have habs := le_abs_self (x - f.magnitude k')
    linarith
  · exact heq
  · have hmono := magnitude_strictMono (f := f) hgt
    have habs := neg_le_abs (x - f.magnitude k')
    linarith

theorem lt_overflow_of_lt (hk : k < f.infinity) (hlt : x < f.magnitude k) : x < f.overflow := by
  have hmono := (magnitude_strictMono (f := f)).monotone (Nat.le_sub_one_of_lt hk)
  have hmono' := (magnitude_strictMono (f := f)).monotone (Nat.sub_le f.infinity 1)
  rw [overflow]
  linarith

theorem lt_overflow_of_lower (hk : k < f.infinity)
    (hhalf : 2 * x < f.magnitude k + f.magnitude (k + 1)) : x < f.overflow := by
  have hmono := (magnitude_strictMono (f := f)).monotone (Nat.le_sub_one_of_lt hk)
  have hmono' := (magnitude_strictMono (f := f)).monotone hk
  rw [overflow]
  linarith

/-- The even pattern of a tie. -/
theorem infinity_even (hf : 0 < f.fractionWidth) : f.infinity % 2 = 0 := by
  obtain ⟨p, hp⟩ := Nat.exists_eq_succ_of_ne_zero (Nat.ne_of_gt hf)
  rw [infinity, hp, Nat.pow_succ, ← Nat.mul_assoc, Nat.mul_mod_left]

/-- Between two neighbours the upper one is taken above the middle, and in the middle from an odd
pattern. -/
theorem roundsTo_of_between (hf : 0 < f.fractionWidth) (hk : k < f.infinity)
    (hle : f.magnitude k ≤ x) (hlt : x < f.magnitude (k + 1)) :
    f.RoundsTo x (if f.magnitude k + f.magnitude (k + 1) < 2 * x ∨
      2 * x = f.magnitude k + f.magnitude (k + 1) ∧ k % 2 = 1 then k + 1 else k) := by
  have heven := infinity_even hf
  have hinf : k + 1 = f.infinity → f.overflow = (f.magnitude k + f.magnitude (k + 1)) / 2 := by
    intro h
    rw [overflow, ← h, Nat.add_sub_cancel]
  rcases lt_trichotomy (2 * x) (f.magnitude k + f.magnitude (k + 1)) with hlow | htie | hhigh
  · rw [if_neg (by rintro (h | ⟨h, -⟩) <;> linarith), RoundsTo,
      if_pos (lt_overflow_of_lower hk hlow)]
    refine ⟨hk, fun k' _ => nearest_lower hle hlow.le k', fun k' _ hne he => ?_⟩
    exact (hne (eq_of_nearest_lower hle hlow he)).elim
  · rcases Nat.mod_two_eq_zero_or_one k with hzero | hone
    · have hk' : k + 1 < f.infinity := by omega
      rw [if_neg (by rintro (h | ⟨-, h⟩); exacts [absurd htie h.ne', by omega]), RoundsTo,
        if_pos (lt_overflow_of_lt hk' hlt)]
      exact ⟨hk, fun k' _ => nearest_lower hle htie.le k', fun _ _ _ _ => hzero⟩
    · rw [if_pos (.inr ⟨htie, hone⟩), RoundsTo]
      by_cases hk' : k + 1 < f.infinity
      · rw [if_pos (lt_overflow_of_lt hk' hlt)]
        exact ⟨hk', fun k' _ => nearest_upper hlt htie.ge k', fun _ _ _ _ => by omega⟩
      · have hend : k + 1 = f.infinity := by omega
        rw [if_neg (by rw [hinf hend]; linarith)]
        exact hend
  · rw [if_pos (.inl hhigh), RoundsTo]
    by_cases hk' : k + 1 < f.infinity
    · rw [if_pos (lt_overflow_of_lt hk' hlt)]
      refine ⟨hk', fun k' _ => nearest_upper hlt hhigh.le k', fun k' _ hne he => ?_⟩
      exact (hne (eq_of_nearest_upper hlt hhigh he)).elim
    · have hend : k + 1 = f.infinity := by omega
      rw [if_neg (by rw [hinf hend]; linarith)]
      exact hend

end Between
end BinaryFormat
end OpenAsip
