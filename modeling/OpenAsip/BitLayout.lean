import OpenAsip.BitStrings

namespace OpenAsip
set_option autoImplicit true

/-- The bit with the given distance from the least significant one. -/
def bitAt (bits : List Bool) (i : Nat) : Bool := bits.reverse.getD i false

/-- The bits of a part stand in the range that starts at a position. -/
def Occupies (bits : List Bool) (position : Nat) (part : List Bool) : Prop :=
  ∀ i, i < part.length → bitAt bits (position + i) = bitAt part i

/-- Two parts stand at their positions, and all remaining bits are zero. -/
structure Layout (bits : List Bool) (p : Nat) (a : List Bool) (q : Nat) (b : List Bool) : Prop where
  first : Occupies bits p a
  second : Occupies bits q b
  zero : ∀ i, ¬ (p ≤ i ∧ i < p + a.length) → ¬ (q ≤ i ∧ i < q + b.length) → bitAt bits i = false

theorem bitAt_eq_testBit (bits : List Bool) (i : Nat) : bitAt bits i = (ofBits bits).testBit i := by
  induction bits with
  | nil => rw [bitAt, ofBits, Nat.zero_testBit]; rfl
  | cons b bits ih =>
    rw [ofBits, Nat.mul_comm, Nat.testBit_two_pow_mul_add _ (ofBits_lt bits), ← ih, bitAt, bitAt,
      List.reverse_cons]
    split
    · rename_i hi
      rw [List.getD_append _ _ _ _ (by rwa [List.length_reverse])]
    · rename_i hi
      rw [List.getD_append_right _ _ _ _ (by rw [List.length_reverse]; omega), List.length_reverse]
      cases hd : i - bits.length with
      | zero =>
        cases b with
        | false => rfl
        | true => rfl
      | succ d =>
        cases b with
        | false => exact (Nat.zero_testBit _).symm
        | true => exact Nat.testBit_lt_two_pow (Nat.one_lt_two_pow (Nat.succ_ne_zero d)) |>.symm

theorem layout_comm : Layout bits p a q b ↔ Layout bits q b p a :=
  ⟨fun h => ⟨h.second, h.first, fun i hb ha => h.zero i ha hb⟩,
    fun h => ⟨h.second, h.first, fun i hb ha => h.zero i ha hb⟩⟩

/-- A layout with one part at the right end determines the number that the bits denote. -/
theorem layout_iff (hp : b.length ≤ p) :
    Layout bits p a 0 b ↔ ofBits bits = ofBits a * 2 ^ p + ofBits b := by
  have hb : ofBits b < 2 ^ p :=
    Nat.lt_of_lt_of_le (ofBits_lt b) (Nat.pow_le_pow_right Nat.two_pos hp)
  have hbits (i : Nat) : (ofBits a * 2 ^ p + ofBits b).testBit i =
      if i < p then bitAt b i else bitAt a (i - p) := by
    rw [Nat.mul_comm, Nat.testBit_two_pow_mul_add _ hb, bitAt_eq_testBit, bitAt_eq_testBit]
  have hzero {c : List Bool} {i : Nat} (hi : c.length ≤ i) : bitAt c i = false := by
    rw [bitAt_eq_testBit]
    exact Nat.testBit_lt_two_pow
      (Nat.lt_of_lt_of_le (ofBits_lt c) (Nat.pow_le_pow_right Nat.two_pos hi))
  constructor
  · intro h
    apply Nat.eq_of_testBit_eq
    intro i
    rw [hbits, ← bitAt_eq_testBit]
    split
    · rename_i hi
      by_cases hib : i < b.length
      · have hs := h.second i hib
        rwa [Nat.zero_add] at hs
      · rw [hzero (Nat.le_of_not_lt hib)]
        exact h.zero i (by omega) (by omega)
    · rename_i hi
      by_cases hia : i - p < a.length
      · have hf := h.first (i - p) hia
        rwa [Nat.add_sub_cancel' (Nat.le_of_not_lt hi)] at hf
      · rw [hzero (Nat.le_of_not_lt hia)]
        exact h.zero i (by omega) (by omega)
  · intro h
    have hat (i : Nat) : bitAt bits i = if i < p then bitAt b i else bitAt a (i - p) := by
      rw [bitAt_eq_testBit, h, hbits]
    constructor
    · intro i hi
      rw [hat, if_neg (by omega), Nat.add_sub_cancel_left]
    · intro i hi
      rw [Nat.zero_add, hat, if_pos (by omega)]
    · intro i ha hb
      rw [hat]
      split
      · exact hzero (by omega)
      · exact hzero (by omega)

end OpenAsip
