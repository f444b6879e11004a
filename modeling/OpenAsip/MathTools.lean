import OpenAsip.BitStrings
import OpenAsip.Outcomes

namespace OpenAsip
set_option autoImplicit true

namespace MathTools

/-- The loop of `MathTools::bitLength`. The fuel is the number itself, which halves every time. -/
def bitLengthLoop : Nat → Nat → Nat → Nat
  | 0, _, bits => bits
  | fuel + 1, number, bits =>
    if number ≠ 0 then bitLengthLoop fuel (number >>> 1) (bits + 1) else bits

def bitLength (number : Nat) : Nat := bitLengthLoop number number 0

/-- `1 << index` is an `int`, and bit 31 is its sign: converted to the 64-bit type of the other
operand it also covers all higher bits. -/
def shiftedOne (index : Nat) : Nat :=
  if index = 31 then 2 ^ 64 - 2 ^ 31 else 2 ^ index

/-- `MathTools::bit`. The shifted constant is an `int`, so the shift is defined below 32 only. -/
def bit (integer index : Nat) : Outcome Bool :=
  if index < 32 then .ok (integer &&& shiftedOne index ≠ 0) else .error .undefined

def requiredBits (number : Nat) : Nat := if number = 0 then 1 else bitLength number

theorem bitLengthLoop_eq (h : number ≤ fuel) :
    bitLengthLoop fuel number bits = bits + number.size := by
  induction fuel generalizing number bits with
  | zero =>
    obtain rfl : number = 0 := Nat.le_zero.1 h
    simp only [bitLengthLoop, Nat.size_zero, Nat.add_zero]
  | succ fuel ih =>
    rw [bitLengthLoop]
    split
    · rename_i hn
      have hd : number >>> 1 ≤ fuel := by
        rw [Nat.shiftRight_one]
        omega
      have hs : number.size = (number >>> 1).size + 1 := by
        conv_lhs => rw [← Nat.bit_bodd_div2 number]
        rw [Nat.size_bit (by rwa [Nat.bit_bodd_div2]), Nat.div2_val, Nat.shiftRight_one]
      rw [ih hd, hs]
      omega
    · rename_i hn
      obtain rfl : number = 0 := by simpa only [ne_eq, not_not] using hn
      rw [Nat.size_zero, Nat.add_zero]

theorem bitLength_eq_size (n : Nat) : bitLength n = n.size := by
  rw [bitLength, bitLengthLoop_eq (Nat.le_refl n), Nat.zero_add]

theorem lt_two_pow_bitLength (n : Nat) : n < 2 ^ bitLength n := by
  rw [bitLength_eq_size]
  exact Nat.lt_size_self n

theorem bitLength_le : bitLength n ≤ w ↔ n < 2 ^ w := by
  rw [bitLength_eq_size, Nat.size_le]

theorem bitLength_mul_two_pow (hn : n ≠ 0) (k : Nat) : bitLength (n * 2 ^ k) = bitLength n + k := by
  rw [bitLength_eq_size, bitLength_eq_size, ← Nat.shiftLeft_eq, Nat.size_shiftLeft hn]

/-- The next number needs one more bit only when it is a power of two. -/
theorem bitLength_succ (n : Nat) :
    bitLength (n + 1) = bitLength n ∨
      bitLength (n + 1) = bitLength n + 1 ∧ n + 1 = 2 ^ bitLength n := by
  have hn := lt_two_pow_bitLength n
  have hle : bitLength n ≤ bitLength (n + 1) := by
    rw [bitLength_eq_size, bitLength_eq_size]
    exact Nat.size_le_size (Nat.le_succ n)
  by_cases he : n + 1 < 2 ^ bitLength n
  · exact .inl (Nat.le_antisymm (bitLength_le.2 he) hle)
  · have hp : n + 1 = 2 ^ bitLength n := by omega
    refine .inr ⟨?_, hp⟩
    rw [hp, bitLength_eq_size (2 ^ _), Nat.size_pow]

theorem decide_and_two_pow (n i : Nat) : decide (n &&& 2 ^ i ≠ 0) = n.testBit i := by
  rw [Nat.and_two_pow]
  have hp := Nat.two_pow_pos i
  cases n.testBit i with
  | false => simp only [Bool.toNat_false, Nat.zero_mul, ne_eq, not_true_eq_false, decide_false]
  | true => simp only [Bool.toNat_true, Nat.one_mul, ne_eq, hp.ne', not_false_eq_true, decide_true]

theorem and_shiftedOne (hn : n < 2 ^ 32) (i : Nat) : n &&& shiftedOne i = n &&& 2 ^ i := by
  rw [shiftedOne]
  split
  · rename_i h31
    subst h31
    rw [show 2 ^ 64 - 2 ^ 31 = (2 ^ 33 - 1) <<< 31 from rfl]
    apply Nat.eq_of_testBit_eq
    intro j
    rw [Nat.testBit_and, Nat.testBit_and, Nat.testBit_shiftLeft, Nat.testBit_two_pow_sub_one,
      Nat.testBit_two_pow]
    by_cases hj : j < 32
    · congr 1
      rw [Bool.eq_iff_iff]
      simp only [ge_iff_le, Bool.and_eq_true, decide_eq_true_eq]
      omega
    · have hf : n.testBit j = false := Nat.testBit_lt_two_pow
        (Nat.lt_of_lt_of_le hn (Nat.pow_le_pow_right Nat.two_pos (Nat.le_of_not_lt hj)))
      rw [hf, Bool.false_and, Bool.false_and]
  · rfl

theorem bit_eq (hn : n < 2 ^ 32) (hi : i < 32) : bit n i = .ok (n.testBit i) := by
  rw [bit, if_pos hi, and_shiftedOne hn, decide_and_two_pow]

theorem bit_zero (n : Nat) : bit n 0 = .ok (n.testBit 0) := by
  rw [bit, if_pos (by decide), shiftedOne, if_neg (by decide), decide_and_two_pow]

theorem bit_ok (hn : n < 2 ^ 32) (h : bit n i = .ok b) : i < 32 ∧ b = n.testBit i := by
  by_cases hi : i < 32
  · rw [bit_eq hn hi] at h
    cases h
    exact ⟨hi, rfl⟩
  · rw [bit, if_neg hi] at h
    cases h

theorem lt_two_pow_requiredBits (value : Nat) : value < 2 ^ requiredBits value := by
  rw [requiredBits]
  split
  · rename_i h
    rw [h]
    exact Nat.two_pow_pos 1
  · exact lt_two_pow_bitLength value

theorem requiredBits_le (hw : 0 < w) : requiredBits n ≤ w ↔ n < 2 ^ w := by
  rw [requiredBits]
  split
  · rename_i hn
    rw [hn]
    exact ⟨fun _ => Nat.two_pow_pos w, fun _ => hw⟩
  · exact bitLength_le

theorem requiredBits_pos (n : Nat) : 0 < requiredBits n := by
  rw [requiredBits]
  split
  · exact Nat.one_pos
  · rename_i hn
    apply Nat.pos_of_ne_zero
    intro hzero
    have hlt := lt_two_pow_bitLength n
    rw [hzero] at hlt
    omega

theorem requiredBits_mono (h : m ≤ n) : requiredBits m ≤ requiredBits n := by
  rw [requiredBits_le (requiredBits_pos n)]
  exact Nat.lt_of_le_of_lt h (lt_two_pow_requiredBits n)

end MathTools

end OpenAsip
