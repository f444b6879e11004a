import Mathlib.Algebra.Order.Ring.Nat
import Mathlib.Data.Nat.Bitwise

namespace OpenAsip
set_option autoImplicit true

namespace AlignedBlocks

/-- The addresses from `a` on are apart from those from `b` on. -/
def Apart (a size b size' : Nat) : Prop := a + size ≤ b ∨ b + size' ≤ a

/-- Clearing the low bits leaves the number of the block. -/
theorem and_not_low_eq_iff {x y : BitVec w} (hk : k < w) :
    x &&& ~~~(BitVec.ofNat w (2 ^ k) - 1) = y &&& ~~~(BitVec.ofNat w (2 ^ k) - 1) ↔
      x.toNat / 2 ^ k = y.toNat / 2 ^ k := by
  have hw : w ≠ 0 := Nat.ne_zero_of_lt hk
  have hmask : BitVec.ofNat w (2 ^ k) - 1 = BitVec.ofNat w (2 ^ k - 1) :=
    BitVec.ofNat_sub_ofNat_of_le _ _ (Nat.one_lt_two_pow hw) Nat.one_le_two_pow
  have hbit (x : BitVec w) (i : Nat) :
      (x &&& ~~~(BitVec.ofNat w (2 ^ k) - 1)).getLsbD i = (x.getLsbD i && decide (k ≤ i)) := by
    rw [hmask, BitVec.getLsbD_and, BitVec.getLsbD_not, BitVec.getLsbD_ofNat,
      Nat.testBit_two_pow_sub_one]
    by_cases hi : i < w
    · have hle : decide (k ≤ i) = !decide (i < k) := by
        rw [← decide_not, decide_eq_decide, Nat.not_lt]
      rw [hle, decide_eq_true hi, Bool.true_and, Bool.true_and]
    · simp [BitVec.getLsbD_of_ge x i (Nat.le_of_not_lt hi)]
  constructor
  · intro h
    apply Nat.eq_of_testBit_eq
    intro i
    have hi := congrArg (fun z => z.getLsbD (i + k)) h
    simp only [hbit, Nat.le_add_left, decide_true, Bool.and_true] at hi
    rw [Nat.testBit_div_two_pow, Nat.testBit_div_two_pow]
    exact hi
  · intro h
    apply BitVec.eq_of_getLsbD_eq
    intro i _
    rw [hbit, hbit]
    by_cases hi : k ≤ i
    · have := congrArg (fun z => z.testBit (i - k)) h
      simp only [Nat.testBit_div_two_pow, Nat.sub_add_cancel hi] at this
      simp only [BitVec.getLsbD, this]
    · simp [hi]

/-- A range of the smaller size is apart from one of the larger size unless it starts inside it. -/
theorem apart_iff (ha : 2 ^ j ∣ a) (hb : 2 ^ k ∣ b) (hjk : j ≤ k) :
    Apart a (2 ^ j) b (2 ^ k) ↔ a < b ∨ b + 2 ^ k ≤ a := by
  constructor
  · rintro (h | h)
    · exact .inl (Nat.lt_of_lt_of_le (Nat.lt_add_of_pos_right (Nat.two_pow_pos j)) h)
    · exact .inr h
  · rintro (h | h)
    · obtain ⟨m, rfl⟩ := ha
      obtain ⟨n, rfl⟩ := (Nat.pow_dvd_pow 2 hjk).trans hb
      refine .inl ?_
      have hlt : m < n := Nat.lt_of_mul_lt_mul_left h
      calc 2 ^ j * m + 2 ^ j = 2 ^ j * (m + 1) := by rw [Nat.mul_succ]
        _ ≤ 2 ^ j * n := Nat.mul_le_mul_left _ hlt
    · exact .inr h

/-- How far `a` is above `b`, counted around, is less than the size of an aligned block from `b` on
if and only if `a` is in the block. -/
theorem toNat_sub_lt_iff {a b : BitVec w} (hk : k ≤ w) (hb : 2 ^ k ∣ b.toNat) :
    (a - b).toNat < 2 ^ k ↔ b.toNat ≤ a.toNat ∧ a.toNat < b.toNat + 2 ^ k := by
  have hlast : b.toNat + 2 ^ k ≤ 2 ^ w := by
    obtain ⟨m, hm⟩ := hb
    obtain ⟨n, hn⟩ := Nat.pow_dvd_pow 2 hk
    have hlt : 2 ^ k * m < 2 ^ k * n := hm ▸ hn ▸ b.isLt
    rw [hm, hn, ← Nat.mul_succ]
    exact Nat.mul_le_mul_left _ (Nat.lt_of_mul_lt_mul_left hlt)
  have ha := a.isLt
  rw [BitVec.toNat_sub]
  by_cases hle : b.toNat ≤ a.toNat
  · have : 2 ^ w - b.toNat + a.toNat = a.toNat - b.toNat + 2 ^ w := by omega
    rw [this, Nat.add_mod_right, Nat.mod_eq_of_lt (by omega)]
    omega
  · rw [Nat.mod_eq_of_lt (by omega)]
    omega

/-- The same blocks seen from another origin. -/
theorem sub_eq_of_eq_add {base a b i j : BitVec w} (ha : a = base + i) (hb : b = base + j) :
    a - b = i - j := by
  grind

end AlignedBlocks

end OpenAsip
