import Mathlib.Data.Nat.Bitwise
import Mathlib.Data.Nat.Size
import Mathlib.Data.List.Infix

namespace OpenAsip
set_option autoImplicit true

/-- The low `w` bits of a number, most significant bit first. -/
def toBits : Nat → Nat → List Bool
  | 0, _ => []
  | w + 1, n => n.testBit w :: toBits w n

/-- The number denoted by a bit string, most significant bit first. -/
def ofBits : List Bool → Nat
  | [] => 0
  | b :: bs => b.toNat * 2 ^ bs.length + ofBits bs

@[simp] theorem length_toBits (w n : Nat) : (toBits w n).length = w := by
  induction w with
  | zero => rfl
  | succ w ih => rw [toBits, List.length_cons, ih]

theorem toBits_congr (h : ∀ i, i < w → m.testBit i = n.testBit i) : toBits w m = toBits w n := by
  induction w with
  | zero => rfl
  | succ w ih =>
    rw [toBits, toBits, h w (Nat.lt_succ_self w), ih fun i hi => h i (Nat.lt_succ_of_lt hi)]

theorem toBits_zero (w : Nat) : toBits w 0 = List.replicate w false := by
  induction w with
  | zero => rfl
  | succ w ih => rw [toBits, ih, Nat.zero_testBit, List.replicate_succ]

/-- A bit string splits into its high part and its low part. -/
theorem toBits_add (a b n : Nat) : toBits (a + b) n = toBits a (n / 2 ^ b) ++ toBits b n := by
  induction a with
  | zero => rw [Nat.zero_add, toBits, List.nil_append]
  | succ a ih =>
    rw [Nat.succ_add, toBits, toBits, ih, List.cons_append, Nat.testBit_div_two_pow]

theorem getElem?_toBits (hi : i < w) : (toBits w n)[i]? = some (n.testBit (w - 1 - i)) := by
  induction w generalizing i with
  | zero => exact (Nat.not_lt_zero _ hi).elim
  | succ w ih =>
    cases i with
    | zero => simp only [toBits, List.getElem?_cons_zero, Nat.add_sub_cancel, Nat.sub_zero]
    | succ i =>
      rw [toBits, List.getElem?_cons_succ, ih (Nat.lt_of_succ_lt_succ hi)]
      congr 2
      omega

theorem ofBits_lt (bs : List Bool) : ofBits bs < 2 ^ bs.length := by
  induction bs with
  | nil => exact Nat.one_pos
  | cons b bs ih =>
    rw [ofBits, List.length_cons, Nat.pow_succ]
    cases b with
    | false => simp only [Bool.toNat_false]; omega
    | true => simp only [Bool.toNat_true]; omega

theorem ofBits_append (a b : List Bool) :
    ofBits (a ++ b) = ofBits a * 2 ^ b.length + ofBits b := by
  induction a with
  | nil => simp only [List.nil_append, ofBits, Nat.zero_mul, Nat.zero_add]
  | cons c a ih =>
    rw [List.cons_append, ofBits, ofBits, ih, List.length_append, Nat.pow_add, Nat.add_mul]
    ac_rfl

theorem ofBits_replicate_false (w : Nat) : ofBits (List.replicate w false) = 0 := by
  induction w with
  | zero => rfl
  | succ w ih => rw [List.replicate_succ, ofBits, ih, Bool.toNat_false, Nat.zero_mul]

@[simp] theorem ofBits_toBits (w n : Nat) : ofBits (toBits w n) = n % 2 ^ w := by
  induction w with
  | zero => rw [toBits, ofBits, Nat.pow_zero, Nat.mod_one]
  | succ w ih =>
    rw [toBits, ofBits, length_toBits, ih, Nat.mod_pow_succ, Nat.toNat_testBit, Nat.add_comm,
      Nat.mul_comm]

/-- Strings of one length are determined by the numbers they denote. -/
theorem ofBits_injective (hl : a.length = b.length) (h : ofBits a = ofBits b) : a = b := by
  induction a generalizing b with
  | nil => exact (List.length_eq_zero_iff.1 hl.symm).symm
  | cons x a ih =>
    cases b with
    | nil => cases hl
    | cons y b =>
      have hl' : a.length = b.length := Nat.succ.inj hl
      have ha := ofBits_lt a
      have hb := ofBits_lt b
      rw [ofBits, ofBits, ← hl'] at h
      rw [← hl'] at hb
      cases x with
      | false =>
        cases y with
        | false => simp only [Nat.add_left_cancel_iff] at h; rw [ih hl' h]
        | true => simp only [Bool.toNat_false, Bool.toNat_true] at h; omega
      | true =>
        cases y with
        | false => simp only [Bool.toNat_false, Bool.toNat_true] at h; omega
        | true => simp only [Nat.add_left_cancel_iff] at h; rw [ih hl' h]

theorem toBits_inj : toBits w m = toBits w n ↔ m % 2 ^ w = n % 2 ^ w := by
  constructor
  · intro h
    simpa only [ofBits_toBits] using congrArg ofBits h
  · intro h
    apply ofBits_injective
    · simp only [length_toBits]
    · simp only [ofBits_toBits, h]

@[simp] theorem toBits_mod (w n : Nat) : toBits w (n % 2 ^ w) = toBits w n :=
  toBits_inj.2 (Nat.mod_mod _ _)

@[simp] theorem toBits_ofBits (bs : List Bool) : toBits bs.length (ofBits bs) = bs := by
  apply ofBits_injective
  · exact length_toBits _ _
  · rw [ofBits_toBits, Nat.mod_eq_of_lt (ofBits_lt bs)]

/-- One bit string is a prefix of another when the high bits agree. -/
theorem toBits_prefix_iff :
    toBits a m <+: toBits b n ↔ a ≤ b ∧ m % 2 ^ a = n / 2 ^ (b - a) % 2 ^ a := by
  constructor
  · intro h
    have hl : a ≤ b := by simpa only [length_toBits] using h.length_le
    refine ⟨hl, ?_⟩
    have hs := toBits_add a (b - a) n
    rw [Nat.add_sub_cancel' hl] at hs
    rw [hs] at h
    have hp := List.prefix_of_prefix_length_le h (List.prefix_append _ _)
      (by simp only [length_toBits, le_refl])
    exact toBits_inj.1 (hp.eq_of_length (by simp only [length_toBits]))
  · rintro ⟨hl, h⟩
    have hs := toBits_add a (b - a) n
    rw [Nat.add_sub_cancel' hl] at hs
    rw [hs, toBits_inj.2 h]
    exact List.prefix_append _ _

/-- One bit string is a suffix of another when the low bits agree. -/
theorem toBits_suffix_iff :
    toBits a m <:+ toBits b n ↔ a ≤ b ∧ m % 2 ^ a = n % 2 ^ a := by
  constructor
  · intro h
    have hl : a ≤ b := by simpa only [length_toBits] using h.length_le
    refine ⟨hl, ?_⟩
    have hs := toBits_add (b - a) a n
    rw [Nat.sub_add_cancel hl] at hs
    rw [hs] at h
    have hp := List.suffix_of_suffix_length_le h (List.suffix_append _ _)
      (by simp only [length_toBits, le_refl])
    exact toBits_inj.1 (hp.eq_of_length (by simp only [length_toBits]))
  · rintro ⟨hl, h⟩
    have hs := toBits_add (b - a) a n
    rw [Nat.sub_add_cancel hl] at hs
    rw [hs, toBits_inj.2 h]
    exact List.suffix_append _ _

theorem prefix_bits_iff :
    toBits a m <+: toBits b n ↔
      a ≤ b ∧ ∀ i, i < a → m.testBit i = n.testBit (i + (b - a)) := by
  rw [toBits_prefix_iff]
  refine and_congr_right fun _ => ⟨fun h i hi => ?_, fun h => ?_⟩
  · have ht := congrArg (Nat.testBit · i) h
    simpa only [Nat.testBit_mod_two_pow, hi, decide_true, Bool.true_and,
      Nat.testBit_div_two_pow] using ht
  · apply Nat.eq_of_testBit_eq
    intro i
    simp only [Nat.testBit_mod_two_pow, Nat.testBit_div_two_pow]
    by_cases hi : i < a
    · rw [h i hi]
    · simp only [hi, decide_false, Bool.false_and]

theorem suffix_bits_iff :
    toBits a m <:+ toBits b n ↔ a ≤ b ∧ ∀ i, i < a → m.testBit i = n.testBit i := by
  rw [toBits_suffix_iff]
  refine and_congr_right fun _ => ⟨fun h i hi => ?_, fun h => ?_⟩
  · have ht := congrArg (Nat.testBit · i) h
    simpa only [Nat.testBit_mod_two_pow, hi, decide_true, Bool.true_and] using ht
  · apply Nat.eq_of_testBit_eq
    intro i
    simp only [Nat.testBit_mod_two_pow]
    by_cases hi : i < a
    · rw [h i hi]
    · simp only [hi, decide_false, Bool.false_and]

end OpenAsip
