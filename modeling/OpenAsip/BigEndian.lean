import Mathlib.Algebra.Order.Ring.Int
import Mathlib.Data.List.Induction
import Mathlib.Tactic.Positivity
import Mathlib.Tactic.Ring

namespace OpenAsip
set_option autoImplicit true

/-! Numbers as byte strings, the most significant byte first. -/

namespace BigEndian

/-- The lowest `n` bytes of a number. -/
def bytes : Nat → Nat → List UInt8
  | 0, _ => []
  | n + 1, v => bytes n (v / 256) ++ [UInt8.ofNat v]

def value (l : List UInt8) : Nat :=
  l.foldl (fun v b => v * 256 + b.toNat) 0

/-- The number of which the byte string is the two's complement. -/
def signedValue (l : List UInt8) : Int := Int.bmod (value l) (256 ^ l.length)

theorem length_bytes : (bytes n v).length = n := by
  induction n generalizing v with
  | zero => rfl
  | succ n ih => rw [bytes, List.length_append, ih, List.length_singleton]

theorem foldl_value (l : List UInt8) (v : Nat) :
    l.foldl (fun v b => v * 256 + b.toNat) v = v * 256 ^ l.length + value l := by
  induction l generalizing v with
  | nil => rw [List.foldl_nil, List.length_nil, Nat.pow_zero, Nat.mul_one, value, List.foldl_nil,
      Nat.add_zero]
  | cons b l ih =>
    have hb : value (b :: l) = b.toNat * 256 ^ l.length + value l := by
      rw [value, List.foldl_cons, Nat.zero_mul, Nat.zero_add, ih]
    rw [List.foldl_cons, ih, hb, List.length_cons, Nat.pow_succ]
    ring

theorem value_nil : value [] = 0 := rfl

theorem value_cons (b : UInt8) (l : List UInt8) :
    value (b :: l) = b.toNat * 256 ^ l.length + value l := by
  rw [value, List.foldl_cons, Nat.zero_mul, Nat.zero_add, foldl_value]

theorem value_append (l l' : List UInt8) :
    value (l ++ l') = value l * 256 ^ l'.length + value l' := by
  rw [value, List.foldl_append, foldl_value]
  rfl

theorem value_singleton (b : UInt8) : value [b] = b.toNat := by
  rw [value_cons, List.length_nil, Nat.pow_zero, Nat.mul_one, value_nil, Nat.add_zero]

theorem value_lt (l : List UInt8) : value l < 256 ^ l.length := by
  induction l with
  | nil => exact Nat.one_pos
  | cons b l ih =>
    rw [value_cons, List.length_cons, Nat.pow_succ']
    have hb := b.toNat_lt
    calc b.toNat * 256 ^ l.length + value l < b.toNat * 256 ^ l.length + 256 ^ l.length := by omega
      _ = (b.toNat + 1) * 256 ^ l.length := by ring
      _ ≤ 256 * 256 ^ l.length := Nat.mul_le_mul_right _ hb

theorem toNat_ofNat (v : Nat) : (UInt8.ofNat v).toNat = v % 256 := UInt8.toNat_ofNat'

theorem value_bytes : value (bytes n v) = v % 256 ^ n := by
  induction n generalizing v with
  | zero => rw [bytes, value_nil, Nat.pow_zero, Nat.mod_one]
  | succ n ih =>
    rw [bytes, value_append, ih, value_singleton, List.length_singleton, Nat.pow_one, toNat_ofNat,
      Nat.pow_succ', Nat.mod_mul]
    ring

theorem bytes_value (l : List UInt8) : bytes l.length (value l) = l := by
  induction l using List.reverseRecOn with
  | nil => rfl
  | append_singleton l b ih =>
    have hb := b.toNat_lt
    have hdiv : (value l * 256 + b.toNat) / 256 = value l := by omega
    have hmod : UInt8.ofNat (value l * 256 + b.toNat) = b := by
      rw [← UInt8.toNat_inj, toNat_ofNat]
      omega
    rw [List.length_append, List.length_singleton, value_append, List.length_singleton, Nat.pow_one,
      value_singleton, bytes, hdiv, hmod, ih]

theorem eq_of_value_eq (hlength : l.length = l'.length) (h : value l = value l') : l = l' := by
  rw [← bytes_value l, ← bytes_value l', hlength, h]

/-- The most significant byte comes first. -/
theorem bytes_succ : bytes (n + 1) v = UInt8.ofNat (v / 256 ^ n) :: bytes n v := by
  induction n generalizing v with
  | zero => rw [bytes, bytes, bytes, List.nil_append, Nat.pow_zero, Nat.div_one]
  | succ n ih =>
    rw [bytes, ih, bytes, List.cons_append, Nat.div_div_eq_div_mul, Nat.pow_succ']

theorem value_eq_zero : value l = 0 ↔ ∀ b ∈ l, b = 0 := by
  induction l with
  | nil => exact ⟨fun _ b hb => absurd hb List.not_mem_nil, fun _ => rfl⟩
  | cons b l ih =>
    have hpos : 0 < 256 ^ l.length := Nat.pow_pos (by decide)
    rw [value_cons, Nat.add_eq_zero_iff, Nat.mul_eq_zero, or_iff_left (Nat.ne_of_gt hpos), ih,
      List.forall_mem_cons, ← UInt8.toNat_inj]
    rfl

section Signed

theorem signedValue_nil : signedValue [] = 0 := rfl

/-- The values of the non-empty byte strings of a length. -/
def Fits (n : Nat) (v : Int) : Prop := -(256 ^ n : Int) ≤ 2 * v ∧ 2 * v < 256 ^ n

theorem pow_even (hn : n ≠ 0) : (256 : Int) ^ n = 2 * (128 * 256 ^ (n - 1)) := by
  obtain ⟨n, rfl⟩ := Nat.exists_eq_succ_of_ne_zero hn
  rw [Nat.succ_eq_add_one, Nat.add_sub_cancel, pow_succ]
  ring

theorem signedValue_eq (l : List UInt8) : signedValue l =
    if 2 * value l < 256 ^ l.length then (value l : Int)
    else (value l : Int) - ((256 ^ l.length : Nat) : Int) := by
  have hlt := value_lt l
  have hmod : (value l : Int) % ((256 ^ l.length : Nat) : Int) = value l :=
    Int.emod_eq_of_lt (Int.natCast_nonneg _) (by exact_mod_cast hlt)
  rw [signedValue, Int.bmod, hmod]
  cases l with
  | nil => rfl
  | cons b l =>
    have hcast : ((256 ^ (b :: l).length : Nat) : Int) = 2 * (128 * ((256 ^ l.length : Nat) : Int)) := by
      rw [List.length_cons, Nat.pow_succ]
      push_cast
      ring
    split
    · rw [if_pos (by omega)]
    · rw [if_neg (by omega)]

/-- Two numbers that fit and are equal modulo the power are equal. -/
theorem Fits.eq (hv : Fits n v) (hw : Fits n w) (h : (256 ^ n : Int) ∣ v - w) : v = w := by
  obtain ⟨k, hk⟩ := h
  have hpos : (0 : Int) < 256 ^ n := by positivity
  obtain ⟨hv₁, hv₂⟩ := hv
  obtain ⟨hw₁, hw₂⟩ := hw
  have hk₁ : -1 < k := by
    by_contra hlt
    have hle : k ≤ -1 := by omega
    have := mul_le_mul_of_nonneg_left hle hpos.le
    omega
  have hk₂ : k < 1 := by
    by_contra hlt
    have hle : 1 ≤ k := by omega
    have := mul_le_mul_of_nonneg_left hle hpos.le
    omega
  have hk₀ : k = 0 := by omega
  rw [hk₀, mul_zero] at hk
  omega

theorem fits_signedValue (hl : l ≠ []) : Fits l.length (signedValue l) := by
  have hn : l.length ≠ 0 := fun h => hl (List.length_eq_zero_iff.1 h)
  have hpos : 0 < 256 ^ l.length := Nat.pow_pos (by decide)
  have hlower := Int.le_bmod (x := (value l : Int)) hpos
  have hupper := Int.bmod_lt (x := (value l : Int)) hpos
  have heven := pow_even hn
  rw [signedValue, Fits]
  push_cast at hlower hupper ⊢
  omega

theorem dvd_signedValue (l : List UInt8) :
    (256 ^ l.length : Int) ∣ signedValue l - value l := by
  have h := Int.dvd_bmod_sub_self (x := (value l : Int)) (m := 256 ^ l.length)
  rw [signedValue]
  push_cast at h
  exact h

theorem signedValue_bytes {v : Nat} (hn : n ≠ 0) (hx : Fits n x)
    (h : (256 ^ n : Int) ∣ (v : Int) - x) : signedValue (bytes n v) = x := by
  have hne : bytes n v ≠ [] := by
    rw [← List.length_pos_iff, length_bytes]
    exact Nat.pos_of_ne_zero hn
  have hfits := fits_signedValue hne
  have hdvd := dvd_signedValue (bytes n v)
  rw [length_bytes] at hfits hdvd
  rw [value_bytes] at hdvd
  apply hfits.eq hx
  have hmod : (256 ^ n : Int) ∣ ((v % 256 ^ n : Nat) : Int) - (v : Int) := by
    push_cast
    exact Int.dvd_emod_sub_self
  have hsum := dvd_add (dvd_add hdvd hmod) h
  have heq : signedValue (bytes n v) - ((v % 256 ^ n : Nat) : Int) +
      (((v % 256 ^ n : Nat) : Int) - (v : Int)) + ((v : Int) - x) =
      signedValue (bytes n v) - x := by ring
  rwa [heq] at hsum

theorem eq_of_signedValue_eq (hlength : l.length = l'.length)
    (h : signedValue l = signedValue l') : l = l' := by
  apply eq_of_value_eq hlength
  have hl := dvd_signedValue l
  have hl' := dvd_signedValue l'
  rw [h, hlength] at hl
  have hdvd := dvd_sub hl' hl
  have heq : signedValue l' - (value l' : Int) - (signedValue l' - value l) =
      (value l : Int) - value l' := by ring
  rw [heq] at hdvd
  have hlt := value_lt l
  have hlt' := value_lt l'
  rw [hlength] at hlt
  have hmod := Int.emod_eq_emod_iff_emod_sub_eq_zero.2 (Int.emod_eq_zero_of_dvd hdvd)
  rw [Int.emod_eq_of_lt (Int.natCast_nonneg _) (by exact_mod_cast hlt),
    Int.emod_eq_of_lt (Int.natCast_nonneg _) (by exact_mod_cast hlt')] at hmod
  exact Int.ofNat_inj.1 hmod

end Signed

end BigEndian

end OpenAsip
