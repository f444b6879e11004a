import Mathlib.Data.Nat.Bitwise
import Mathlib.Tactic.NormNum
import OpenAsip.BinaryFormats

namespace OpenAsip
set_option autoImplicit true

namespace HalfFloatWord

/-- The argument is the pattern of the float. -/
def convertFloatToHalfWordRep (u : BitVec 32) : BitVec 16 :=
  let binary16 := (u &&& 0x80000000#32) >>> 16
  let expon := ((u &&& 0x7f800000#32) >>> 23).toNat
  if expon = 255 then (binary16 ||| 0x7e00#32).setWidth 16
  else
    let expon : Int := expon + (15 - 127)
    if expon ≤ 0 then binary16.setWidth 16
    else if 31 ≤ expon then (binary16 ||| 0x7c00#32).setWidth 16
    else
      let binary16 := binary16 ||| BitVec.ofInt 32 expon <<< 10
      let binary16 := binary16 ||| (u &&& 0x007FFFFF#32) >>> 13
      let l := u.sshiftRight 13 &&& 1#32
      let g := u.sshiftRight 12 &&& 1#32
      let r := u.sshiftRight 11 &&& 1#32
      let s := if u &&& 0x7ff#32 ≠ 0#32 then 1#32 else 0#32
      let binary16 :=
        if g ≠ 0#32 ∧ (l ≠ 0#32 ∨ r ≠ 0#32 ∨ s ≠ 0#32) then binary16 + 1#32 else binary16
      binary16.setWidth 16

/-- The fraction of a denormal is shifted up to its hidden bit, which takes ten turns at most. -/
def normalize : Nat → BitVec 32 → BitVec 32 → BitVec 32 × BitVec 32
  | 0, exp, mant => (exp, mant)
  | n + 1, exp, mant =>
    if mant &&& 0x400#32 = 0#32 then normalize n (exp - 1#32) (mant <<< 1) else (exp, mant)

def convertToFloat (value : BitVec 16) : BitVec 32 :=
  let rep := value.setWidth 32
  let sign := (rep &&& 0x8000#32) <<< 16
  let exp := (rep &&& 0x7C00#32) >>> 10
  let mant := rep &&& 0x03FF#32
  if exp = 0x1F#32 then sign ||| 0x7F800000#32 ||| mant <<< 13
  else if exp = 0#32 ∧ mant ≠ 0#32 then
    let (exp, mant) := normalize 10 127#32 mant
    let mant := mant &&& 0x400#32
    sign ||| exp <<< 23 ||| mant <<< 13
  else sign ||| (exp - 15#32 + 127#32) <<< 23 ||| mant <<< 13

def single : BinaryFormat := ⟨8, 23⟩

def half : BinaryFormat := ⟨5, 10⟩

section Bits
variable (u : BitVec 32)

theorem toNat_sign : ((u &&& 0x80000000#32) >>> 16).toNat = u.toNat / 2 ^ 31 * 2 ^ 15 := by
  have hbit : (u.toNat.testBit 31).toNat = u.toNat / 2 ^ 31 := by
    rw [Nat.toNat_testBit, Nat.mod_eq_of_lt]
    exact Nat.div_lt_of_lt_mul u.isLt
  rw [BitVec.toNat_ushiftRight, BitVec.toNat_and, Nat.shiftRight_eq_div_pow]
  change (u.toNat &&& 2 ^ 31) / 2 ^ 16 = _
  rw [Nat.and_two_pow, hbit]
  omega

theorem toNat_expon : ((u &&& 0x7f800000#32) >>> 23).toNat = u.toNat / 2 ^ 23 % 2 ^ 8 := by
  rw [BitVec.toNat_ushiftRight, BitVec.toNat_and, Nat.shiftRight_and_distrib,
    Nat.shiftRight_eq_div_pow]
  exact Nat.and_two_pow_sub_one_eq_mod _ 8

theorem toNat_fraction : ((u &&& 0x007FFFFF#32) >>> 13).toNat = u.toNat / 2 ^ 13 % 2 ^ 10 := by
  rw [BitVec.toNat_ushiftRight, BitVec.toNat_and, Nat.shiftRight_and_distrib,
    Nat.shiftRight_eq_div_pow]
  exact Nat.and_two_pow_sub_one_eq_mod _ 10

theorem sshiftRight_and_one_ne {i : Nat} (hi : i < 32) :
    u.sshiftRight i &&& 1#32 ≠ 0#32 ↔ u.toNat / 2 ^ i % 2 = 1 := by
  have hbit : (u.sshiftRight i).getLsbD 0 = decide (u.toNat / 2 ^ i % 2 = 1) := by
    rw [← Nat.testBit_eq_decide_div_mod_eq, BitVec.getLsbD_sshiftRight]
    simp [hi, BitVec.getLsbD]
  rw [BitVec.and_one_eq_setWidth_ofBool_getLsbD, hbit]
  by_cases h : u.toNat / 2 ^ i % 2 = 1
  · simp [h]
  · simp [h]

theorem sticky_ne : u &&& 0x7ff#32 ≠ 0#32 ↔ u.toNat % 2 ^ 11 ≠ 0 := by
  rw [ne_eq, ne_eq, ← BitVec.toNat_inj, BitVec.toNat_and]
  change ¬ u.toNat &&& (2 ^ 11 - 1) = 0 ↔ _
  rw [Nat.and_two_pow_sub_one_eq_mod]

end Bits

/-- The bits of a float below those that stay. -/
def carry (u : Nat) : Nat :=
  if 2 ^ 12 < u % 2 ^ 13 ∨ u % 2 ^ 13 = 2 ^ 12 ∧ u / 2 ^ 13 % 2 = 1 then 1 else 0

theorem or_toNat {a b : BitVec w} {i k : Nat} (ha : a.toNat = k * 2 ^ i) (hb : b.toNat < 2 ^ i) :
    (a ||| b).toNat = a.toNat + b.toNat := by
  rw [BitVec.toNat_or, ha, Nat.mul_comm, Nat.two_pow_add_eq_or_of_lt hb]

section Convert
variable {u : BitVec 32}

theorem convert_special (h : u.toNat / 2 ^ 23 % 2 ^ 8 = 255) :
    (convertFloatToHalfWordRep u).toNat = u.toNat / 2 ^ 31 * 2 ^ 15 + 0x7e00 := by
  rw [convertFloatToHalfWordRep]
  simp only [toNat_expon, h, if_true]
  rw [BitVec.toNat_setWidth, or_toNat (toNat_sign u) (by decide), toNat_sign]
  have hu := u.isLt
  rw [Nat.mod_eq_of_lt]
  · rfl
  · simp only [BitVec.toNat_ofNat]
    omega

theorem convert_underflow (h : u.toNat / 2 ^ 23 % 2 ^ 8 ≤ 112) :
    (convertFloatToHalfWordRep u).toNat = u.toNat / 2 ^ 31 * 2 ^ 15 := by
  rw [convertFloatToHalfWordRep]
  simp only [toNat_expon]
  rw [if_neg (by omega), if_pos (by omega), BitVec.toNat_setWidth, toNat_sign]
  have hu := u.isLt
  omega

theorem convert_overflow (h : 143 ≤ u.toNat / 2 ^ 23 % 2 ^ 8)
    (h' : u.toNat / 2 ^ 23 % 2 ^ 8 < 255) :
    (convertFloatToHalfWordRep u).toNat = u.toNat / 2 ^ 31 * 2 ^ 15 + 0x7c00 := by
  rw [convertFloatToHalfWordRep]
  simp only [toNat_expon]
  rw [if_neg (by omega), if_neg (by omega), if_pos (by omega), BitVec.toNat_setWidth,
    or_toNat (toNat_sign u) (by decide), toNat_sign]
  have hu := u.isLt
  rw [Nat.mod_eq_of_lt]
  · rfl
  · simp only [BitVec.toNat_ofNat]
    omega

theorem convert_normal (h : 113 ≤ u.toNat / 2 ^ 23 % 2 ^ 8)
    (h' : u.toNat / 2 ^ 23 % 2 ^ 8 < 143) :
    (convertFloatToHalfWordRep u).toNat = u.toNat / 2 ^ 31 * 2 ^ 15 +
      ((u.toNat / 2 ^ 23 % 2 ^ 8 - 112) * 2 ^ 10 + u.toNat / 2 ^ 13 % 2 ^ 10 +
        carry u.toNat) := by
  have hu := u.isLt
  have hexpon : (BitVec.ofInt 32 (((u.toNat / 2 ^ 23 % 2 ^ 8 : Nat) : Int) + (15 - 127)) <<<
      10).toNat = (u.toNat / 2 ^ 23 % 2 ^ 8 - 112) * 2 ^ 10 := by
    rw [show ((u.toNat / 2 ^ 23 % 2 ^ 8 : Nat) : Int) + (15 - 127) =
      ((u.toNat / 2 ^ 23 % 2 ^ 8 - 112 : Nat) : Int) by omega, BitVec.ofInt_natCast,
      BitVec.toNat_shiftLeft, BitVec.toNat_ofNat, Nat.shiftLeft_eq]
    omega
  have hhigh : ((u &&& 0x80000000#32) >>> 16 |||
      BitVec.ofInt 32 (((u.toNat / 2 ^ 23 % 2 ^ 8 : Nat) : Int) + (15 - 127)) <<< 10).toNat =
      (u.toNat / 2 ^ 31 * 2 ^ 5 + (u.toNat / 2 ^ 23 % 2 ^ 8 - 112)) * 2 ^ 10 := by
    rw [or_toNat (toNat_sign u) (by rw [hexpon]; omega), toNat_sign, hexpon]
    omega
  have hall := or_toNat hhigh (b := (u &&& 0x007FFFFF#32) >>> 13)
    (by rw [toNat_fraction]; exact Nat.mod_lt _ (by decide))
  rw [hhigh, toNat_fraction] at hall
  have hcarry : (u.sshiftRight 12 &&& 1#32 ≠ 0#32 ∧ (u.sshiftRight 13 &&& 1#32 ≠ 0#32 ∨
      u.sshiftRight 11 &&& 1#32 ≠ 0#32 ∨
      (if u &&& 0x7ff#32 ≠ 0#32 then 1#32 else 0#32) ≠ 0#32)) ↔
      2 ^ 12 < u.toNat % 2 ^ 13 ∨ u.toNat % 2 ^ 13 = 2 ^ 12 ∧ u.toNat / 2 ^ 13 % 2 = 1 := by
    have hs : ((if u &&& 0x7ff#32 ≠ 0#32 then 1#32 else 0#32) ≠ 0#32) ↔ u.toNat % 2 ^ 11 ≠ 0 := by
      rw [← sticky_ne]
      by_cases hs : u &&& 0x7ff#32 = 0#32
      · simp [hs]
      · simp [hs]
    rw [hs, sshiftRight_and_one_ne u (by decide), sshiftRight_and_one_ne u (by decide),
      sshiftRight_and_one_ne u (by decide)]
    omega
  rw [convertFloatToHalfWordRep]
  simp only [toNat_expon]
  rw [if_neg (by omega), if_neg (by omega), if_neg (by omega)]
  simp only [hcarry]
  rw [carry]
  by_cases hc : 2 ^ 12 < u.toNat % 2 ^ 13 ∨ u.toNat % 2 ^ 13 = 2 ^ 12 ∧ u.toNat / 2 ^ 13 % 2 = 1
  · rw [if_pos hc, if_pos hc, BitVec.toNat_setWidth, BitVec.toNat_add, hall]
    simp only [BitVec.toNat_ofNat]
    omega
  · rw [if_neg hc, if_neg hc, BitVec.toNat_setWidth, hall]
    omega

end Convert

section Widen
variable (value : BitVec 16)

theorem toNat_widenSign :
    ((value.setWidth 32 &&& 0x8000#32) <<< 16).toNat = value.toNat / 2 ^ 15 * 2 ^ 31 := by
  have hv := value.isLt
  have hbit : (value.toNat.testBit 15).toNat = value.toNat / 2 ^ 15 := by
    rw [Nat.toNat_testBit, Nat.mod_eq_of_lt]
    exact Nat.div_lt_of_lt_mul hv
  rw [BitVec.toNat_shiftLeft, BitVec.toNat_and, BitVec.toNat_setWidth, Nat.shiftLeft_eq,
    Nat.mod_eq_of_lt (Nat.lt_trans hv (by decide))]
  change (value.toNat &&& 2 ^ 15) * 2 ^ 16 % 2 ^ 32 = _
  rw [Nat.and_two_pow, hbit]
  omega

theorem toNat_widenExp :
    ((value.setWidth 32 &&& 0x7C00#32) >>> 10).toNat = value.toNat / 2 ^ 10 % 2 ^ 5 := by
  rw [BitVec.toNat_ushiftRight, BitVec.toNat_and, BitVec.toNat_setWidth,
    Nat.mod_eq_of_lt (Nat.lt_trans value.isLt (by decide)), Nat.shiftRight_and_distrib,
    Nat.shiftRight_eq_div_pow]
  exact Nat.and_two_pow_sub_one_eq_mod _ 5

theorem toNat_widenMant : (value.setWidth 32 &&& 0x03FF#32).toNat = value.toNat % 2 ^ 10 := by
  rw [BitVec.toNat_and, BitVec.toNat_setWidth,
    Nat.mod_eq_of_lt (Nat.lt_trans value.isLt (by decide))]
  exact Nat.and_two_pow_sub_one_eq_mod _ 10

theorem toNat_widenShifted :
    ((value.setWidth 32 &&& 0x03FF#32) <<< 13).toNat = value.toNat % 2 ^ 10 * 2 ^ 13 := by
  rw [BitVec.toNat_shiftLeft, toNat_widenMant, Nat.shiftLeft_eq]
  omega

end Widen

section ToFloat
variable {value : BitVec 16}

theorem toFloat_special (h : value.toNat / 2 ^ 10 % 2 ^ 5 = 31) :
    (convertToFloat value).toNat =
      value.toNat / 2 ^ 15 * 2 ^ 31 + 0x7F800000 + value.toNat % 2 ^ 10 * 2 ^ 13 := by
  have hv := value.isLt
  have hexp : (value.setWidth 32 &&& 0x7C00#32) >>> 10 = 0x1F#32 := by
    rw [← BitVec.toNat_inj, toNat_widenExp, h]
    rfl
  have hhigh : ((value.setWidth 32 &&& 0x8000#32) <<< 16 ||| 0x7F800000#32).toNat =
      (value.toNat / 2 ^ 15 * 2 ^ 8 + 255) * 2 ^ 23 := by
    rw [or_toNat (toNat_widenSign value) (by decide), toNat_widenSign, BitVec.toNat_ofNat]
    omega
  rw [convertToFloat]
  simp only [hexp, if_true]
  rw [or_toNat hhigh (by rw [toNat_widenShifted]; omega), hhigh, toNat_widenShifted]
  omega

theorem toFloat_normal (h : value.toNat / 2 ^ 10 % 2 ^ 5 < 31)
    (h' : value.toNat / 2 ^ 10 % 2 ^ 5 = 0 → value.toNat % 2 ^ 10 = 0) :
    (convertToFloat value).toNat = value.toNat / 2 ^ 15 * 2 ^ 31 +
      ((value.toNat / 2 ^ 10 % 2 ^ 5 + 112) * 2 ^ 23 + value.toNat % 2 ^ 10 * 2 ^ 13) := by
  have hv := value.isLt
  have hspecial : (value.setWidth 32 &&& 0x7C00#32) >>> 10 ≠ 0x1F#32 := by
    rw [ne_eq, ← BitVec.toNat_inj, toNat_widenExp]
    exact Nat.ne_of_lt h
  have hdenormal : ¬ ((value.setWidth 32 &&& 0x7C00#32) >>> 10 = 0#32 ∧
      value.setWidth 32 &&& 0x03FF#32 ≠ 0#32) := by
    rw [ne_eq, ← BitVec.toNat_inj, ← BitVec.toNat_inj, toNat_widenExp, toNat_widenMant]
    exact fun hz => hz.2 (h' hz.1)
  have hexp : (((value.setWidth 32 &&& 0x7C00#32) >>> 10 - 15#32 + 127#32) <<< 23).toNat =
      (value.toNat / 2 ^ 10 % 2 ^ 5 + 112) * 2 ^ 23 := by
    rw [BitVec.toNat_shiftLeft, BitVec.toNat_add, BitVec.toNat_sub, toNat_widenExp,
      Nat.shiftLeft_eq]
    simp only [BitVec.toNat_ofNat]
    omega
  have hhigh : ((value.setWidth 32 &&& 0x8000#32) <<< 16 |||
      ((value.setWidth 32 &&& 0x7C00#32) >>> 10 - 15#32 + 127#32) <<< 23).toNat =
      (value.toNat / 2 ^ 15 * 2 ^ 8 + (value.toNat / 2 ^ 10 % 2 ^ 5 + 112)) * 2 ^ 23 := by
    rw [or_toNat (toNat_widenSign value) (by rw [hexp]; omega), toNat_widenSign, hexp]
    omega
  rw [convertToFloat]
  simp only [if_neg hspecial, if_neg hdenormal]
  rw [or_toNat hhigh (by rw [toNat_widenShifted]; omega), hhigh, toNat_widenShifted]
  omega

end ToFloat

/-- The result has the sign of the number and is its image, rounded if it is finite. -/
def IsImage (r : BitVec 16) : FloatNumber → Prop
  | .nan => True
  | .infinite negative => half.denotes r.toNat = .infinite negative
  | .finite negative x =>
    r.toNat.testBit half.signBit = negative ∧ half.RoundsTo x (r.toNat % 2 ^ half.signBit)

/-- Zero, infinite, or finite and at least 2^-14 in magnitude. -/
def Covered : FloatNumber → Prop
  | .nan => False
  | .infinite _ => True
  | .finite _ x => x = 0 ∨ 1 / 2 ^ 14 ≤ x

/-- The conversion rounds, the way back keeps the number, and there and back again nothing
changes. -/
structure Converts (u : BitVec 32) : Prop where
  image : IsImage (convertFloatToHalfWordRep u) (single.denotes u.toNat)
  back : single.denotes (convertToFloat (convertFloatToHalfWordRep u)).toNat =
    half.denotes (convertFloatToHalfWordRep u).toNat
  again : convertFloatToHalfWordRep (convertToFloat (convertFloatToHalfWordRep u)) =
    convertFloatToHalfWordRep u

section Magnitudes

/-- The unit of both formats for an exponent of the half-precision format. -/
def unit (e : Nat) : ℚ := 2 ^ (e - 1) / 2 ^ 37

theorem unit_pos (e : Nat) : 0 < unit e := by
  rw [unit]
  positivity

theorem unit_lt_iff {e a b : Nat} : (a : ℚ) * unit e < b * unit e ↔ a < b :=
  (mul_lt_mul_iff_left₀ (unit_pos e)).trans Nat.cast_lt

theorem unit_inj {e a b : Nat} : (a : ℚ) * unit e = b * unit e ↔ a = b :=
  (mul_left_inj' (unit_pos e).ne').trans Nat.cast_inj

theorem half_magnitude {e m : Nat} (he : 0 < e) (hm : m ≤ 2 ^ 10) :
    half.magnitude (e * 2 ^ 10 + m) = ((2 ^ 10 + m) * 2 ^ 13 : Nat) * unit e := by
  have hunits : half.units (e * 2 ^ 10 + m) = (2 ^ 10 + m) * 2 ^ (e - 1) :=
    BinaryFormat.units_normal (f := half) he hm
  rw [BinaryFormat.magnitude, hunits, unit, show half.bias + half.fractionWidth - 1 = 24 from rfl]
  push_cast
  ring

theorem single_magnitude {e m : Nat} (he : 0 < e) (hm : m ≤ 2 ^ 23) :
    single.magnitude ((e + 112) * 2 ^ 23 + m) = (2 ^ 23 + m : Nat) * unit e := by
  have hunits : single.units ((e + 112) * 2 ^ 23 + m) = (2 ^ 23 + m) * 2 ^ (e + 112 - 1) :=
    BinaryFormat.units_normal (f := single) (Nat.lt_of_lt_of_le he (Nat.le_add_right e 112)) hm
  rw [BinaryFormat.magnitude, hunits, unit,
    show single.bias + single.fractionWidth - 1 = 149 from rfl,
    show e + 112 - 1 = (e - 1) + 112 by omega, Nat.pow_add]
  push_cast
  ring

theorem single_magnitude_zero : single.magnitude 0 = 0 := by
  rw [BinaryFormat.magnitude, BinaryFormat.units_subnormal (Nat.zero_le _)]
  simp

theorem single_magnitude_least : single.magnitude (113 * 2 ^ 23) = 1 / 2 ^ 14 := by
  have h := single_magnitude (e := 1) (m := 0) (by decide) (by decide)
  rw [unit] at h
  norm_num at h ⊢
  exact h

theorem single_magnitude_overflow : single.magnitude (143 * 2 ^ 23) = 65536 := by
  have h := single_magnitude (e := 31) (m := 0) (by decide) (by decide)
  rw [unit] at h
  norm_num at h ⊢
  exact h

theorem half_overflow : half.overflow = 65520 := by
  have hlast := half_magnitude (e := 30) (m := 1023) (by decide) (by decide)
  have hinf := half_magnitude (e := 31) (m := 0) (by decide) (by decide)
  rw [unit] at hlast hinf
  rw [BinaryFormat.overflow, show half.infinity - 1 = 30 * 2 ^ 10 + 1023 from rfl,
    show half.infinity = 31 * 2 ^ 10 + 0 from rfl, hlast, hinf]
  norm_num

/-- The bits that the conversion keeps, and the carry from the others, round the magnitude. -/
theorem roundsTo_kept {e m : Nat} (he : 0 < e) (he' : e < 31) (hm : m < 2 ^ 23) :
    half.RoundsTo (single.magnitude ((e + 112) * 2 ^ 23 + m))
      (e * 2 ^ 10 + m / 2 ^ 13 + carry m) := by
  have hunit := unit_pos e
  have hh : m / 2 ^ 13 < 2 ^ 10 := by omega
  have hx := single_magnitude he (Nat.le_of_lt hm)
  have hlow := half_magnitude he (Nat.le_of_lt hh)
  have hhigh := half_magnitude he (show m / 2 ^ 13 + 1 ≤ 2 ^ 10 from hh)
  rw [← Nat.add_assoc] at hhigh
  have hround := BinaryFormat.roundsTo_of_between (f := half) (k := e * 2 ^ 10 + m / 2 ^ 13)
    (x := single.magnitude ((e + 112) * 2 ^ 23 + m)) (by decide)
    (by change _ < 31 * 2 ^ 10; omega)
    (by
      rw [hx, hlow]
      exact mul_le_mul_of_nonneg_right (by exact_mod_cast by omega) hunit.le)
    (by
      rw [hx, hhigh]
      exact mul_lt_mul_of_pos_right (by exact_mod_cast by omega) hunit)
  have hsum : half.magnitude (e * 2 ^ 10 + m / 2 ^ 13) +
      half.magnitude (e * 2 ^ 10 + m / 2 ^ 13 + 1) =
      ((2 ^ 10 + m / 2 ^ 13) * 2 ^ 13 + (2 ^ 10 + (m / 2 ^ 13 + 1)) * 2 ^ 13 : Nat) * unit e := by
    rw [hlow, hhigh, ← add_mul, ← Nat.cast_add]
  have htwice : 2 * single.magnitude ((e + 112) * 2 ^ 23 + m) =
      (2 * (2 ^ 23 + m) : Nat) * unit e := by
    rw [hx, Nat.cast_mul, mul_assoc]
    rfl
  have hcarry : half.magnitude (e * 2 ^ 10 + m / 2 ^ 13) +
        half.magnitude (e * 2 ^ 10 + m / 2 ^ 13 + 1) <
          2 * single.magnitude ((e + 112) * 2 ^ 23 + m) ∨
      2 * single.magnitude ((e + 112) * 2 ^ 23 + m) =
        half.magnitude (e * 2 ^ 10 + m / 2 ^ 13) + half.magnitude (e * 2 ^ 10 + m / 2 ^ 13 + 1) ∧
        (e * 2 ^ 10 + m / 2 ^ 13) % 2 = 1 ↔
      2 ^ 12 < m % 2 ^ 13 ∨ m % 2 ^ 13 = 2 ^ 12 ∧ m / 2 ^ 13 % 2 = 1 := by
    rw [hsum, htwice, unit_lt_iff, unit_inj]
    omega
  have hkept : ∀ k, (if 2 ^ 12 < m % 2 ^ 13 ∨ m % 2 ^ 13 = 2 ^ 12 ∧ m / 2 ^ 13 % 2 = 1 then k + 1
      else k) = k + carry m := by
    intro k
    rw [carry, add_ite, Nat.add_zero k]
  rw [if_congr hcarry rfl rfl, hkept] at hround
  exact hround

end Magnitudes

/-- Neither zero nor rounded to infinity. -/
def Bounded : FloatNumber → Prop
  | .nan => False
  | .infinite _ => False
  | .finite _ x => x ≠ 0 ∧ x < 65520

section Cases
variable {u : BitVec 32}

theorem single_denotes (h : u.toNat % 2 ^ 31 < 255 * 2 ^ 23) :
    single.denotes u.toNat = .finite (u.toNat.testBit 31) (single.magnitude (u.toNat % 2 ^ 31)) :=
  if_pos h

theorem half_denotes {r : BitVec 16} (h : r.toNat % 2 ^ 15 < 31 * 2 ^ 10) :
    half.denotes r.toNat = .finite (r.toNat.testBit 15) (half.magnitude (r.toNat % 2 ^ 15)) :=
  if_pos h

/-- A result that is infinite is not kept by a second conversion. -/
theorem not_again {r : BitVec 16} (h : r.toNat % 2 ^ 15 = 0x7c00) :
    convertFloatToHalfWordRep (convertToFloat r) ≠ r := by
  have hr := r.isLt
  have hspecial : r.toNat / 2 ^ 10 % 2 ^ 5 = 31 := by omega
  have hback := toFloat_special hspecial
  intro he
  have hagain := convert_special (u := convertToFloat r) (by rw [hback]; omega)
  rw [he, hback] at hagain
  omega

theorem infinite_not_converts (h : u.toNat % 2 ^ 31 = 255 * 2 ^ 23) : ¬ Converts u := by
  rintro ⟨himage, -, -⟩
  have hu := u.isLt
  have hr := convert_special (u := u) (by omega)
  have hdenotes : single.denotes u.toNat = .infinite (u.toNat.testBit 31) := by
    refine (if_neg ?_).trans (if_pos h)
    change ¬ u.toNat % 2 ^ 31 < 255 * 2 ^ 23
    omega
  rw [hdenotes] at himage
  have hnan : half.denotes (convertFloatToHalfWordRep u).toNat = .nan := by
    refine (if_neg ?_).trans (if_neg ?_)
    · change ¬ (convertFloatToHalfWordRep u).toNat % 2 ^ 15 < 31 * 2 ^ 10
      omega
    · change ¬ (convertFloatToHalfWordRep u).toNat % 2 ^ 15 = 31 * 2 ^ 10
      omega
  rw [IsImage, hnan] at himage
  cases himage

theorem zero_not_converts (h : u.toNat % 2 ^ 31 = 0) : ¬ Converts u := by
  rintro ⟨-, hback, -⟩
  have hu := u.isLt
  have hr := convert_underflow (u := u) (by omega)
  have hexp : (convertFloatToHalfWordRep u).toNat / 2 ^ 10 % 2 ^ 5 < 31 := by omega
  have hf := toFloat_normal hexp (by omega)
  rw [half_denotes (by omega), single_denotes (by omega)] at hback
  obtain ⟨-, hmag⟩ := FloatNumber.finite.inj hback
  rw [show (convertToFloat (convertFloatToHalfWordRep u)).toNat % 2 ^ 31 = 112 * 2 ^ 23 by omega,
    show (convertFloatToHalfWordRep u).toNat % 2 ^ 15 = 0 by omega] at hmag
  have hpos : single.magnitude 0 < single.magnitude (112 * 2 ^ 23) :=
    BinaryFormat.magnitude_strictMono (by decide)
  rw [hmag, single_magnitude_zero, BinaryFormat.magnitude,
    BinaryFormat.units_subnormal (Nat.zero_le _)] at hpos
  simp at hpos

theorem large_not_converts (h : 143 ≤ u.toNat / 2 ^ 23 % 2 ^ 8)
    (h' : u.toNat / 2 ^ 23 % 2 ^ 8 < 255) : ¬ Converts u := by
  rintro ⟨-, -, hagain⟩
  have hr := convert_overflow h h'
  have hu := u.isLt
  exact not_again (by omega) hagain

theorem rounded_image (h : 113 ≤ u.toNat / 2 ^ 23 % 2 ^ 8) (h' : u.toNat / 2 ^ 23 % 2 ^ 8 < 143) :
    half.RoundsTo (single.magnitude (u.toNat % 2 ^ 31))
      ((convertFloatToHalfWordRep u).toNat % 2 ^ 15) := by
  have hu := u.isLt
  have hr := convert_normal h h'
  have hround := roundsTo_kept (e := u.toNat / 2 ^ 23 % 2 ^ 8 - 112) (m := u.toNat % 2 ^ 23)
    (by omega) (by omega) (Nat.mod_lt _ (by decide))
  have hcarry : carry (u.toNat % 2 ^ 23) = carry u.toNat := by
    rw [carry, carry]
    exact if_congr (by omega) rfl rfl
  have hle : carry u.toNat ≤ 1 := by
    rw [carry]
    split <;> decide
  rw [hcarry] at hround
  have hkept : (convertFloatToHalfWordRep u).toNat % 2 ^ 15 =
      (u.toNat / 2 ^ 23 % 2 ^ 8 - 112) * 2 ^ 10 + u.toNat % 2 ^ 23 / 2 ^ 13 + carry u.toNat := by
    omega
  have hmagnitude : u.toNat % 2 ^ 31 =
      (u.toNat / 2 ^ 23 % 2 ^ 8 - 112 + 112) * 2 ^ 23 + u.toNat % 2 ^ 23 := by
    omega
  rw [hkept, hmagnitude]
  exact hround

theorem bounded_iff (h : 113 ≤ u.toNat / 2 ^ 23 % 2 ^ 8) (h' : u.toNat / 2 ^ 23 % 2 ^ 8 < 143) :
    single.magnitude (u.toNat % 2 ^ 31) < 65520 ↔
      (convertFloatToHalfWordRep u).toNat % 2 ^ 15 < 0x7c00 := by
  have hround := rounded_image h h'
  rw [BinaryFormat.RoundsTo, half_overflow] at hround
  constructor
  · intro hlt
    rw [if_pos hlt] at hround
    exact hround.1
  · intro hlt
    by_contra hge
    rw [if_neg hge] at hround
    exact Nat.ne_of_lt hlt hround

/-- The way back from a normal number keeps what it denotes. -/
theorem normal_back {r : BitVec 16} (hpos : 0 < r.toNat / 2 ^ 10 % 2 ^ 5)
    (hlt : r.toNat / 2 ^ 10 % 2 ^ 5 < 31) :
    single.denotes (convertToFloat r).toNat = half.denotes r.toNat := by
  have hr := r.isLt
  have hf := toFloat_normal hlt (fun hz => (Nat.ne_of_gt hpos hz).elim)
  have hhalf := half_magnitude hpos (Nat.le_of_lt (Nat.mod_lt r.toNat (by decide : 0 < 2 ^ 10)))
  have hsingle := single_magnitude (m := r.toNat % 2 ^ 10 * 2 ^ 13) hpos (by omega)
  rw [single_denotes (by omega), half_denotes (by omega), FloatNumber.finite.injEq]
  constructor
  · rw [Nat.testBit_eq_decide_div_mod_eq, Nat.testBit_eq_decide_div_mod_eq, decide_eq_decide]
    omega
  · rw [show (convertToFloat r).toNat % 2 ^ 31 =
        (r.toNat / 2 ^ 10 % 2 ^ 5 + 112) * 2 ^ 23 + r.toNat % 2 ^ 10 * 2 ^ 13 by omega,
      show r.toNat % 2 ^ 15 = r.toNat / 2 ^ 10 % 2 ^ 5 * 2 ^ 10 + r.toNat % 2 ^ 10 by omega,
      hhalf, hsingle, unit_inj]
    omega

/-- No bit is lost when a normal number is converted there and back. -/
theorem normal_again {r : BitVec 16} (hpos : 0 < r.toNat / 2 ^ 10 % 2 ^ 5)
    (hlt : r.toNat / 2 ^ 10 % 2 ^ 5 < 31) :
    convertFloatToHalfWordRep (convertToFloat r) = r := by
  have hr := r.isLt
  have hf := toFloat_normal hlt (fun hz => (Nat.ne_of_gt hpos hz).elim)
  have hagain := convert_normal (u := convertToFloat r) (by omega) (by omega)
  have hcarry : carry (convertToFloat r).toNat = 0 := by
    rw [carry]
    exact if_neg (by omega)
  rw [← BitVec.toNat_inj, hagain, hcarry]
  omega

/-- A rounded number that is finite is kept by the way back, and again by the conversion. -/
theorem rounded_kept (h : 113 ≤ u.toNat / 2 ^ 23 % 2 ^ 8) (h' : u.toNat / 2 ^ 23 % 2 ^ 8 < 143)
    (hr : (convertFloatToHalfWordRep u).toNat % 2 ^ 15 < 0x7c00) : Converts u := by
  have hu := u.isLt
  have hbits := convert_normal h h'
  have hround := rounded_image h h'
  have hcarry : carry u.toNat ≤ 1 := by
    rw [carry]
    split <;> decide
  have hpos : 0 < (convertFloatToHalfWordRep u).toNat / 2 ^ 10 % 2 ^ 5 := by omega
  have hlt : (convertFloatToHalfWordRep u).toNat / 2 ^ 10 % 2 ^ 5 < 31 := by omega
  refine ⟨?_, normal_back hpos hlt, normal_again hpos hlt⟩
  rw [single_denotes (by omega)]
  refine ⟨?_, hround⟩
  change (convertFloatToHalfWordRep u).toNat.testBit 15 = u.toNat.testBit 31
  rw [Nat.testBit_eq_decide_div_mod_eq, Nat.testBit_eq_decide_div_mod_eq, decide_eq_decide]
  omega

theorem converts_iff (u : BitVec 32) (h : Covered (single.denotes u.toNat)) :
    Converts u ↔ Bounded (single.denotes u.toNat) := by
  have hu := u.isLt
  rcases Nat.lt_trichotomy (u.toNat % 2 ^ 31) (255 * 2 ^ 23) with hfinite | hinf | hnan
  · have hdenotes := single_denotes hfinite
    rw [hdenotes] at h ⊢
    rcases h with hzero | hleast
    · rw [← single_magnitude_zero, BinaryFormat.magnitude_strictMono.injective.eq_iff] at hzero
      refine iff_of_false (zero_not_converts hzero) fun hb => hb.1 ?_
      rw [hzero, single_magnitude_zero]
    · rw [← single_magnitude_least, BinaryFormat.magnitude_strictMono.le_iff_le] at hleast
      rcases Nat.lt_or_ge (u.toNat / 2 ^ 23 % 2 ^ 8) 143 with hlt | hge
      · have hexpon : 113 ≤ u.toNat / 2 ^ 23 % 2 ^ 8 := by omega
        constructor
        · intro hc
          refine ⟨?_, (bounded_iff hexpon hlt).2 ?_⟩
          · have hpos : single.magnitude 0 < single.magnitude (u.toNat % 2 ^ 31) :=
              BinaryFormat.magnitude_strictMono (by omega)
            rw [single_magnitude_zero] at hpos
            exact hpos.ne'
          · by_contra hinf
            have hround := (rounded_image hexpon hlt)
            rw [BinaryFormat.RoundsTo] at hround
            have heq : (convertFloatToHalfWordRep u).toNat % 2 ^ 15 = 0x7c00 := by
              split at hround
              · exact (hinf hround.1).elim
              · exact hround
            exact not_again heq hc.again
        · intro hb
          exact rounded_kept hexpon hlt ((bounded_iff hexpon hlt).1 hb.2)
      · refine iff_of_false (large_not_converts hge (by omega)) fun hb => ?_
        have hmono := (BinaryFormat.magnitude_strictMono (f := single)).monotone
          (show 143 * 2 ^ 23 ≤ u.toNat % 2 ^ 31 by omega)
        rw [single_magnitude_overflow] at hmono
        exact absurd hb.2 (by linarith)
  · have hdenotes : single.denotes u.toNat = .infinite (u.toNat.testBit 31) := by
      refine (if_neg ?_).trans (if_pos hinf)
      change ¬ u.toNat % 2 ^ 31 < 255 * 2 ^ 23
      omega
    rw [hdenotes]
    exact iff_of_false (infinite_not_converts hinf) id
  · have hdenotes : single.denotes u.toNat = .nan := by
      refine (if_neg ?_).trans (if_neg ?_)
      · change ¬ u.toNat % 2 ^ 31 < 255 * 2 ^ 23
        omega
      · change ¬ u.toNat % 2 ^ 31 = 255 * 2 ^ 23
        omega
    rw [hdenotes] at h
    exact h.elim

/-- One is rounded to itself, and kept. -/
theorem one_converts_iff :
    Covered (single.denotes (0x3f800000#32).toNat) ∧
      (Converts 0x3f800000#32 ↔ Bounded (single.denotes (0x3f800000#32).toNat)) := by
  have h : Covered (single.denotes (0x3f800000#32).toNat) := by
    rw [single_denotes (by decide)]
    right
    rw [← single_magnitude_least, BinaryFormat.magnitude_strictMono.le_iff_le]
    decide
  exact ⟨h, converts_iff _ h⟩

/-- Infinity becomes a NaN, zero comes back as 2^-15, and 65520 is infinite once and a NaN the
second time. -/
theorem infinity_zero_overflow_not_converts :
    ¬ Converts 0x7f800000#32 ∧ ¬ Converts 0#32 ∧ ¬ Converts 0x477ff000#32 :=
  ⟨infinite_not_converts (by decide), zero_not_converts (by decide),
    fun h => absurd h.again (by decide)⟩

end Cases

end HalfFloatWord
end OpenAsip
