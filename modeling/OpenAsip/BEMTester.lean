import OpenAsip.MathTools
import OpenAsip.PrefixCodes

namespace OpenAsip
set_option autoImplicit true

namespace Bem
open MathTools

/-- `BinaryEncoding::Position`. -/
inductive Position where
  | left
  | right
deriving DecidableEq, Repr

/-- An `unsigned` encoding with its number of extra zero bits. Its width is an `int`. -/
structure Encoding where
  encoding : Nat
  extraBits : Nat
  encoding_lt : encoding < 2 ^ 32 := by decide
  width_lt : bitLength encoding + extraBits < 2 ^ 31 := by decide
deriving DecidableEq

namespace Encoding

def width (e : Encoding) : Nat := bitLength e.encoding + e.extraBits

/-- The bits of the encoding, most significant bit first. -/
def bits (e : Encoding) : List Bool := toBits e.width e.encoding

@[simp] theorem length_bits (e : Encoding) : e.bits.length = e.width := length_toBits _ _

theorem encoding_lt_width (e : Encoding) : e.encoding < 2 ^ e.width :=
  Nat.lt_of_lt_of_le (lt_two_pow_bitLength e.encoding)
    (Nat.pow_le_pow_right Nat.two_pos (Nat.le_add_right _ _))

end Encoding

/-- A loop over encodings that finds the largest width. -/
def maxWidth (width : Nat) (widths : List Nat) : Nat :=
  widths.foldl (fun width w => if width < w then w else width) width

theorem le_maxWidth (width : Nat) (widths : List Nat) :
    width ≤ maxWidth width widths ∧ ∀ w ∈ widths, w ≤ maxWidth width widths := by
  induction widths generalizing width with
  | nil => exact ⟨Nat.le_refl _, fun _ h => (List.not_mem_nil h).elim⟩
  | cons v widths ih =>
    obtain ⟨hle, hall⟩ := ih (if width < v then v else width)
    have hv : v ≤ maxWidth width (v :: widths) := by
      apply Nat.le_trans _ hle
      split <;> omega
    refine ⟨?_, ?_⟩
    · apply Nat.le_trans _ hle
      split <;> omega
    · intro w hw
      rcases List.mem_cons.1 hw with rfl | hw
      · exact hv
      · exact hall w hw

/-- Two codes read from one end of a field cannot be told apart. -/
def Ambiguous (position : Position) (a b : Encoding) : Prop :=
  match position with
  | .left => a.bits <+: b.bits ∨ b.bits <+: a.bits
  | .right => a.bits <:+ b.bits ∨ b.bits <:+ a.bits

instance (position : Position) (a b : Encoding) : Decidable (Ambiguous position a b) :=
  match position with
  | .left => inferInstanceAs (Decidable (a.bits <+: b.bits ∨ b.bits <+: a.bits))
  | .right => inferInstanceAs (Decidable (a.bits <:+ b.bits ∨ b.bits <:+ a.bits))

theorem Ambiguous.symm (h : Ambiguous position a b) : Ambiguous position b a := by
  cases position with
  | left => exact Or.symm h
  | right => exact Or.symm h

namespace BEMTester

/-- The loop of `BEMTester::commonBitCount`. -/
def commonBitCountLoop (enc1 enc2 width1 width2 : Nat) : Nat → Nat → Nat → Nat → Outcome Nat
  | 0, _, _, commonBits => .ok commonBits
  | fuel + 1, enc1Offset, enc2Offset, commonBits =>
    if enc1Offset < width1 ∧ enc2Offset < width2 then do
      let bit1 ← bit enc1 enc1Offset
      let bit2 ← bit enc2 enc2Offset
      commonBitCountLoop enc1 enc2 width1 width2 fuel (enc1Offset + 1) (enc2Offset + 1)
        (if bit1 = bit2 then commonBits + 1 else commonBits)
    else .ok commonBits

/-- The number of common bits when the second encoding has `alignment` bits to the right of the
first one. -/
def commonBitCount (enc1 enc2 : Encoding) (alignment : Int) : Outcome Nat :=
  commonBitCountLoop enc1.encoding enc2.encoding enc1.width enc2.width enc1.width
    (-alignment).toNat alignment.toNat 0

def calculateAlignment (enc1Width enc2Width : Nat) (componentIDPosition : Position) : Int :=
  match componentIDPosition with
  | .right => 0
  | .left => (enc2Width : Int) - enc1Width

/-- The loop counts the equal bits, so the count is full when all of them agree. -/
theorem commonBitCountLoop_ok (h1 : enc1 < 2 ^ 32) (h2 : enc2 < 2 ^ 32)
    (hm : m = min (width1 - o1) (width2 - o2)) (hf : m ≤ fuel)
    (h : commonBitCountLoop enc1 enc2 width1 width2 fuel o1 o2 c = .ok n) :
    n ≤ c + m ∧ (n = c + m ↔ ∀ i, i < m → enc1.testBit (o1 + i) = enc2.testBit (o2 + i)) := by
  induction fuel generalizing o1 o2 c m with
  | zero =>
    cases h
    obtain rfl : m = 0 := Nat.le_zero.1 hf
    exact ⟨Nat.le_refl _, fun _ i hi => (Nat.not_lt_zero i hi).elim, fun _ => rfl⟩
  | succ fuel ih =>
    rw [commonBitCountLoop] at h
    split at h
    · rename_i hlt
      obtain ⟨bit1, hb1, h⟩ := Except.bind_ok h
      obtain ⟨bit2, hb2, h⟩ := Except.bind_ok h
      obtain ⟨-, rfl⟩ := bit_ok h1 hb1
      obtain ⟨-, rfl⟩ := bit_ok h2 hb2
      obtain ⟨m', rfl⟩ : ∃ m', m = m' + 1 := ⟨m - 1, by omega⟩
      obtain ⟨hle, hiff⟩ := ih (m := m') (by omega) (by omega) h
      have hsplit : (∀ i, i < m' + 1 → enc1.testBit (o1 + i) = enc2.testBit (o2 + i)) ↔
          enc1.testBit o1 = enc2.testBit o2 ∧
            ∀ i, i < m' → enc1.testBit (o1 + 1 + i) = enc2.testBit (o2 + 1 + i) := by
        rw [Nat.forall_lt_succ_left]
        simp only [Nat.add_zero, Nat.add_assoc, Nat.add_comm 1]
      rw [hsplit, ← hiff]
      split at hle
      · rename_i heq
        rw [if_pos heq]
        refine ⟨by omega, fun hn => ⟨heq, by omega⟩, fun hn => ?_⟩
        have := hn.2
        omega
      · rename_i hne
        exact ⟨by omega, fun hn => by omega, fun hn => (hne hn.1).elim⟩
    · cases h
      obtain rfl : m = 0 := by omega
      exact ⟨Nat.le_refl _, fun _ i hi => (Nat.not_lt_zero i hi).elim, fun _ => rfl⟩

theorem commonBitCountLoop_defined (h1 : width1 ≤ 32) (h2 : width2 ≤ 32) :
    ∃ n, commonBitCountLoop enc1 enc2 width1 width2 fuel o1 o2 c = .ok n := by
  induction fuel generalizing o1 o2 c with
  | zero => exact ⟨c, rfl⟩
  | succ fuel ih =>
    rw [commonBitCountLoop]
    split
    · rename_i hlt
      rw [bit, if_pos (by omega), bit, if_pos (by omega)]
      exact ih
    · exact ⟨c, rfl⟩

/-- The two codes are short enough for the bits of both to be read, or there are none. -/
def Comparable (a b : Encoding) : Prop := a.width ≤ 32 ∧ b.width ≤ 32 ∨ a.width = 0 ∨ b.width = 0

instance (a b : Encoding) : Decidable (Comparable a b) :=
  inferInstanceAs (Decidable (a.width ≤ 32 ∧ b.width ≤ 32 ∨ a.width = 0 ∨ b.width = 0))

theorem commonBitCount_defined (h : Comparable a b) (alignment : Int) :
    ∃ n, commonBitCount a b alignment = .ok n := by
  rcases h with ⟨ha, hb⟩ | hempty
  · exact commonBitCountLoop_defined ha hb
  · refine ⟨0, ?_⟩
    rw [commonBitCount]
    cases hw : a.width with
    | zero => rfl
    | succ w =>
      rw [commonBitCountLoop, if_neg]
      omega

/-- Against the left end of a field, a full count means that one code is a prefix of the other. -/
theorem commonBitCount_left (h : commonBitCount a b ((b.width : Int) - a.width) = .ok n) :
    n = a.width ∨ n = b.width ↔ Ambiguous .left a b := by
  obtain ⟨hle, hiff⟩ := commonBitCountLoop_ok a.encoding_lt b.encoding_lt rfl (by omega) h
  rw [Nat.zero_add] at hle hiff
  rw [Ambiguous, Encoding.bits, Encoding.bits, prefix_bits_iff, prefix_bits_iff]
  rcases Nat.le_total a.width b.width with hw | hw
  · have ho1 : (-((b.width : Int) - a.width)).toNat = 0 := by omega
    have ho2 : ((b.width : Int) - a.width).toNat = b.width - a.width := by omega
    have hm : min (a.width - 0) (b.width - (b.width - a.width)) = a.width := by omega
    rw [ho1, ho2, hm] at hle hiff
    simp only [Nat.zero_add, Nat.add_comm (b.width - a.width)] at hiff
    constructor
    · intro hn
      exact .inl ⟨hw, hiff.1 (by omega)⟩
    · rintro (⟨-, hb⟩ | ⟨hw', hb⟩)
      · exact .inl (hiff.2 hb)
      · refine .inl (hiff.2 fun i hi => ?_)
        have hi' := hb i (by omega)
        rw [Nat.sub_eq_zero_of_le hw, Nat.add_zero] at hi'
        rw [Nat.sub_eq_zero_of_le hw', Nat.add_zero, hi']
  · have ho1 : (-((b.width : Int) - a.width)).toNat = a.width - b.width := by omega
    have ho2 : ((b.width : Int) - a.width).toNat = 0 := by omega
    have hm : min (a.width - (a.width - b.width)) (b.width - 0) = b.width := by omega
    rw [ho1, ho2, hm] at hle hiff
    simp only [Nat.zero_add, Nat.add_comm (a.width - b.width)] at hiff
    constructor
    · intro hn
      have hall := hiff.1 (by omega)
      exact .inr ⟨hw, fun i hi => (hall i hi).symm⟩
    · rintro (⟨hw', hb⟩ | ⟨-, hb⟩)
      · refine .inr (hiff.2 fun i hi => ?_)
        have hi' := hb i (by omega)
        rw [Nat.sub_eq_zero_of_le hw, Nat.add_zero] at hi'
        rw [Nat.sub_eq_zero_of_le hw', Nat.add_zero, hi']
      · exact .inr (hiff.2 fun i hi => (hb i hi).symm)

/-- Against the right end of a field, a full count means that one code is a suffix of the other. -/
theorem commonBitCount_right (h : commonBitCount a b 0 = .ok n) :
    n = a.width ∨ n = b.width ↔ Ambiguous .right a b := by
  obtain ⟨hle, hiff⟩ := commonBitCountLoop_ok a.encoding_lt b.encoding_lt rfl (by omega) h
  simp only [neg_zero, Int.toNat_zero, Nat.zero_add, Nat.sub_zero] at hle hiff
  rw [Ambiguous, Encoding.bits, Encoding.bits, suffix_bits_iff, suffix_bits_iff]
  constructor
  · intro hn
    rcases Nat.le_total a.width b.width with hw | hw
    · have hall := hiff.1 (by omega)
      exact .inl ⟨hw, fun i hi => hall i (by omega)⟩
    · have hall := hiff.1 (by omega)
      exact .inr ⟨hw, fun i hi => (hall i (by omega)).symm⟩
  · rintro (⟨hw, hb⟩ | ⟨hw, hb⟩)
    · have hn := hiff.2 fun i hi => hb i (by omega)
      omega
    · have hn := hiff.2 fun i hi => (hb i (by omega)).symm
      omega

/-- The alignment chosen for a field makes a full count mean ambiguity in that field. -/
theorem commonBitCount_iff
    (h : commonBitCount a b (calculateAlignment a.width b.width position) = .ok n) :
    n = a.width ∨ n = b.width ↔ Ambiguous position a b := by
  cases position with
  | left => exact commonBitCount_left h
  | right => exact commonBitCount_right h

end BEMTester

end Bem

end OpenAsip
