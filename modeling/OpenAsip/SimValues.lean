import Mathlib.Algebra.Order.Ring.Int
import OpenAsip.Outcomes

namespace OpenAsip.Tools
set_option autoImplicit true

/-- The shifts are those of 64-bit words, so the width is at least 1 and at most 64. -/
def MathTools.fastSignExtendTo (value : BitVec 64) (width : Nat) : Outcome (BitVec 64) :=
  if 0 < width ∧ width ≤ 64 then .ok ((value <<< (64 - width)).sshiftRight (64 - width))
  else .error .undefined

def MathTools.fastZeroExtendTo (value : BitVec 64) (width : Nat) : Outcome (BitVec 64) :=
  if 0 < width ∧ width ≤ 64 then .ok (value &&& BitVec.allOnes 64 >>> (64 - width))
  else .error .undefined

/-- The bytes are stored from the lowest one on: byte `i` has the bits from `8 * i` on. -/
structure SimValue where
  rawData : BitVec 4096
  bitWidth : Nat
  mask : BitVec 64

namespace SimValue

/-- `memcpy` and `memset` of bytes. -/
def overwrite (rawData source : BitVec 4096) (first count : Nat) : BitVec 4096 :=
  let bytes := BitVec.ofNat 4096 (2 ^ (8 * count) - 1) <<< (8 * first)
  rawData &&& ~~~bytes ||| source &&& bytes

def byte (rawData : BitVec 4096) (i : Nat) : BitVec 8 := (rawData >>> (8 * i)).setWidth 8

def setByte (rawData : BitVec 4096) (i : Nat) (b : BitVec 8) : BitVec 4096 :=
  overwrite rawData (b.setWidth 4096 <<< (8 * i)) i 1

def byteCount (bitWidth : Nat) : Nat := (bitWidth + 7) / 8

def clearToZero (v : SimValue) (bitWidth : Nat) : SimValue :=
  { v with rawData := overwrite v.rawData 0#4096 0 (byteCount bitWidth) }

def setBitWidth (v : SimValue) (width : Nat) : Outcome SimValue :=
  if width ≤ 4096 then
    let v := { v with
      bitWidth := width, mask := if width < 64 then ~~~(BitVec.allOnes 64 <<< width) else v.mask }
    .ok (clearToZero v (if 8 < byteCount width then width else 64))
  else .error .assertion

/-- The constructor for a width. What the storage had before stays where nothing is written. -/
def construct (storage : BitVec 4096) (width : Nat) : Outcome SimValue :=
  setBitWidth ⟨storage, width, BitVec.allOnes 64⟩ width

def assignBytes (v : SimValue) (value : BitVec 4096) (count : Nat) : SimValue :=
  { v with rawData := overwrite v.rawData value 0 count }

def constructValue (storage : BitVec 4096) (value : BitVec 64) (width : Nat) :
    Outcome SimValue := do
  let v ← construct storage width
  .ok (v.assignBytes (value.setWidth 4096) (if width < 64 then byteCount width else 8))

def assignSIntWord (v : SimValue) (source : BitVec 32) : SimValue :=
  v.assignBytes (source.setWidth 4096) 4

def assignUIntWord (v : SimValue) (source : BitVec 32) : SimValue :=
  v.assignBytes (source.setWidth 4096) 4

def assignSLongWord (v : SimValue) (source : BitVec 64) : SimValue :=
  v.assignBytes (source.setWidth 4096) 8

def assignULongWord (v : SimValue) (source : BitVec 64) : SimValue :=
  v.assignBytes (source.setWidth 4096) 8

def assign (v source : SimValue) : SimValue :=
  let dstByteCount := byteCount v.bitWidth
  let srcByteCount := byteCount source.bitWidth
  let rawData := overwrite v.rawData source.rawData 0 srcByteCount
  if srcByteCount < dstByteCount then
    { v with rawData := overwrite rawData 0#4096 srcByteCount (dstByteCount - srcByteCount) }
  else if v.bitWidth % 8 ≠ 0 then
    let msbBitMask := (1#8 <<< (v.bitWidth % 8)) - 1#8
    let msb := byte rawData (dstByteCount - 1) &&& msbBitMask
    { v with rawData := setByte rawData (dstByteCount - 1) msb }
  else { v with rawData := rawData }

def deepCopy (v source : SimValue) : SimValue :=
  ⟨overwrite v.rawData source.rawData 0 (byteCount source.bitWidth), source.bitWidth, source.mask⟩

def bitElement (v : SimValue) (elementIndex : Nat) : Outcome Bool :=
  if elementIndex + 1 ≤ 4096 then
    .ok ((byte v.rawData (elementIndex / 8)).getLsbD (elementIndex % 8))
  else .error .assertion

def signExtendTo (v : SimValue) (bitWidth : Int) : Outcome SimValue :=
  if 4096 < bitWidth then .error (.exception .outOfRange)
  else if bitWidth ≤ 0 then .ok (v.clearToZero 4096)
  else do
    let width := bitWidth.toNat
    let firstByte := byteCount width
    let count := byteCount v.bitWidth
    let extended ← MathTools.fastSignExtendTo ((byte v.rawData (firstByte - 1)).setWidth 64)
      ((width - 1) % 8 + 1)
    let v := { v with rawData := setByte v.rawData (firstByte - 1) (extended.setWidth 8) }
    if firstByte < count then
      let sign ← v.bitElement (width - 1)
      let fill := if sign then BitVec.allOnes 4096 else 0#4096
      .ok { v with rawData := overwrite v.rawData fill firstByte (count - firstByte) }
    else .ok v

def zeroExtendTo (v : SimValue) (bitWidth : Int) : Outcome SimValue :=
  if 4096 < bitWidth then .error (.exception .outOfRange)
  else if bitWidth ≤ 0 then .ok (v.clearToZero 4096)
  else do
    let width := bitWidth.toNat
    let firstByte := byteCount width
    let count := byteCount v.bitWidth
    let extended ← MathTools.fastZeroExtendTo ((byte v.rawData (firstByte - 1)).setWidth 64)
      ((width - 1) % 8 + 1)
    let v := { v with rawData := setByte v.rawData (firstByte - 1) (extended.setWidth 8) }
    if firstByte < count then
      .ok { v with rawData := overwrite v.rawData 0#4096 firstByte (count - firstByte) }
    else .ok v

def uLongWordValue (v : SimValue) : BitVec 64 := v.rawData.setWidth 64 &&& v.mask

def sLongWordValue (v : SimValue) : Outcome (BitVec 64) :=
  let value := v.rawData.setWidth 64
  if 64 ≤ v.bitWidth then .ok value else MathTools.fastSignExtendTo value v.bitWidth

section Bits

theorem le_byteCount (bitWidth : Nat) : bitWidth ≤ 8 * byteCount bitWidth := by
  rw [byteCount]
  omega

theorem byteCount_lt (bitWidth : Nat) : 8 * byteCount bitWidth < bitWidth + 8 := by
  rw [byteCount]
  omega

theorem getLsbD_msbBitMask {k j : Nat} (hk : k < 8) (hj : j < 8) :
    (1#8 <<< k - 1#8).getLsbD j = decide (j < k) := by
  have hall : ∀ k < 8, ∀ j < 8, (1#8 <<< k - 1#8).getLsbD j = decide (j < k) := by decide
  exact hall k hk j hj

theorem getLsbD_overwrite (rawData source : BitVec 4096) (first count j : Nat) :
    (overwrite rawData source first count).getLsbD j =
      if 8 * first ≤ j ∧ j < 8 * (first + count) then source.getLsbD j else rawData.getLsbD j := by
  by_cases hj : j < 4096
  · rw [overwrite, BitVec.getLsbD_or, BitVec.getLsbD_and, BitVec.getLsbD_and, BitVec.getLsbD_not,
      BitVec.getLsbD_shiftLeft, BitVec.getLsbD_ofNat, Nat.testBit_two_pow_sub_one]
    by_cases hlow : 8 * first ≤ j
    · have hsub : j - 8 * first < 4096 := by omega
      by_cases hhigh : j < 8 * (first + count)
      · have hcount : j - 8 * first < 8 * count := by omega
        simp [hj, hlow, hhigh, Nat.not_lt_of_le hlow, hsub, hcount]
      · have hcount : ¬ j - 8 * first < 8 * count := by omega
        simp [hj, hhigh, Nat.not_lt_of_le hlow, hcount]
    · simp [hj, hlow, Nat.lt_of_not_le hlow]
  · have hge := Nat.le_of_not_lt hj
    rw [BitVec.getLsbD_of_ge _ _ hge, BitVec.getLsbD_of_ge _ _ hge, BitVec.getLsbD_of_ge _ _ hge,
      ite_self]

theorem getLsbD_byte (rawData : BitVec 4096) (i : Nat) {k : Nat} (hk : k < 8) :
    (byte rawData i).getLsbD k = rawData.getLsbD (8 * i + k) := by
  rw [byte, BitVec.getLsbD_setWidth, BitVec.getLsbD_ushiftRight, decide_eq_true hk, Bool.true_and]

theorem getLsbD_setByte (rawData : BitVec 4096) {i : Nat} (hi : i < 512) (b : BitVec 8) (j : Nat) :
    (setByte rawData i b).getLsbD j =
      if j / 8 = i then b.getLsbD (j % 8) else rawData.getLsbD j := by
  rw [setByte, getLsbD_overwrite]
  by_cases hj : j / 8 = i
  · have hsub : j - 8 * i = j % 8 := by omega
    rw [if_pos (by omega), if_pos hj, BitVec.getLsbD_shiftLeft, BitVec.getLsbD_setWidth, hsub,
      decide_eq_true (show j < 4096 by omega), decide_eq_true (show j % 8 < 4096 by omega),
      decide_eq_false (show ¬ j < 8 * i by omega)]
    rfl
  · rw [if_neg (by omega), if_neg hj]

theorem fastSignExtendTo_ok (value : BitVec 64) {width : Nat} (hpos : 0 < width)
    (hle : width ≤ 64) : ∃ value', MathTools.fastSignExtendTo value width = .ok value' ∧
      ∀ j, j < 64 → value'.getLsbD j = value.getLsbD (if j < width then j else width - 1) := by
  refine ⟨_, if_pos ⟨hpos, hle⟩, fun j hj => ?_⟩
  rw [BitVec.getLsbD_sshiftRight, BitVec.msb_eq_getLsbD_last, BitVec.getLsbD_shiftLeft,
    BitVec.getLsbD_shiftLeft]
  by_cases hw : j < width
  · rw [if_pos (by omega), if_pos hw, Nat.add_sub_cancel_left,
      decide_eq_false (show ¬ 64 ≤ j by omega),
      decide_eq_true (show 64 - width + j < 64 by omega),
      decide_eq_false (show ¬ 64 - width + j < 64 - width by omega)]
    rfl
  · rw [if_neg (by omega), if_neg hw, decide_eq_false (show ¬ 64 ≤ j by omega),
      decide_eq_false (show ¬ 64 - 1 < 64 - width by omega),
      show 64 - 1 - (64 - width) = width - 1 by omega]
    rfl

theorem fastZeroExtendTo_ok (value : BitVec 64) {width : Nat} (hpos : 0 < width)
    (hle : width ≤ 64) : ∃ value', MathTools.fastZeroExtendTo value width = .ok value' ∧
      ∀ j, value'.getLsbD j = (decide (j < width) && value.getLsbD j) := by
  refine ⟨_, if_pos ⟨hpos, hle⟩, fun j => ?_⟩
  rw [BitVec.getLsbD_and, BitVec.getLsbD_ushiftRight, BitVec.getLsbD_allOnes, Bool.and_comm]
  congr 1
  rw [decide_eq_decide]
  omega

/-- The bits of the destination after an assignment, within its width. -/
theorem getLsbD_assign (v source : SimValue) (hle : v.bitWidth ≤ 4096) {j : Nat}
    (hj : j < v.bitWidth) :
    (v.assign source).rawData.getLsbD j =
      if j < 8 * byteCount source.bitWidth then source.rawData.getLsbD j else false := by
  have hcount := le_byteCount v.bitWidth
  have hcount' := byteCount_lt v.bitWidth
  rw [assign]
  by_cases hlt : byteCount source.bitWidth < byteCount v.bitWidth
  · simp only [if_pos hlt]
    rw [getLsbD_overwrite, getLsbD_overwrite]
    by_cases hlow : j < 8 * byteCount source.bitWidth
    · rw [if_neg (by omega), if_pos (by omega), if_pos hlow]
    · rw [if_pos (by omega), if_neg hlow, BitVec.getLsbD_zero]
  · have hcopied : (overwrite v.rawData source.rawData 0 (byteCount source.bitWidth)).getLsbD j =
        source.rawData.getLsbD j := by
      rw [getLsbD_overwrite, if_pos (by omega)]
    rw [if_pos (by omega : j < 8 * byteCount source.bitWidth)]
    by_cases hpart : v.bitWidth % 8 ≠ 0
    · simp only [if_neg hlt, if_pos hpart]
      rw [getLsbD_setByte _ (by omega)]
      split
      · rename_i hbyte
        have hbit : j % 8 < v.bitWidth % 8 := by omega
        have hback : 8 * (byteCount v.bitWidth - 1) + j % 8 = j := by omega
        rw [BitVec.getLsbD_and, getLsbD_byte _ _ (Nat.mod_lt _ (by decide)), hback,
          getLsbD_msbBitMask (Nat.mod_lt _ (by decide)) (Nat.mod_lt _ (by decide)),
          decide_eq_true hbit, Bool.and_true, hcopied]
      · exact hcopied
    · simp only [if_neg hlt, if_neg hpart]
      exact hcopied

@[simp] theorem assign_bitWidth (v source : SimValue) :
    (v.assign source).bitWidth = v.bitWidth := by
  rw [assign]
  dsimp only
  split
  · rfl
  · split
    · rfl
    · rfl

@[simp] theorem assign_mask (v source : SimValue) : (v.assign source).mask = v.mask := by
  rw [assign]
  dsimp only
  split
  · rfl
  · split
    · rfl
    · rfl

/-- The byte with the last of some bits is changed, by a word made from that byte. -/
theorem getLsbD_setLastByte (rawData : BitVec 4096) {width : Nat} (hpos : 0 < width)
    (hle : width ≤ 4096) (extended : BitVec 64) (j : Nat) :
    (setByte rawData (byteCount width - 1) (extended.setWidth 8)).getLsbD j =
      if 8 * (byteCount width - 1) ≤ j ∧ j < 8 * byteCount width then extended.getLsbD (j % 8)
      else rawData.getLsbD j := by
  have hfirst := le_byteCount width
  have hfirst' := byteCount_lt width
  rw [getLsbD_setByte _ (by omega)]
  by_cases hj : j / 8 = byteCount width - 1
  · rw [if_pos hj, if_pos (by omega), BitVec.getLsbD_setWidth,
      decide_eq_true (Nat.mod_lt j (by decide)), Bool.true_and]
  · rw [if_neg hj, if_neg (by omega)]

theorem getLsbD_lastByte (rawData : BitVec 4096) {width i : Nat} (hi : i < 8) :
    ((byte rawData (byteCount width - 1)).setWidth 64).getLsbD i =
      rawData.getLsbD (8 * (byteCount width - 1) + i) := by
  rw [BitVec.getLsbD_setWidth, decide_eq_true (by omega), Bool.true_and, getLsbD_byte _ _ hi]

theorem getLsbD_fill (sign : Bool) {j : Nat} (hj : j < 4096) :
    (if sign then BitVec.allOnes 4096 else 0#4096).getLsbD j = sign := by
  cases sign with
  | false => rw [if_neg Bool.false_ne_true, BitVec.getLsbD_zero]
  | true => rw [if_pos rfl, BitVec.getLsbD_allOnes, decide_eq_true hj]

/-- Within the width of the value, all bits from the given one on become the one before. -/
theorem signExtendTo_ok (v : SimValue) (hv : v.bitWidth ≤ 4096) {width : Nat} (hpos : 0 < width)
    (hle : width ≤ 4096) :
    ∃ rawData, v.signExtendTo width = .ok { v with rawData := rawData } ∧
      ∀ j < v.bitWidth, rawData.getLsbD j =
        v.rawData.getLsbD (if j < width then j else width - 1) := by
  have hfirst := le_byteCount width
  have hfirst' := byteCount_lt width
  have hcount := le_byteCount v.bitWidth
  have hfrom : 0 < (width - 1) % 8 + 1 := Nat.succ_pos _
  have hlast : (width - 1) % 8 + 1 ≤ 64 := by omega
  obtain ⟨extended, he, hbits⟩ := fastSignExtendTo_ok
    ((byte v.rawData (byteCount width - 1)).setWidth 64) hfrom hlast
  have hbyte : ∀ j < 8 * byteCount width,
      (setByte v.rawData (byteCount width - 1) (extended.setWidth 8)).getLsbD j =
        v.rawData.getLsbD (if j < width then j else width - 1) := by
    intro j hj
    rw [getLsbD_setLastByte _ hpos hle]
    by_cases hlow : 8 * (byteCount width - 1) ≤ j
    · have hindex : 8 * (byteCount width - 1) +
          (if j % 8 < (width - 1) % 8 + 1 then j % 8 else (width - 1) % 8 + 1 - 1) =
          if j < width then j else width - 1 := by
        split <;> split <;> omega
      rw [if_pos ⟨hlow, hj⟩, hbits _ (by omega), getLsbD_lastByte _ (by split <;> omega), hindex]
    · rw [if_neg (by omega), if_pos (by omega)]
  have hsign : ∀ v' : SimValue, v'.rawData =
      setByte v.rawData (byteCount width - 1) (extended.setWidth 8) →
      v'.bitElement (width - 1) = .ok (v.rawData.getLsbD (width - 1)) := by
    intro v' hv'
    have hback : 8 * ((width - 1) / 8) + (width - 1) % 8 = width - 1 := by omega
    rw [bitElement, if_pos (by omega), getLsbD_byte _ _ (Nat.mod_lt _ (by decide)), hback, hv',
      hbyte _ (by omega), if_pos (by omega)]
  have hcall : v.signExtendTo width = .ok
      ⟨if byteCount width < byteCount v.bitWidth then
        overwrite (setByte v.rawData (byteCount width - 1) (extended.setWidth 8))
          (if v.rawData.getLsbD (width - 1) then BitVec.allOnes 4096 else 0#4096)
          (byteCount width) (byteCount v.bitWidth - byteCount width)
      else setByte v.rawData (byteCount width - 1) (extended.setWidth 8), v.bitWidth, v.mask⟩ := by
    rw [signExtendTo, if_neg (by omega), if_neg (by omega)]
    simp only [Int.toNat_natCast, he, bind, Except.bind]
    by_cases hfill : byteCount width < byteCount v.bitWidth
    · rw [if_pos hfill, if_pos hfill, hsign _ rfl]
    · rw [if_neg hfill, if_neg hfill]
  refine ⟨_, hcall, fun j hj => ?_⟩
  by_cases hfill : byteCount width < byteCount v.bitWidth
  · rw [if_pos hfill, getLsbD_overwrite]
    by_cases hlow : j < 8 * byteCount width
    · rw [if_neg (by omega), hbyte j hlow]
    · rw [if_pos (by omega), if_neg (show ¬ j < width by omega), getLsbD_fill _ (by omega)]
  · rw [if_neg hfill, hbyte j (by omega)]

theorem zeroExtendTo_ok (v : SimValue) {width : Nat} (hpos : 0 < width) (hle : width ≤ 4096) :
    ∃ rawData, v.zeroExtendTo width = .ok { v with rawData := rawData } ∧
      ∀ j < v.bitWidth, rawData.getLsbD j = (decide (j < width) && v.rawData.getLsbD j) := by
  have hfirst := le_byteCount width
  have hfirst' := byteCount_lt width
  have hcount := le_byteCount v.bitWidth
  have hfrom : 0 < (width - 1) % 8 + 1 := Nat.succ_pos _
  have hlast : (width - 1) % 8 + 1 ≤ 64 := by omega
  obtain ⟨extended, he, hbits⟩ := fastZeroExtendTo_ok
    ((byte v.rawData (byteCount width - 1)).setWidth 64) hfrom hlast
  have hbyte : ∀ j < 8 * byteCount width,
      (setByte v.rawData (byteCount width - 1) (extended.setWidth 8)).getLsbD j =
        (decide (j < width) && v.rawData.getLsbD j) := by
    intro j hj
    rw [getLsbD_setLastByte _ hpos hle]
    by_cases hlow : 8 * (byteCount width - 1) ≤ j
    · have hback : 8 * (byteCount width - 1) + j % 8 = j := by omega
      rw [if_pos ⟨hlow, hj⟩, hbits, getLsbD_lastByte _ (Nat.mod_lt _ (by decide)), hback]
      congr 1
      rw [decide_eq_decide]
      omega
    · rw [if_neg (by omega), decide_eq_true (by omega), Bool.true_and]
  have hcall : v.zeroExtendTo width = .ok
      ⟨if byteCount width < byteCount v.bitWidth then
        overwrite (setByte v.rawData (byteCount width - 1) (extended.setWidth 8)) 0#4096
          (byteCount width) (byteCount v.bitWidth - byteCount width)
      else setByte v.rawData (byteCount width - 1) (extended.setWidth 8), v.bitWidth, v.mask⟩ := by
    rw [zeroExtendTo, if_neg (by omega), if_neg (by omega)]
    simp only [Int.toNat_natCast, he, bind, Except.bind]
    by_cases hfill : byteCount width < byteCount v.bitWidth
    · rw [if_pos hfill, if_pos hfill]
    · rw [if_neg hfill, if_neg hfill]
  refine ⟨_, hcall, fun j hj => ?_⟩
  by_cases hfill : byteCount width < byteCount v.bitWidth
  · rw [if_pos hfill, getLsbD_overwrite]
    by_cases hlow : j < 8 * byteCount width
    · rw [if_neg (by omega), hbyte j hlow]
    · rw [if_pos (by omega), decide_eq_false (by omega), BitVec.getLsbD_zero, Bool.false_and]
  · rw [if_neg hfill, hbyte j (by omega)]

end Bits
end SimValue
end OpenAsip.Tools
