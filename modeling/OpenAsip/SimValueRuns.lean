import OpenAsip.SimValues

namespace OpenAsip.Tools
set_option autoImplicit true

/-- What a value of the simulation stands for: a bit vector of its width. -/
structure SimWord where
  width : Nat
  bits : BitVec width

namespace SimWord

def zero (width : Nat) : SimWord := ⟨width, BitVec.ofNat width 0⟩

/-- An integer is taken modulo 2 to the width. -/
def ofInt (width : Nat) (value : Int) : SimWord := ⟨width, BitVec.ofInt width value⟩

def assign (a source : SimWord) : SimWord := ⟨a.width, source.bits.setWidth a.width⟩

def signExtendTo (a : SimWord) (width : Int) : SimWord :=
  ⟨a.width, (a.bits.setWidth width.toNat).signExtend a.width⟩

def zeroExtendTo (a : SimWord) (width : Int) : SimWord :=
  ⟨a.width, (a.bits.setWidth width.toNat).setWidth a.width⟩

end SimWord

namespace SimValue

/-- The mask fits the width, and the bits below the width are those of the word. The bits above
may be anything. -/
structure Represents (v : SimValue) (a : SimWord) : Prop where
  width : v.bitWidth = a.width
  pos : 0 < a.width
  le : a.width ≤ 64
  mask : ∀ j < 64, v.mask.getLsbD j = decide (j < a.width)
  bits : ∀ j < a.width, v.rawData.getLsbD j = a.bits.getLsbD j

section Reading
variable {v : SimValue} {a : SimWord}

theorem Represents.uLongWordValue (h : Represents v a) : v.uLongWordValue.toNat = a.bits.toNat := by
  have hvalue : v.uLongWordValue = a.bits.setWidth 64 := by
    apply BitVec.eq_of_getLsbD_eq
    intro j hj
    rw [SimValue.uLongWordValue, BitVec.getLsbD_and, BitVec.getLsbD_setWidth, h.mask j hj,
      BitVec.getLsbD_setWidth, decide_eq_true hj, Bool.true_and, Bool.true_and]
    by_cases hw : j < a.width
    · rw [decide_eq_true hw, Bool.and_true, h.bits j hw]
    · rw [decide_eq_false hw, Bool.and_false, BitVec.getLsbD_of_ge _ _ (Nat.le_of_not_lt hw)]
  rw [hvalue, BitVec.toNat_setWidth_of_le h.le]

theorem Represents.sLongWordValue (h : Represents v a) :
    ∃ value, v.sLongWordValue = .ok value ∧ value.toInt = a.bits.toInt := by
  have hext : ∀ value : BitVec 64, (∀ j, j < 64 → value.getLsbD j =
      v.rawData.getLsbD (if j < a.width then j else a.width - 1)) →
      value.toInt = a.bits.toInt := by
    intro value hbits
    rw [← BitVec.toInt_signExtend_of_le h.le]
    congr 1
    apply BitVec.eq_of_getLsbD_eq
    intro j hj
    have hpos := h.pos
    rw [hbits j hj, BitVec.getLsbD_signExtend, decide_eq_true hj, Bool.true_and,
      BitVec.msb_eq_getLsbD_last]
    split
    · rename_i hw
      exact h.bits j hw
    · exact h.bits _ (by omega)
  rw [SimValue.sLongWordValue, h.width]
  by_cases hw : 64 ≤ a.width
  · rw [if_pos hw]
    refine ⟨_, rfl, hext _ fun j hj => ?_⟩
    rw [if_pos (by omega), BitVec.getLsbD_setWidth, decide_eq_true hj, Bool.true_and]
  · rw [if_neg hw]
    obtain ⟨value, he, hbits⟩ := fastSignExtendTo_ok (v.rawData.setWidth 64) h.pos h.le
    refine ⟨value, he, hext value fun j hj => ?_⟩
    rw [hbits j hj, BitVec.getLsbD_setWidth, decide_eq_true (by split <;> omega), Bool.true_and]

end Reading

section Writing
variable {v source : SimValue} {a b : SimWord}

theorem getLsbD_narrowMask {width j : Nat} (hj : j < 64) :
    (~~~(BitVec.allOnes 64 <<< width)).getLsbD j = decide (j < width) := by
  rw [BitVec.getLsbD_not, BitVec.getLsbD_shiftLeft, BitVec.getLsbD_allOnes, decide_eq_true hj,
    Bool.true_and, Bool.true_and]
  by_cases hw : j < width
  · simp [hw]
  · simp [hw, show j - width < 64 by omega]

/-- A wide mask stays when the width is set to 64. -/
theorem setBitWidth_represents {width : Nat} (hpos : 0 < width) (hle : width ≤ 64)
    (hmask : width = 64 → ∀ j < 64, v.mask.getLsbD j = true) :
    ∃ v', setBitWidth v width = .ok v' ∧ Represents v' (.zero width) := by
  refine ⟨_, if_pos (Nat.le_trans hle (by decide)), rfl, hpos, hle, fun j hj => ?_,
    fun j hj => ?_⟩
  · change (if width < 64 then _ else v.mask : BitVec 64).getLsbD j = decide (j < width)
    by_cases hw : width < 64
    · rw [if_pos hw, getLsbD_narrowMask hj]
    · rw [if_neg hw, hmask (by omega) j hj, decide_eq_true (by omega)]
  · change (overwrite v.rawData _ _ _).getLsbD j = (BitVec.ofNat width 0).getLsbD j
    have hcount : ¬ 8 < byteCount width := by
      rw [byteCount]
      omega
    rw [getLsbD_overwrite, if_neg hcount, if_pos ⟨Nat.zero_le j, Nat.lt_of_lt_of_le hj hle⟩,
      BitVec.getLsbD_zero, BitVec.getLsbD_zero]

theorem construct_represents (storage : BitVec 4096) {width : Nat} (hpos : 0 < width)
    (hle : width ≤ 64) :
    ∃ v, construct storage width = .ok v ∧ Represents v (.zero width) :=
  setBitWidth_represents hpos hle fun _ j hj => by
    rw [BitVec.getLsbD_allOnes, decide_eq_true hj]

/-- The bytes that are written and those that stay have to give the integer. -/
theorem Represents.assignBytes (h : Represents v a) {value : BitVec 4096} {count : Nat} {x : Int}
    (hvalue : ∀ j < a.width,
      (if j < 8 * count then value.getLsbD j else v.rawData.getLsbD j) =
        (BitVec.ofInt a.width x).getLsbD j) :
    Represents (v.assignBytes value count) (.ofInt a.width x) where
  width := h.width
  pos := h.pos
  le := h.le
  mask := h.mask
  bits := by
    intro j hj
    change (overwrite v.rawData value 0 count).getLsbD j = (BitVec.ofInt a.width x).getLsbD j
    rw [getLsbD_overwrite, Nat.zero_add, ← hvalue j hj]
    exact if_congr ⟨And.right, fun hlt => ⟨Nat.zero_le j, hlt⟩⟩ rfl rfl

theorem getLsbD_ofInt_toInt {w : Nat} (x : BitVec w) {width j : Nat} (hj : j < width) :
    (BitVec.ofInt width x.toInt).getLsbD j = if j < w then x.getLsbD j else x.msb := by
  change (x.signExtend width).getLsbD j = _
  rw [BitVec.getLsbD_signExtend, decide_eq_true hj, Bool.true_and]

theorem getLsbD_ofInt_toNat {w : Nat} (x : BitVec w) {width j : Nat} (hj : j < width) :
    (BitVec.ofInt width x.toNat).getLsbD j = x.getLsbD j := by
  rw [BitVec.ofInt_natCast, BitVec.getLsbD_ofNat, decide_eq_true hj, Bool.true_and]
  rfl

theorem getLsbD_bytes {w : Nat} (x : BitVec w) {j : Nat} (hj : j < 4096) :
    (x.setWidth 4096).getLsbD j = x.getLsbD j := by
  rw [BitVec.getLsbD_setWidth, decide_eq_true hj, Bool.true_and]

theorem Represents.assignSIntWord (h : Represents v a) {x : BitVec 32}
    (hx : ∀ j < v.bitWidth, 32 ≤ j → v.rawData.getLsbD j = x.msb) :
    Represents (v.assignSIntWord x) (.ofInt a.width x.toInt) := by
  apply h.assignBytes
  intro j hj
  have hle := h.le
  rw [getLsbD_ofInt_toInt x hj, getLsbD_bytes x (by omega)]
  by_cases hlow : j < 32
  · rw [if_pos hlow, if_pos hlow]
  · rw [if_neg hlow, if_neg hlow, hx j (by rwa [h.width]) (Nat.le_of_not_lt hlow)]

theorem Represents.assignUIntWord (h : Represents v a) {x : BitVec 32}
    (hx : ∀ j < v.bitWidth, 32 ≤ j → v.rawData.getLsbD j = false) :
    Represents (v.assignUIntWord x) (.ofInt a.width x.toNat) := by
  apply h.assignBytes
  intro j hj
  have hle := h.le
  rw [getLsbD_ofInt_toNat x hj, getLsbD_bytes x (by omega)]
  by_cases hlow : j < 32
  · rw [if_pos hlow]
  · rw [if_neg hlow, hx j (by rwa [h.width]) (Nat.le_of_not_lt hlow),
      BitVec.getLsbD_of_ge _ _ (Nat.le_of_not_lt hlow)]

theorem Represents.assignSLongWord (h : Represents v a) (x : BitVec 64) :
    Represents (v.assignSLongWord x) (.ofInt a.width x.toInt) := by
  apply h.assignBytes
  intro j hj
  have hle := h.le
  rw [getLsbD_ofInt_toInt x hj, getLsbD_bytes x (by omega), if_pos (by omega), if_pos (by omega)]

theorem Represents.assignULongWord (h : Represents v a) (x : BitVec 64) :
    Represents (v.assignULongWord x) (.ofInt a.width x.toNat) := by
  apply h.assignBytes
  intro j hj
  have hle := h.le
  rw [getLsbD_ofInt_toNat x hj, getLsbD_bytes x (by omega), if_pos (by omega)]

theorem constructValue_represents (storage : BitVec 4096) (x : BitVec 64) {width : Nat}
    (hpos : 0 < width) (hle : width ≤ 64) :
    ∃ v, constructValue storage x width = .ok v ∧ Represents v (.ofInt width x.toInt) := by
  obtain ⟨v, he, h⟩ := construct_represents storage hpos hle
  refine ⟨_, by rw [constructValue, he]; rfl, h.assignBytes fun j hj => ?_⟩
  change j < width at hj
  change _ = (BitVec.ofInt width x.toInt).getLsbD j
  have hcount := le_byteCount width
  rw [getLsbD_ofInt_toInt x hj, getLsbD_bytes x (by omega), if_pos (by split <;> omega),
    if_pos (by omega)]

/-- Of the bits above the width of the source only those count that share its last byte and are
within the width of the destination. -/
theorem Represents.assign (h : Represents v a) (hs : Represents source b)
    (hjunk : ∀ j < v.bitWidth, source.bitWidth ≤ j → j < 8 * byteCount source.bitWidth →
      source.rawData.getLsbD j = false) :
    Represents (v.assign source) (a.assign b) := by
  refine ⟨?_, h.pos, h.le, ?_, fun j hj => ?_⟩
  · rw [assign_bitWidth]
    exact h.width
  · rw [assign_mask]
    exact h.mask
  · change j < a.width at hj
    change _ = (b.bits.setWidth a.width).getLsbD j
    have hle := h.le
    rw [← h.width] at hj
    rw [getLsbD_assign v source (by rw [h.width]; omega) hj, BitVec.getLsbD_setWidth, ← h.width,
      decide_eq_true hj, Bool.true_and]
    by_cases hlow : j < source.bitWidth
    · have hcount := le_byteCount source.bitWidth
      rw [if_pos (by omega), hs.bits j (by rwa [← hs.width])]
    · rw [BitVec.getLsbD_of_ge b.bits j (by rw [← hs.width]; exact Nat.le_of_not_lt hlow)]
      split
      · rename_i hbyte
        exact hjunk j hj (Nat.le_of_not_lt hlow) hbyte
      · rfl

theorem Represents.deepCopy (v : SimValue) (hs : Represents source b) :
    Represents (v.deepCopy source) b where
  width := hs.width
  pos := hs.pos
  le := hs.le
  mask := hs.mask
  bits := by
    intro j hj
    have hcount := le_byteCount source.bitWidth
    have hwidth := hs.width
    change (overwrite v.rawData source.rawData 0 (byteCount source.bitWidth)).getLsbD j = _
    rw [getLsbD_overwrite, if_pos (by omega), hs.bits j hj]

theorem Represents.clearToZero (h : Represents v a) :
    Represents (v.clearToZero 4096) (.zero a.width) where
  width := h.width
  pos := h.pos
  le := h.le
  mask := h.mask
  bits := by
    intro j hj
    change j < a.width at hj
    have hle := h.le
    have hcount := le_byteCount 4096
    change (overwrite v.rawData 0#4096 0 (byteCount 4096)).getLsbD j = (0#a.width).getLsbD j
    rw [getLsbD_overwrite, if_pos (by omega), BitVec.getLsbD_zero, BitVec.getLsbD_zero]

theorem getLsbD_signExtendTo (a : SimWord) (n : Int) {j : Nat} (hj : j < a.width) :
    (a.signExtendTo n).bits.getLsbD j =
      if j < n.toNat then a.bits.getLsbD j
      else decide (n.toNat - 1 < n.toNat) && a.bits.getLsbD (n.toNat - 1) := by
  change ((a.bits.setWidth n.toNat).signExtend a.width).getLsbD j = _
  rw [BitVec.getLsbD_signExtend, decide_eq_true hj, Bool.true_and, BitVec.msb_eq_getLsbD_last,
    BitVec.getLsbD_setWidth, BitVec.getLsbD_setWidth]
  by_cases hlow : j < n.toNat
  · rw [if_pos hlow, if_pos hlow, decide_eq_true hlow, Bool.true_and]
  · rw [if_neg hlow, if_neg hlow]

theorem getLsbD_zeroExtendTo (a : SimWord) (n : Int) {j : Nat} (hj : j < a.width) :
    (a.zeroExtendTo n).bits.getLsbD j = (decide (j < n.toNat) && a.bits.getLsbD j) := by
  change ((a.bits.setWidth n.toNat).setWidth a.width).getLsbD j = _
  rw [BitVec.getLsbD_setWidth, BitVec.getLsbD_setWidth, decide_eq_true hj, Bool.true_and]

theorem Represents.of_bits (h : Represents v a) {rawData : BitVec 4096} {bits : BitVec a.width}
    (hbits : ∀ j < a.width, rawData.getLsbD j = bits.getLsbD j) :
    Represents { v with rawData := rawData } ⟨a.width, bits⟩ :=
  ⟨h.width, h.pos, h.le, h.mask, hbits⟩

/-- An extension from more bits than there are changes nothing, also where it is rejected. -/
theorem Represents.signExtendTo (h : Represents v a) (n : Int) :
    (∃ v', v.signExtendTo n = .ok v' ∧ Represents v' (a.signExtendTo n)) ∨
      v.signExtendTo n = .error (.exception .outOfRange) ∧ Represents v (a.signExtendTo n) := by
  have hle := h.le
  have hwidth := h.width
  by_cases hlarge : 4096 < n
  · refine .inr ⟨if_pos hlarge, h.of_bits fun j hj => ?_⟩
    have hbits := getLsbD_signExtendTo a n hj
    rw [if_pos (by omega)] at hbits
    exact (h.bits j hj).trans hbits.symm
  · by_cases hneg : n ≤ 0
    · refine .inl ⟨_, (if_neg hlarge).trans (if_pos hneg), ?_⟩
      refine h.clearToZero.of_bits fun j hj => ?_
      have hbits := getLsbD_signExtendTo a n hj
      rw [if_neg (by omega), decide_eq_false (by omega), Bool.false_and] at hbits
      exact (h.clearToZero.bits j hj).trans (BitVec.getLsbD_zero.trans hbits.symm)
    · have hpos := Int.not_le.1 hneg
      obtain ⟨width, rfl⟩ := Int.eq_ofNat_of_zero_le (Int.le_of_lt hpos)
      obtain ⟨rawData, he, hraw⟩ := signExtendTo_ok v (by omega)
        (Int.natCast_pos.1 hpos) (by omega : width ≤ 4096)
      refine .inl ⟨_, he, h.of_bits fun j hj => ?_⟩
      have hbits := getLsbD_signExtendTo a width hj
      rw [Int.toNat_natCast, decide_eq_true (by omega), Bool.true_and] at hbits
      refine Eq.trans ?_ hbits.symm
      rw [hraw j (by omega)]
      split
      · exact h.bits j hj
      · exact h.bits _ (by omega)

theorem Represents.zeroExtendTo (h : Represents v a) (n : Int) :
    (∃ v', v.zeroExtendTo n = .ok v' ∧ Represents v' (a.zeroExtendTo n)) ∨
      v.zeroExtendTo n = .error (.exception .outOfRange) ∧ Represents v (a.zeroExtendTo n) := by
  have hle := h.le
  have hwidth := h.width
  by_cases hlarge : 4096 < n
  · refine .inr ⟨if_pos hlarge, h.of_bits fun j hj => ?_⟩
    have hbits := getLsbD_zeroExtendTo a n hj
    rw [decide_eq_true (by omega), Bool.true_and] at hbits
    exact (h.bits j hj).trans hbits.symm
  · by_cases hneg : n ≤ 0
    · refine .inl ⟨_, (if_neg hlarge).trans (if_pos hneg), ?_⟩
      refine h.clearToZero.of_bits fun j hj => ?_
      have hbits := getLsbD_zeroExtendTo a n hj
      rw [decide_eq_false (by omega), Bool.false_and] at hbits
      exact (h.clearToZero.bits j hj).trans (BitVec.getLsbD_zero.trans hbits.symm)
    · have hpos := Int.not_le.1 hneg
      obtain ⟨width, rfl⟩ := Int.eq_ofNat_of_zero_le (Int.le_of_lt hpos)
      obtain ⟨rawData, he, hraw⟩ := zeroExtendTo_ok v
        (Int.natCast_pos.1 hpos) (by omega : width ≤ 4096)
      refine .inl ⟨_, he, h.of_bits fun j hj => ?_⟩
      have hbits := getLsbD_zeroExtendTo a width hj
      rw [Int.toNat_natCast] at hbits
      rw [hraw j (by omega), h.bits j hj]
      exact hbits.symm

end Writing
/-- A call for the variables, which are known by names. A new object is made in some storage. -/
inductive Call (ι : Type) where
  | construct (i : ι) (storage : BitVec 4096) (width : Nat)
  | constructValue (i : ι) (storage : BitVec 4096) (value : BitVec 64) (width : Nat)
  | copy (i : ι) (storage : BitVec 4096) (source : ι)
  | deepCopy (i source : ι)
  | setBitWidth (i : ι) (width : Nat)
  | assignSIntWord (i : ι) (value : BitVec 32)
  | assignUIntWord (i : ι) (value : BitVec 32)
  | assignSLongWord (i : ι) (value : BitVec 64)
  | assignULongWord (i : ι) (value : BitVec 64)
  | assign (i source : ι)
  | signExtendTo (i : ι) (width : Int)
  | zeroExtendTo (i : ι) (width : Int)

/-- Variables made by the default constructor. -/
def start {ι : Type} (storage : ι → BitVec 4096) (i : ι) : SimValue :=
  ⟨overwrite (storage i) 0#4096 0 8, 64, BitVec.allOnes 64⟩

theorem construct_start {ι : Type} (storage : ι → BitVec 4096) (i : ι) :
    construct (storage i) 64 = .ok (start storage i) := rfl

theorem start_represents {ι : Type} (storage : ι → BitVec 4096) (i : ι) :
    Represents (start storage i) (.zero 64) := by
  obtain ⟨v, he, hv⟩ := construct_represents (storage i) (by decide) (Nat.le_refl 64)
  rw [construct_start] at he
  cases he
  exact hv

section Runs
variable {ι : Type} [DecidableEq ι]

/-- The variable that a call changes and its new value. -/
def call (s : ι → SimValue) : Call ι → ι × Outcome SimValue
  | .construct i storage width => (i, construct storage width)
  | .constructValue i storage value width => (i, constructValue storage value width)
  | .copy i storage source => (i, .ok (deepCopy ⟨storage, 0, 0#64⟩ (s source)))
  | .deepCopy i source => (i, .ok ((s i).deepCopy (s source)))
  | .setBitWidth i width => (i, (s i).setBitWidth width)
  | .assignSIntWord i value => (i, .ok ((s i).assignSIntWord value))
  | .assignUIntWord i value => (i, .ok ((s i).assignUIntWord value))
  | .assignSLongWord i value => (i, .ok ((s i).assignSLongWord value))
  | .assignULongWord i value => (i, .ok ((s i).assignULongWord value))
  | .assign i source => (i, .ok ((s i).assign (s source)))
  | .signExtendTo i width => (i, (s i).signExtendTo width)
  | .zeroExtendTo i width => (i, (s i).zeroExtendTo width)

/-- A rejected call changes nothing. -/
def step (s : ι → SimValue) (c : Call ι) : Outcome (ι → SimValue) :=
  attempt s (do
    let v ← (call s c).2
    .ok (Function.update s (call s c).1 v))

/-- The same call for the words. -/
def onWords (a : ι → SimWord) : Call ι → ι → SimWord
  | .construct i _ width => Function.update a i (.zero width)
  | .constructValue i _ value width => Function.update a i (.ofInt width value.toInt)
  | .copy i _ source => Function.update a i (a source)
  | .deepCopy i source => Function.update a i (a source)
  | .setBitWidth i width => Function.update a i (.zero width)
  | .assignSIntWord i value => Function.update a i (.ofInt (a i).width value.toInt)
  | .assignUIntWord i value => Function.update a i (.ofInt (a i).width value.toNat)
  | .assignSLongWord i value => Function.update a i (.ofInt (a i).width value.toInt)
  | .assignULongWord i value => Function.update a i (.ofInt (a i).width value.toNat)
  | .assign i source => Function.update a i ((a i).assign (a source))
  | .signExtendTo i width => Function.update a i ((a i).signExtendTo width)
  | .zeroExtendTo i width => Function.update a i ((a i).zeroExtendTo width)

/-- Widths are 1 to 64. A value that is set to 64 bits has them already. An integer of 32 bits
finds its extension in the bits from 32 on. The source of an assignment has no bits above its width
that the destination would show. -/
def Allowed (s : ι → SimValue) : Call ι → Prop
  | .construct _ _ width => 0 < width ∧ width ≤ 64
  | .constructValue _ _ _ width => 0 < width ∧ width ≤ 64
  | .copy _ _ _ => True
  | .deepCopy _ _ => True
  | .setBitWidth i width => 0 < width ∧ width ≤ 64 ∧ (width = 64 → (s i).bitWidth = 64)
  | .assignSIntWord i value =>
    ∀ j < (s i).bitWidth, 32 ≤ j → (s i).rawData.getLsbD j = value.msb
  | .assignUIntWord i _ => ∀ j < (s i).bitWidth, 32 ≤ j → (s i).rawData.getLsbD j = false
  | .assignSLongWord _ _ => True
  | .assignULongWord _ _ => True
  | .assign i source =>
    ∀ j < (s i).bitWidth, (s source).bitWidth ≤ j → j < 8 * byteCount (s source).bitWidth →
      (s source).rawData.getLsbD j = false
  | .signExtendTo _ _ => True
  | .zeroExtendTo _ _ => True

instance (s : ι → SimValue) : (c : Call ι) → Decidable (Allowed s c)
  | .construct _ _ width => inferInstanceAs (Decidable (0 < width ∧ width ≤ 64))
  | .constructValue _ _ _ width => inferInstanceAs (Decidable (0 < width ∧ width ≤ 64))
  | .copy _ _ _ => inferInstanceAs (Decidable True)
  | .deepCopy _ _ => inferInstanceAs (Decidable True)
  | .setBitWidth i width =>
    inferInstanceAs (Decidable (0 < width ∧ width ≤ 64 ∧ (width = 64 → (s i).bitWidth = 64)))
  | .assignSIntWord i value => inferInstanceAs (Decidable (∀ j < (s i).bitWidth, 32 ≤ j →
      (s i).rawData.getLsbD j = value.msb))
  | .assignUIntWord i _ => inferInstanceAs (Decidable (∀ j < (s i).bitWidth, 32 ≤ j →
      (s i).rawData.getLsbD j = false))
  | .assignSLongWord _ _ => inferInstanceAs (Decidable True)
  | .assignULongWord _ _ => inferInstanceAs (Decidable True)
  | .assign i source => inferInstanceAs (Decidable (∀ j < (s i).bitWidth,
      (s source).bitWidth ≤ j → j < 8 * byteCount (s source).bitWidth →
        (s source).rawData.getLsbD j = false))
  | .signExtendTo _ _ => inferInstanceAs (Decidable True)
  | .zeroExtendTo _ _ => inferInstanceAs (Decidable True)

theorem update_represents {s : ι → SimValue} {a : ι → SimWord} (h : ∀ i, Represents (s i) (a i))
    (i : ι) {v : SimValue} {b : SimWord} (hv : Represents v b) (j : ι) :
    Represents (Function.update s i v j) (Function.update a i b j) := by
  by_cases hj : j = i
  · subst hj
    rwa [Function.update_self, Function.update_self]
  · rw [Function.update_of_ne hj, Function.update_of_ne hj]
    exact h j

theorem step_ok {s : ι → SimValue} {c : Call ι} {v : SimValue} (h : (call s c).2 = .ok v) :
    step s c = .ok (Function.update s (call s c).1 v) := by
  rw [step, h]
  rfl

theorem step_rejected {s : ι → SimValue} {c : Call ι} {e : ExceptionClass}
    (h : (call s c).2 = .error (.exception e)) : step s c = .ok s := by
  rw [step, h]
  rfl

/-- A call changes the value as it changes the word. -/
theorem step_represents {s : ι → SimValue} {a : ι → SimWord} (h : ∀ i, Represents (s i) (a i))
    {c : Call ι} (hc : Allowed s c) :
    ∃ s', step s c = .ok s' ∧ ∀ i, Represents (s' i) (onWords a c i) := by
  cases c with
  | construct i storage width =>
    obtain ⟨v, he, hv⟩ := construct_represents storage hc.1 hc.2
    exact ⟨_, step_ok he, update_represents h i hv⟩
  | constructValue i storage value width =>
    obtain ⟨v, he, hv⟩ := constructValue_represents storage value hc.1 hc.2
    exact ⟨_, step_ok he, update_represents h i hv⟩
  | copy i storage source => exact ⟨_, step_ok rfl, update_represents h i ((h source).deepCopy _)⟩
  | deepCopy i source => exact ⟨_, step_ok rfl, update_represents h i ((h source).deepCopy _)⟩
  | setBitWidth i width =>
    obtain ⟨hpos, hle, hmask⟩ := hc
    obtain ⟨v, he, hv⟩ := setBitWidth_represents hpos hle fun hwidth j hj => by
      rw [(h i).mask j hj, decide_eq_true (by rwa [← (h i).width, hmask hwidth])]
    exact ⟨_, step_ok he, update_represents h i hv⟩
  | assignSIntWord i value =>
    exact ⟨_, step_ok rfl, update_represents h i ((h i).assignSIntWord hc)⟩
  | assignUIntWord i value =>
    exact ⟨_, step_ok rfl, update_represents h i ((h i).assignUIntWord hc)⟩
  | assignSLongWord i value =>
    exact ⟨_, step_ok rfl, update_represents h i ((h i).assignSLongWord value)⟩
  | assignULongWord i value =>
    exact ⟨_, step_ok rfl, update_represents h i ((h i).assignULongWord value)⟩
  | assign i source =>
    exact ⟨_, step_ok rfl, update_represents h i ((h i).assign (h source) hc)⟩
  | signExtendTo i width =>
    rcases (h i).signExtendTo width with ⟨v, he, hv⟩ | ⟨he, hv⟩
    · exact ⟨_, step_ok he, update_represents h i hv⟩
    · refine ⟨s, step_rejected he, fun j => ?_⟩
      have hj := update_represents h i hv j
      rwa [Function.update_eq_self] at hj
  | zeroExtendTo i width =>
    rcases (h i).zeroExtendTo width with ⟨v, he, hv⟩ | ⟨he, hv⟩
    · exact ⟨_, step_ok he, update_represents h i hv⟩
    · refine ⟨s, step_rejected he, fun j => ?_⟩
      have hj := update_represents h i hv j
      rwa [Function.update_eq_self] at hj

/-- What the readers of a value return for a word. -/
def Reads (v : SimValue) (a : SimWord) : Prop :=
  v.bitWidth = a.width ∧ v.uLongWordValue.toNat = a.bits.toNat ∧
    ∃ value, v.sLongWordValue = .ok value ∧ value.toInt = a.bits.toInt

theorem stepAll_represents {s : ι → SimValue} {a : ι → SimWord} (h : ∀ i, Represents (s i) (a i))
    {calls : List (Call ι)} (hcalls : Along step Allowed s calls) :
    ∃ s', calls.foldlM step s = .ok s' ∧
      ∀ i, Represents (s' i) (calls.foldl onWords a i) := by
  induction calls generalizing s a with
  | nil => exact ⟨s, rfl, h⟩
  | cons c calls ih =>
    obtain ⟨hc, hrest⟩ := hcalls
    obtain ⟨s', he, h'⟩ := step_represents h hc
    obtain ⟨s'', he', h''⟩ := ih h' (hrest s' he)
    refine ⟨s'', ?_, h''⟩
    rw [List.foldlM_cons, he]
    exact he'

/-- In every run of such calls the values are read as the words they stand for. -/
theorem run_reads (storage : ι → BitVec 4096) (calls : List (Call ι))
    (h : Along step Allowed (start storage) calls) :
    ∃ s, calls.foldlM step (start storage) = .ok s ∧
      ∀ i, Reads (s i) (calls.foldl onWords (fun _ => .zero 64) i) := by
  obtain ⟨s, he, hs⟩ := stepAll_represents (start_represents storage) h
  exact ⟨s, he, fun i => ⟨(hs i).width, (hs i).uLongWordValue, (hs i).sLongWordValue⟩⟩

end Runs

/-- An integer of nine bits in a value of eight, copied to one of sixteen and sign extended. -/
def wideInteger : List (Call Bool) :=
  [.setBitWidth true 8, .assignSLongWord true 0x1ff#64, .setBitWidth false 16, .assign false true,
    .signExtendTo false 8]

theorem wideInteger_reads :
    ∃ s, wideInteger.foldlM step (start fun _ => 0#4096) = .ok s ∧
      ∀ i, Reads (s i) (wideInteger.foldl onWords (fun _ => .zero 64) i) :=
  run_reads (fun _ => 0#4096) wideInteger (by decide +kernel)

/-- The variable `false` is read as its word after the calls. -/
def ReadsAfter (calls : List (Call Bool)) : Prop :=
  ∃ s, calls.foldlM step (start fun _ => 0#4096) = .ok s ∧
    Reads (s false) (calls.foldl onWords (fun _ => .zero 64) false)

theorem not_readsAfter {calls : List (Call Bool)} (value : Nat)
    (h : (calls.foldlM step (start fun _ => 0#4096)).map
      (fun s => (s false).uLongWordValue.toNat) = .ok value)
    (hvalue : value ≠ (calls.foldl onWords (fun _ => .zero 64) false).bits.toNat) :
    ¬ ReadsAfter calls := by
  rintro ⟨s, he, -, hreads, -⟩
  rw [he] at h
  exact hvalue ((Except.ok.inj h).symm.trans hreads)

/-- The width 64 after a narrower one keeps its mask. The width 0 has no signed reading. An `int`
leaves the high bits of a wide value. The bits above the width of a source are copied too. -/
theorem four_runs_not_read :
    ¬ ReadsAfter [.setBitWidth false 32, .setBitWidth false 64,
      .assignULongWord false 0x100000000#64] ∧
    ¬ ReadsAfter [.setBitWidth false 0] ∧
    ¬ ReadsAfter [.assignSIntWord false 0xffffffff#32] ∧
    ¬ ReadsAfter [.setBitWidth true 4, .assignULongWord true 0xff#64, .setBitWidth false 8,
      .assign false true] := by
  refine ⟨not_readsAfter 0 (by decide +kernel) (by decide +kernel), ?_,
    not_readsAfter 0xffffffff (by decide +kernel) (by decide +kernel),
    not_readsAfter 0xff (by decide +kernel) (by decide +kernel)⟩
  rintro ⟨s, he, -, -, value, hsigned, -⟩
  have h : ([Call.setBitWidth false 0].foldlM step (start fun _ => 0#4096)).map
      (fun s => (s false).sLongWordValue) = .ok (.error .undefined) := by
    decide +kernel
  rw [he] at h
  exact nomatch hsigned.symm.trans (Except.ok.inj h)

end SimValue
end OpenAsip.Tools
