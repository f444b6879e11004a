import OpenAsip.HexValues

namespace OpenAsip.Tools.SimValue
set_option autoImplicit true
open Conversion

def HexadecimalString (s digits : List Char) : Prop :=
  digits ≠ [] ∧ (∀ c ∈ digits, isDigit 16 c = true) ∧ (s = digits ∨ s = '0' :: 'x' :: digits)

/-- The bytes that the digits fill have the number, and those of the value above keep what they
have. A value without width gets the width of the digits. -/
structure Stores (v : SimValue) (digits : List Char) (v' : SimValue) : Prop where
  number : ∀ j < 8 * ((digits.length + 1) / 2),
    v'.rawData.getLsbD j = (numberOf 16 digits).testBit j
  others : ∀ j, 8 * ((digits.length + 1) / 2) ≤ j → j < v.bitWidth →
    v'.rawData.getLsbD j = v.rawData.getLsbD j
  bitWidth : v'.bitWidth = if v.bitWidth = 0 then 4 * digits.length else v.bitWidth
  mask : v'.mask = v.mask

/-- The call throws, or it stores the number of a hexadecimal string. The array on the stack may
have any contents. -/
def StoresOrThrows (v : SimValue) (s : List Char) : Prop :=
  ∀ bigEndianData, v.setValue s bigEndianData = .error numberFormatException ∨
    ∃ digits v', HexadecimalString s digits ∧ v.setValue s bigEndianData = .ok v' ∧
      Stores v digits v'

/-- The call with the value that was printed. -/
def KeepsPrinted (v : SimValue) : Prop :=
  ∀ bigEndianData, ∃ v', v.setValue (v.hexValue false) bigEndianData = .ok v' ∧
    v'.bitWidth = v.bitWidth ∧ ∀ j < v.bitWidth, v'.rawData.getLsbD j = v.rawData.getLsbD j

/-- The padding ends within the storage. -/
def PaddingFits (v : SimValue) (n : Nat) : Prop :=
  v.bitWidth = 0 ∨ n / 2 + (4 * n - v.bitWidth) / 8 ≤ 512

section Setting
variable {v : SimValue} {s digits : List Char} {bigEndianData : BitVec 4096}

theorem getLsbD_swapLoop (source target : BitVec 4096) {n m : Nat} (hn : n ≤ 512) (hm : m ≤ n)
    (j : Nat) :
    ((List.range m).foldl (fun target i => setByte target (n - 1 - i) (byte source i))
      target).getLsbD j =
      if n - m ≤ j / 8 ∧ j / 8 < n then source.getLsbD (8 * (n - 1 - j / 8) + j % 8)
      else target.getLsbD j := by
  induction m with
  | zero =>
    rw [List.range_zero, List.foldl_nil, if_neg (by omega)]
  | succ m ih =>
    rw [List.range_succ, List.foldl_append, List.foldl_cons, List.foldl_nil,
      getLsbD_setByte _ (by omega)]
    by_cases hj : j / 8 = n - 1 - m
    · rw [if_pos hj, if_pos (by omega), getLsbD_byte _ _ (Nat.mod_lt j (by decide)),
        show n - 1 - j / 8 = m by omega]
    · rw [if_neg hj, ih (by omega)]
      exact if_congr (by omega) rfl rfl

theorem getLsbD_swapByteOrder (source target : BitVec 4096) {n : Nat} (hn : n ≤ 512) (j : Nat) :
    (swapByteOrder source n target).getLsbD j =
      if j / 8 < n then source.getLsbD (8 * (n - 1 - j / 8) + j % 8) else target.getLsbD j := by
  rw [swapByteOrder, getLsbD_swapLoop source target hn (Nat.le_refl n)]
  exact if_congr (by omega) rfl rfl

theorem paddingBytes_eq (rawData : BitVec 4096) (mask : BitVec 64) (n width : Nat) :
    paddingBytes ⟨rawData, if width = 0 then n * 4 else width, mask⟩ (n * 4) =
      if width = 0 then 0 else (4 * n - width) / 8 := by
  rw [paddingBytes]
  dsimp only
  by_cases hwidth : width = 0
  · rw [if_pos hwidth, if_pos hwidth, if_neg (Nat.lt_irrefl _)]
  · rw [if_neg hwidth, if_neg hwidth]
    split
    · rw [Nat.mul_comm]
    · omega

theorem setValue_refuses (h : (digitsOf s).length = 0 ∨ 1024 < (digitsOf s).length) :
    v.setValue s bigEndianData = .error numberFormatException := by
  rw [setValue]
  dsimp only
  rcases h with h | h
  · rw [if_neg (by omega), if_pos (by omega)]
  · rw [if_pos (by omega)]

theorem setValue_overruns (hpos : 0 < (digitsOf s).length) (hle : (digitsOf s).length ≤ 1024)
    (h : ¬ PaddingFits v (digitsOf s).length) :
    v.setValue s bigEndianData = .error .undefined := by
  rw [PaddingFits, not_or] at h
  rw [setValue]
  dsimp only
  rw [paddingBytes_eq, if_neg (by omega), if_neg (by omega), if_neg h.1, if_pos (by omega)]

theorem setValue_fits (hpos : 0 < (digitsOf s).length) (hle : (digitsOf s).length ≤ 1024)
    (h : PaddingFits v (digitsOf s).length) :
    v.setValue s bigEndianData = (toRawData (digitsOf s) bigEndianData >>= fun data =>
      .ok ⟨swapByteOrder data (((digitsOf s).length + 1) / 2)
        (overwrite v.rawData 0#4096 ((digitsOf s).length / 2)
          (if v.bitWidth = 0 then 0 else (4 * (digitsOf s).length - v.bitWidth) / 8)),
        if v.bitWidth = 0 then 4 * (digitsOf s).length else v.bitWidth, v.mask⟩) := by
  have hwidth : (if (digitsOf s).length * 4 % 8 ≠ 0 then (digitsOf s).length * 4 / 8 + 1
      else (digitsOf s).length * 4 / 8) = ((digitsOf s).length + 1) / 2 := by
    split <;> omega
  have hfirst : (digitsOf s).length * 4 / 8 = (digitsOf s).length / 2 := by omega
  have hfits : ¬ 512 < (digitsOf s).length / 2 +
      if v.bitWidth = 0 then 0 else (4 * (digitsOf s).length - v.bitWidth) / 8 := by
    rcases h with h | h
    · rw [if_pos h]
      omega
    · split <;> omega
  rw [setValue]
  dsimp only
  rw [paddingBytes_eq, hwidth, hfirst, if_neg (by omega), if_neg (by omega), if_neg hfits,
    Nat.mul_comm (digitsOf s).length 4]

theorem withoutPrefix_digits (hall : ∀ c ∈ digits, isDigit 16 c = true) :
    withoutPrefix digits = digits := by
  rw [withoutPrefix, if_neg]
  rintro ⟨-, hx⟩
  cases hall 'x' (List.mem_of_getElem? hx)

theorem HexadecimalString.digitsOf (h : HexadecimalString s digits) : digitsOf s = digits := by
  obtain ⟨hne, hall, rfl | rfl⟩ := h
  · rw [SimValue.digitsOf, withoutPrefix_digits hall, ite_self]
  · have hpos := List.length_pos_iff.2 hne
    rw [SimValue.digitsOf, List.length_cons, List.length_cons, if_pos (by omega)]
    rfl

theorem hexadecimalString_digitsOf (hne : SimValue.digitsOf s ≠ [])
    (hall : ∀ c ∈ SimValue.digitsOf s, isDigit 16 c = true) :
    HexadecimalString s (SimValue.digitsOf s) := by
  refine ⟨hne, hall, ?_⟩
  rw [SimValue.digitsOf]
  split
  · rw [withoutPrefix]
    split
    · rename_i hstart
      right
      obtain ⟨h0, hx⟩ := hstart
      cases s with
      | nil => cases h0
      | cons c l => cases l with
        | nil => cases hx
        | cons d l =>
          cases h0
          cases hx
          rfl
    · exact .inl rfl
  · exact .inl rfl

theorem toRawData_ok (hall : ∀ c ∈ digits, isDigit 16 c = true) (hle : digits.length ≤ 1024)
    (target : BitVec 4096) :
    ∃ target', toRawData digits target = .ok target' ∧
      ∀ k < (digits.length + 1) / 2, ∀ r < 8, target'.getLsbD (8 * k + r) =
        (numberOf 16 digits).testBit (8 * ((digits.length + 1) / 2 - 1 - k) + r) := by
  have hwhole : (∀ c ∈ wholeBytes digits, isDigit 16 c = true) ∧
      (wholeBytes digits).length = 2 * ((digits.length + 1) / 2) ∧
      numberOf 16 (wholeBytes digits) = numberOf 16 digits := by
    rw [wholeBytes]
    split
    · refine ⟨fun c hc => ?_, ?_, ?_⟩
      · rcases List.mem_cons.1 hc with rfl | hc
        · rfl
        · exact hall c hc
      · rw [List.length_cons]
        omega
      · have hsplit : numberOf 16 ('0' :: digits) = 0 * 16 ^ digits.length + numberOf 16 digits :=
          numberOf_append ['0'] digits
        rwa [Nat.zero_mul, Nat.zero_add] at hsplit
    · exact ⟨hall, by omega, rfl⟩
  obtain ⟨hdigits, hlength, hnumber⟩ := hwhole
  have hfits : 0 + (wholeBytes digits).length / 2 ≤ 512 := by omega
  obtain ⟨target', he, -, hbytes⟩ := toRawDataLoop_ok hdigits (by omega) hfits
  rw [hlength, hnumber, Nat.mul_div_cancel_left _ (by decide)] at hbytes
  refine ⟨target', ?_, fun k hk r hr => ?_⟩
  · rw [toRawData, withoutPrefix_digits hall]
    exact he
  · have hbit := hbytes k hk r hr
    rwa [Nat.zero_add] at hbit

theorem setValue_stores (hs : HexadecimalString s digits) (hle : digits.length ≤ 1024)
    (hfits : PaddingFits v digits.length) (bigEndianData : BitVec 4096) :
    ∃ v', v.setValue s bigEndianData = .ok v' ∧ Stores v digits v' := by
  have hpos := List.length_pos_iff.2 hs.1
  have hdigits := hs.digitsOf
  obtain ⟨data, hdata, hbytes⟩ := toRawData_ok hs.2.1 hle bigEndianData
  have hcall : v.setValue s bigEndianData = _ := setValue_fits (by rwa [hdigits])
    (by rwa [hdigits]) (by rwa [hdigits])
  rw [hdigits, hdata] at hcall
  rw [hcall]
  refine ⟨_, rfl, fun j hj => ?_, fun j hj hwidth => ?_, rfl, rfl⟩
  · have hindex : 8 * ((digits.length + 1) / 2 - 1 - ((digits.length + 1) / 2 - 1 - j / 8)) +
        j % 8 = j := by omega
    dsimp only
    rw [getLsbD_swapByteOrder _ _ (by omega), if_pos (by omega), hbytes _ (by omega) _ (by omega),
      hindex]
  · dsimp only
    rw [getLsbD_swapByteOrder _ _ (by omega), if_neg (by omega), getLsbD_overwrite, if_neg]
    rw [if_neg (by omega)]
    omega

/-- The strings that are refused as a whole, and those whose padding fits and that are digits or
have garbage behind a digit in one of the pairs that are converted. -/
def Settable (v : SimValue) (s : List Char) : Prop :=
  digitsOf s = [] ∨ 1024 < (digitsOf s).length ∨
    PaddingFits v (digitsOf s).length ∧ ((∀ c ∈ digitsOf s, isDigit 16 c = true) ∨
      ∃ p ∈ pairs (wholeBytes (withoutPrefix (digitsOf s))), GarbageBehindDigit p.1 p.2)

theorem storesOrThrows_iff (v : SimValue) (s : List Char) : StoresOrThrows v s ↔ Settable v s := by
  by_cases hrefused : (digitsOf s).length = 0 ∨ 1024 < (digitsOf s).length
  · have hsettable : Settable v s := by
      rcases hrefused with h | h
      · exact .inl (List.length_eq_zero_iff.1 h)
      · exact .inr (.inl h)
    exact ⟨fun _ => hsettable, fun _ _ => .inl (setValue_refuses hrefused)⟩
  · have hne : digitsOf s ≠ [] := fun h => hrefused (.inl (List.length_eq_zero_iff.2 h))
    have hpos := List.length_pos_iff.2 hne
    have hle : (digitsOf s).length ≤ 1024 := by omega
    by_cases hfits : PaddingFits v (digitsOf s).length
    · constructor
      · intro h
        refine .inr (.inr ⟨hfits, ?_⟩)
        rcases h 0#4096 with hcall | ⟨digits, v', hs, -, -⟩
        · rw [setValue_fits hpos hle hfits] at hcall
          right
          cases hdata : toRawData (digitsOf s) 0#4096 with
          | ok data =>
            rw [hdata] at hcall
            cases hcall
          | error f =>
            rw [toRawDataLoop_fault hdata] at hdata
            exact toRawDataLoop_error.1 hdata
        · rw [hs.digitsOf]
          exact .inl hs.2.1
      · intro h
        rcases h with h | h | ⟨-, h | h⟩
        · exact (hne h).elim
        · omega
        · intro bigEndianData
          have hs := hexadecimalString_digitsOf hne h
          obtain ⟨v', hcall, hstores⟩ := setValue_stores hs hle hfits bigEndianData
          exact .inr ⟨digitsOf s, v', hs, hcall, hstores⟩
        · intro bigEndianData
          left
          have hdata : toRawData (digitsOf s) bigEndianData = .error numberFormatException :=
            toRawDataLoop_error.2 h
          rw [setValue_fits hpos hle hfits, hdata]
          rfl
    · have hcall : v.setValue s 0#4096 = .error .undefined := setValue_overruns hpos hle hfits
      constructor
      · intro h
        rcases h 0#4096 with h | ⟨digits, v', -, h, -⟩
        · rw [hcall] at h
          cases h
        · rw [hcall] at h
          cases h
      · rintro (h | h | h)
        · exact (hne h).elim
        · omega
        · exact (hfits h.1).elim

end Setting

section Printing
variable {v : SimValue}

/-- The bytes of a number, printed from the highest one on. -/
theorem flatMap_hexDigits (f : Nat → Nat) (hf : ∀ i, f i < 256) (n : Nat) :
    ((List.range n).reverse.flatMap fun i => hexDigits (f i) 2).length = 2 * n ∧
      (∀ c ∈ (List.range n).reverse.flatMap fun i => hexDigits (f i) 2, isDigit 16 c = true) ∧
      ∀ j < 8 * n, (numberOf 16
        ((List.range n).reverse.flatMap fun i => hexDigits (f i) 2)).testBit j =
        (f (j / 8)).testBit (j % 8) := by
  induction n with
  | zero => exact ⟨rfl, nofun, nofun⟩
  | succ n ih =>
    obtain ⟨hlength, hdigits, hbits⟩ := ih
    have hsplit : ((List.range (n + 1)).reverse.flatMap fun i => hexDigits (f i) 2) =
        hexDigits (f n) 2 ++ (List.range n).reverse.flatMap fun i => hexDigits (f i) 2 := by
      rw [List.range_succ, List.reverse_append, List.reverse_singleton, List.singleton_append,
        List.flatMap_cons]
    have htwo : (hexDigits (f n) 2).length = 2 := by
      have hle := length_hexDigits_le 2 (k := 2) (by decide) (hf n)
      omega
    rw [hsplit]
    refine ⟨?_, fun c hc => ?_, fun j hj => ?_⟩
    · rw [List.length_append, htwo, hlength]
      omega
    · rcases List.mem_append.1 hc with hc | hc
      · exact isDigit_hexDigits (f n) 2 c hc
      · exact hdigits c hc
    · rw [testBit_numberOf_append, hlength, numberOf_hexDigits]
      by_cases hlow : j < 8 * n
      · rw [if_pos (by omega), hbits j hlow]
      · have hbyte : j / 8 = n := by omega
        have hbit : j - 4 * (2 * n) = j % 8 := by omega
        rw [if_neg (by omega), hbyte, hbit]

/-- The value that is printed as one byte. -/
def printedByte (v : SimValue) (i : Nat) : BitVec 32 :=
  if i = byteCount v.bitWidth - 1 then (byte v.rawData i).setWidth 32 &&&
    (~~~(BitVec.allOnes 64 <<< (8 - (byteCount v.bitWidth * 8 - v.bitWidth)))).setWidth 32
  else (byte v.rawData i).setWidth 32

theorem hexBytes_eq (v : SimValue) : v.hexBytes =
    (List.range (byteCount v.bitWidth)).reverse.flatMap fun i =>
      hexDigits (v.printedByte i).toNat 2 := rfl

theorem printedByte_lt (v : SimValue) (i : Nat) : (v.printedByte i).toNat < 256 := by
  have hbyte : ((byte v.rawData i).setWidth 32).toNat < 256 := by
    rw [BitVec.toNat_setWidth]
    exact Nat.lt_of_le_of_lt (Nat.mod_le _ _) (byte v.rawData i).isLt
  rw [printedByte]
  split
  · rw [BitVec.toNat_and]
    exact Nat.lt_of_le_of_lt Nat.and_le_left hbyte
  · exact hbyte

theorem testBit_printedByte (v : SimValue) {j : Nat} (hj : j < v.bitWidth) :
    (v.printedByte (j / 8)).toNat.testBit (j % 8) = v.rawData.getLsbD j := by
  have hcount := le_byteCount v.bitWidth
  have hcount' := byteCount_lt v.bitWidth
  have hmod : j % 8 < 8 := Nat.mod_lt j (by decide)
  have hback : 8 * (j / 8) + j % 8 = j := Nat.div_add_mod j 8
  have hbyte : ((byte v.rawData (j / 8)).setWidth 32).getLsbD (j % 8) = v.rawData.getLsbD j := by
    rw [BitVec.getLsbD_setWidth, getLsbD_byte _ _ hmod, hback, decide_eq_true (by omega),
      Bool.true_and]
  rw [BitVec.testBit_toNat, printedByte]
  split
  · rename_i hlast
    have hmask : j % 8 < 8 - (byteCount v.bitWidth * 8 - v.bitWidth) := by omega
    rw [BitVec.getLsbD_and, hbyte, BitVec.getLsbD_setWidth, BitVec.getLsbD_not,
      BitVec.getLsbD_shiftLeft, decide_eq_true hmask, decide_eq_true (by omega : j % 8 < 64),
      decide_eq_true (by omega : j % 8 < 32)]
    simp
  · exact hbyte

/-- What is printed: the bits of the value, up to 32 of them masked. -/
theorem hexValue_digits (v : SimValue) :
    ∃ digits, v.hexValue false = '0' :: 'x' :: digits ∧ digits ≠ [] ∧
      (∀ c ∈ digits, isDigit 16 c = true) ∧ v.bitWidth ≤ 4 * digits.length ∧
      digits.length ≤ max 16 ((v.bitWidth + 3) / 4) ∧
      ∀ j < v.bitWidth, (numberOf 16 digits).testBit j =
        (v.rawData.getLsbD j && (decide (32 < v.bitWidth) || v.mask.getLsbD j)) := by
  by_cases hnarrow : v.bitWidth ≤ 32
  · refine ⟨hexDigits v.uLongWordValue.toNat ((v.bitWidth + 3) / 4), ?_, hexDigits_ne_nil _ _,
      isDigit_hexDigits _ _, ?_⟩
    · rw [hexValue, if_pos hnarrow, if_neg Bool.false_ne_true, toHexString]
    · have hlt : v.uLongWordValue.toNat < 16 ^ 16 := v.uLongWordValue.isLt
      have hlength := length_hexDigits_le ((v.bitWidth + 3) / 4) (by decide) hlt
      refine ⟨by omega, by omega, fun j hj => ?_⟩
      rw [numberOf_hexDigits, BitVec.testBit_toNat, uLongWordValue, BitVec.getLsbD_and,
        BitVec.getLsbD_setWidth, decide_eq_true (by omega : j < 64), Bool.true_and,
        decide_eq_false (by omega), Bool.false_or]
  · obtain ⟨hlength, hdigits, hbits⟩ := flatMap_hexDigits (fun i => (v.printedByte i).toNat)
      v.printedByte_lt (byteCount v.bitWidth)
    have hcount := le_byteCount v.bitWidth
    rw [← hexBytes_eq] at hlength hdigits hbits
    have hdrop : (v.hexBytes.drop (v.hexBytes.length - (v.bitWidth + 3) / 4)).length =
        (v.bitWidth + 3) / 4 := by
      rw [List.length_drop]
      omega
    refine ⟨v.hexBytes.drop (v.hexBytes.length - (v.bitWidth + 3) / 4), ?_, fun h => ?_,
      fun c hc => hdigits c (List.mem_of_mem_drop hc), by omega, by omega, fun j hj => ?_⟩
    · rw [hexValue, if_neg hnarrow]
      rfl
    · rw [h, List.length_nil] at hdrop
      omega
    · have hsplit := testBit_numberOf_append
        (v.hexBytes.take (v.hexBytes.length - (v.bitWidth + 3) / 4))
        (v.hexBytes.drop (v.hexBytes.length - (v.bitWidth + 3) / 4)) j
      rw [List.take_append_drop, hdrop, if_pos (by omega)] at hsplit
      rw [← hsplit, hbits j (by omega), testBit_printedByte v hj, decide_eq_true (by omega),
        Bool.true_or, Bool.and_true]

/-- The value has a width, and up to 32 bits the mask lets its bits through. -/
def Printable (v : SimValue) : Prop :=
  0 < v.bitWidth ∧ (v.bitWidth ≤ 32 →
    ∀ j < v.bitWidth, v.rawData.getLsbD j = true → v.mask.getLsbD j = true)

theorem keepsPrinted_iff (hv : v.bitWidth ≤ 4096) : KeepsPrinted v ↔ Printable v := by
  obtain ⟨digits, hprinted, hne, hall, hwidth, hlength, hbits⟩ := v.hexValue_digits
  have hs : HexadecimalString (v.hexValue false) digits := ⟨hne, hall, .inr hprinted⟩
  have hfits : PaddingFits v digits.length := by
    rw [PaddingFits]
    omega
  have hle : digits.length ≤ 1024 := by omega
  have hcovered : ∀ {v'}, Stores v digits v' → ∀ j < v.bitWidth, v'.rawData.getLsbD j =
      (v.rawData.getLsbD j && (decide (32 < v.bitWidth) || v.mask.getLsbD j)) := by
    intro v' hstores j hj
    rw [hstores.number j (by omega), hbits j hj]
  constructor
  · intro h
    obtain ⟨v', hcall, hstores⟩ := setValue_stores hs hle hfits 0#4096
    obtain ⟨v'', hcall', hkept, hbits'⟩ := h 0#4096
    rw [hcall] at hcall'
    cases hcall'
    constructor
    · apply Nat.pos_of_ne_zero
      intro hzero
      have hpos := List.length_pos_iff.2 hne
      rw [hstores.bitWidth, if_pos hzero] at hkept
      omega
    · intro hnarrow j hj hset
      have hbit := hcovered hstores j hj
      rw [hbits' j hj, hset, decide_eq_false (by omega), Bool.false_or, Bool.true_and] at hbit
      exact hbit.symm
  · rintro ⟨hpos, hmask⟩ bigEndianData
    obtain ⟨v', hcall, hstores⟩ := setValue_stores hs hle hfits bigEndianData
    refine ⟨v', hcall, ?_, fun j hj => ?_⟩
    · rw [hstores.bitWidth, if_neg (Nat.ne_of_gt hpos)]
    · rw [hcovered hstores j hj]
      cases hset : v.rawData.getLsbD j with
      | false => rfl
      | true =>
        rw [Bool.true_and]
        by_cases hwide : 32 < v.bitWidth
        · rw [decide_eq_true hwide, Bool.true_or]
        · rw [hmask (Nat.le_of_not_lt hwide) j hj hset, Bool.or_true]

/-- A value of eight bits, as the constructor makes it. -/
def eightBits : SimValue := ⟨0#4096, 8, 255#64⟩

def noBits : SimValue := ⟨0#4096, 0, 0#64⟩

end Printing
end OpenAsip.Tools.SimValue
