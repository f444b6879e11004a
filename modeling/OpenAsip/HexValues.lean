import OpenAsip.ConversionLiterals
import OpenAsip.DigitStrings
import OpenAsip.SimValues

namespace OpenAsip
set_option autoImplicit true

namespace Conversion
open Tools.SimValue

def withoutPrefix (hexValue : List Char) : List Char :=
  if hexValue.head? = some '0' ∧ hexValue[1]? = some 'x' then hexValue.drop 2 else hexValue

/-- An uneven number of digits gets one more. -/
def wholeBytes (hexValue : List Char) : List Char :=
  if hexValue.length % 2 = 1 then '0' :: hexValue else hexValue

/-- The loop over the bytes, two characters for each. -/
def toRawDataLoop : List Char → Nat → BitVec 4096 → Outcome (BitVec 4096)
  | a :: b :: l, i, target => do
    let value ← toInt ['0', 'x', a, b]
    toRawDataLoop l (i + 1) (setByte target i (BitVec.ofInt 8 value))
  | _, _, target => .ok target

def toRawData (hexSource : List Char) (target : BitVec 4096) : Outcome (BitVec 4096) :=
  toRawDataLoop (wholeBytes (withoutPrefix hexSource)) 0 target

def toHexString (source digits : Nat) : List Char := '0' :: 'x' :: hexDigits source digits

end Conversion

namespace Tools.SimValue

def swapByteOrder (source : BitVec 4096) (byteCount : Nat) (target : BitVec 4096) : BitVec 4096 :=
  (List.range byteCount).foldl
    (fun target i => setByte target (byteCount - 1 - i) (byte source i)) target

def uIntWordValue (v : SimValue) : BitVec 32 :=
  ((v.rawData.setWidth 32).setWidth 64 &&& v.mask).setWidth 32

/-- The printer for the widths from 33 on: one byte at a time, from the highest one on. -/
def hexBytes (v : SimValue) : List Char :=
  let count := byteCount v.bitWidth
  let msbMask := (~~~(BitVec.allOnes 64 <<< (8 - (count * 8 - v.bitWidth)))).setWidth 32
  (List.range count).reverse.flatMap fun i =>
    let value := (byte v.rawData i).setWidth 32
    let value := if i = count - 1 then value &&& msbMask else value
    (Conversion.toHexString value.toNat 2).drop 2

def hexValue (v : SimValue) (noHexIdentifier : Bool) : List Char :=
  let hexNumbers := (v.bitWidth + 3) / 4
  if v.bitWidth ≤ 32 then
    if noHexIdentifier then (Conversion.toHexString v.uIntWordValue.toNat hexNumbers).drop 2
    else Conversion.toHexString v.uLongWordValue.toNat hexNumbers
  else
    let hexStr := v.hexBytes.drop (v.hexBytes.length - hexNumbers)
    if noHexIdentifier then hexStr else '0' :: 'x' :: hexStr

/-- The bytes that are cleared before a value is stored that is wider than the width. -/
def paddingBytes (v : SimValue) (valueBitWidth : Nat) : Nat :=
  if v.bitWidth < valueBitWidth then (valueBitWidth - v.bitWidth) / 8 else 0

/-- The characters of a string that are converted. -/
def digitsOf (hexValue : List Char) : List Char :=
  if 2 < hexValue.length then Conversion.withoutPrefix hexValue else hexValue

/-- The string is converted in an array on the stack, which is not initialised. -/
def setValue (v : SimValue) (hexValue : List Char) (bigEndianData : BitVec 4096) :
    Outcome SimValue :=
  let hexValue := digitsOf hexValue
  let valueBitWidth := hexValue.length * 4
  let v := { v with bitWidth := if v.bitWidth = 0 then valueBitWidth else v.bitWidth }
  if 4096 < valueBitWidth then .error Conversion.numberFormatException
  else if valueBitWidth = 0 then .error Conversion.numberFormatException
  -- the padding is written behind the end of the storage
  else if 512 < valueBitWidth / 8 + v.paddingBytes valueBitWidth then .error .undefined
  else do
    let rawData := overwrite v.rawData 0#4096 (valueBitWidth / 8) (v.paddingBytes valueBitWidth)
    let bigEndianData ← Conversion.toRawData hexValue bigEndianData
    let byteWidth := valueBitWidth / 8
    let byteWidth := if valueBitWidth % 8 ≠ 0 then byteWidth + 1 else byteWidth
    .ok { v with rawData := swapByteOrder bigEndianData byteWidth rawData }

end Tools.SimValue

namespace Conversion
open Tools.SimValue

section Pairs
variable {a b : Char} {l : List Char} {i : Nat} {target : BitVec 4096}

theorem toInt_hex (r : List Char) : toInt ('0' :: 'x' :: r) = hexOrBinary int ('0' :: 'x' :: r) :=
  (toSigned_triesFormats rfl (by decide) ('0' :: 'x' :: r)).hexadecimal

theorem toInt_pair (ha : isDigit 16 a = true) (hb : isDigit 16 b = true) :
    toInt ['0', 'x', a, b] = .ok (numberOf 16 [a, b]) := by
  have hlt : numberOf 16 [a, b] < 256 := numberOf_lt (by decide) [a, b]
  have hall : ∀ c ∈ [a, b], isDigit 16 c = true := by
    intro c hc
    rcases List.mem_cons.1 hc with rfl | hc
    · exact ha
    · rw [List.mem_singleton.1 hc]
      exact hb
  have hcall := hexOrBinary_hexadecimal (t := int) (List.cons_ne_nil a [b]) hall
    (Nat.lt_trans hlt (by decide)) (nofun : Blank [])
  have hlimit : numberOf 16 [a, b] ≤ int.limit false :=
    Nat.le_of_lt (Nat.lt_of_lt_of_le hlt (by decide))
  have hwrap := wrap_signed rfl (by decide) hlimit
  rw [List.append_nil] at hcall
  rw [toInt_hex, hcall]
  exact congrArg Except.ok hwrap

/-- A digit with something behind it that is no digit, no white space and no prefix with it. -/
def GarbageBehindDigit (a b : Char) : Prop :=
  isDigit 16 a = true ∧ isDigit 16 b = false ∧ isSpace b = false ∧
    ¬ (a = '0' ∧ (b = 'x' ∨ b = 'X'))

/-- Of one character there is nothing left if it is a digit. -/
theorem dropWhile_singleton (hne : [b].takeWhile (isDigit 16) ≠ []) :
    [b].dropWhile (isDigit 16) = [] := by
  cases hb : isDigit 16 b with
  | true => rw [List.dropWhile_cons, hb, if_pos rfl, List.dropWhile_nil]
  | false =>
    rw [List.takeWhile_cons, hb, if_neg Bool.false_ne_true] at hne
    exact (hne rfl).elim

theorem scan_short (hl : l.length ≤ 1) (hne : (TextStream.scan 16 l).2.1 ≠ []) :
    (TextStream.scan 16 l).2.2 = [] := by
  cases l with
  | nil => rfl
  | cons c l =>
    obtain rfl := List.length_eq_zero_iff.1 (Nat.le_zero.1 (Nat.le_of_succ_le_succ hl))
    rw [TextStream.scan, TextStream.readSign] at hne ⊢
    by_cases hminus : c = '-'
    · rw [if_pos hminus] at hne
      exact (hne rfl).elim
    · by_cases hplus : c = '+'
      · rw [if_neg hminus, if_pos hplus] at hne
        exact (hne rfl).elim
      · rw [if_neg hminus, if_neg hplus] at hne ⊢
        exact dropWhile_singleton hne

theorem scan_sign (hsign : a = '-' ∨ a = '+') (hne : (TextStream.scan 16 [a, b]).2.1 ≠ []) :
    (TextStream.scan 16 [a, b]).2.2 = [] := by
  rcases hsign with rfl | rfl
  · exact dropWhile_singleton hne
  · exact dropWhile_singleton hne

theorem scan_pair (hminus : a ≠ '-') (hplus : a ≠ '+') (hx : ¬ (a = '0' ∧ (b = 'x' ∨ b = 'X'))) :
    (TextStream.scan 16 [a, b]).2 =
      ([a, b].takeWhile (isDigit 16), [a, b].dropWhile (isDigit 16)) := by
  rw [TextStream.scan, TextStream.readSign, if_neg hminus, if_neg hplus]
  dsimp only
  rw [TextStream.readPrefix, if_neg fun h => hx ⟨h.2.1, h.2.2⟩]

/-- Two characters have garbage behind a number if they are a digit and garbage. -/
theorem garbageAfterNumber_pair : GarbageAfterNumber int [a, b] ↔ GarbageBehindDigit a b := by
  constructor
  · rintro ⟨-, hdigits, -, hrest⟩
    have hlong : (TextStream.scan 16 ([a, b].dropWhile isSpace)).2.2 ≠ [] := by
      intro hnil
      rw [hnil] at hrest
      exact hrest nofun
    have hspace : isSpace a = false := by
      cases ha : isSpace a with
      | false => rfl
      | true =>
        rw [List.dropWhile_cons, ha, if_pos rfl] at hdigits hlong
        have hlength := (List.dropWhile_suffix isSpace (l := [b])).length_le
        exact (hlong (scan_short hlength hdigits)).elim
    rw [List.dropWhile_cons, hspace, if_neg Bool.false_ne_true] at hdigits hrest hlong
    have hminus : a ≠ '-' := fun h => hlong (scan_sign (.inl h) hdigits)
    have hplus : a ≠ '+' := fun h => hlong (scan_sign (.inr h) hdigits)
    have hx : ¬ (a = '0' ∧ (b = 'x' ∨ b = 'X')) := by
      rintro ⟨rfl, rfl | rfl⟩
      · exact hdigits rfl
      · exact hdigits rfl
    rw [scan_pair hminus hplus hx] at hdigits hrest hlong
    have ha : isDigit 16 a = true := by
      cases ha : isDigit 16 a with
      | true => rfl
      | false =>
        dsimp only at hdigits
        rw [List.takeWhile_cons, ha, if_neg Bool.false_ne_true] at hdigits
        exact (hdigits rfl).elim
    dsimp only at hrest hlong
    rw [List.dropWhile_cons, ha, if_pos rfl] at hrest hlong
    have hb : isDigit 16 b = false := by
      cases hb : isDigit 16 b with
      | false => rfl
      | true =>
        rw [List.dropWhile_cons, hb, if_pos rfl] at hlong
        exact (hlong rfl).elim
    rw [List.dropWhile_cons, hb, if_neg Bool.false_ne_true] at hrest
    refine ⟨ha, hb, ?_, hx⟩
    cases hs : isSpace b with
    | false => rfl
    | true => exact (hrest fun c hc => List.mem_singleton.1 hc ▸ hs).elim
  · rintro ⟨ha, hb, hs, hx⟩
    have hspace := isSpace_of_isDigit ha
    have hminus : a ≠ '-' := by
      rintro rfl
      cases ha
    have hplus : a ≠ '+' := by
      rintro rfl
      cases ha
    have hnumber : numberOf 16 [a] < 16 := numberOf_lt (by decide) [a]
    have hblank : ∀ l, ¬ Blank (l ++ [b]) := by
      intro l h
      rw [h b (List.mem_append_right l List.mem_cons_self)] at hs
      cases hs
    rw [GarbageAfterNumber, List.dropWhile_cons, hspace, if_neg Bool.false_ne_true,
      scan_pair hminus hplus hx]
    dsimp only
    rw [List.takeWhile_cons, ha, if_pos rfl, List.takeWhile_cons, hb, if_neg Bool.false_ne_true,
      List.dropWhile_cons, ha, if_pos rfl, List.dropWhile_cons, hb, if_neg Bool.false_ne_true]
    exact ⟨hblank [a], List.cons_ne_nil a [], Nat.lt_trans hnumber (by decide), hblank []⟩

/-- The pairs of a string. -/
def pairs : List Char → List (Char × Char)
  | a :: b :: l => (a, b) :: pairs l
  | _ => []

theorem toInt_pair_error : toInt ['0', 'x', a, b] = .error numberFormatException ↔
    GarbageBehindDigit a b := by
  rw [toInt_hex, hexOrBinary_hex_error_iff, garbageAfterNumber_pair]

theorem toInt_hex_fault {r : List Char} {f : Fault} (h : toInt ('0' :: 'x' :: r) = .error f) :
    f = numberFormatException := by
  rw [toInt_hex] at h
  exact hexOrBinary_error h

theorem toRawDataLoop_fault {f : Fault} (h : toRawDataLoop l i target = .error f) :
    f = numberFormatException := by
  induction l, i, target using toRawDataLoop.induct with
  | case1 a b l i target ih =>
    rw [toRawDataLoop] at h
    cases hcall : toInt ['0', 'x', a, b] with
    | ok value =>
      rw [hcall] at h
      exact ih value h
    | error f' =>
      rw [hcall] at h
      cases h
      exact toInt_hex_fault hcall
  | case2 l i target hl =>
    rw [toRawDataLoop] at h
    · cases h
    · exact hl

theorem toRawDataLoop_error : toRawDataLoop l i target = .error numberFormatException ↔
    ∃ p ∈ pairs l, GarbageBehindDigit p.1 p.2 := by
  induction l, i, target using toRawDataLoop.induct with
  | case1 a b l i target ih =>
    rw [toRawDataLoop, pairs, List.exists_mem_cons_iff, ← toInt_pair_error]
    cases hcall : toInt ['0', 'x', a, b] with
    | ok value =>
      exact ⟨fun h => .inr ((ih value).1 h), fun h => (ih value).2 (h.resolve_left nofun)⟩
    | error f =>
      obtain rfl := toInt_hex_fault hcall
      exact ⟨fun _ => .inl rfl, fun _ => rfl⟩
  | case2 l i target hl =>
    rw [toRawDataLoop, pairs]
    · exact ⟨nofun, fun ⟨_, hp, _⟩ => nomatch hp⟩
    · exact hl
    · exact hl

/-- The bytes of a hexadecimal number, the highest one first. -/
theorem toRawDataLoop_ok (hall : ∀ c ∈ l, isDigit 16 c = true) (heven : l.length % 2 = 0)
    (hfits : i + l.length / 2 ≤ 512) :
    ∃ target', toRawDataLoop l i target = .ok target' ∧
      (∀ j < 8 * i, target'.getLsbD j = target.getLsbD j) ∧
      ∀ k < l.length / 2, ∀ r < 8, target'.getLsbD (8 * (i + k) + r) =
        (numberOf 16 l).testBit (8 * (l.length / 2 - 1 - k) + r) := by
  induction l, i, target using toRawDataLoop.induct with
  | case1 a b l i target ih =>
    have hcall := toInt_pair (hall a List.mem_cons_self)
      (hall b (List.mem_cons_of_mem a List.mem_cons_self))
    have hrest := fun c hc => hall c (List.mem_cons_of_mem a (List.mem_cons_of_mem b hc))
    rw [List.length_cons, List.length_cons] at heven hfits ⊢
    obtain ⟨target', he, hbelow, hbytes⟩ := ih (numberOf 16 [a, b]) hrest (by omega) (by omega)
    have hbyte : BitVec.ofInt 8 (numberOf 16 [a, b]) = BitVec.ofNat 8 (numberOf 16 [a, b]) :=
      BitVec.ofInt_natCast 8 _
    have hlength : 4 * l.length = 8 * (l.length / 2) := by omega
    refine ⟨target', ?_, fun j hj => ?_, fun k hk r hr => ?_⟩
    · rw [toRawDataLoop, hcall]
      exact he
    · rw [hbelow j (by omega), getLsbD_setByte _ (by omega), if_neg (by omega)]
    · have hsplit := testBit_numberOf_append [a, b] l
      rw [List.cons_append, List.cons_append, List.nil_append] at hsplit
      rw [hsplit, hlength]
      cases k with
      | zero =>
        rw [hbelow _ (by omega), getLsbD_setByte _ (by omega), if_pos (by omega), hbyte,
          BitVec.getLsbD_ofNat, if_neg (by omega)]
        have hr' : (8 * (i + 0) + r) % 8 = r := by omega
        have hr'' : 8 * ((l.length + 1 + 1) / 2 - 1 - 0) + r - 8 * (l.length / 2) = r := by omega
        rw [hr', hr'', decide_eq_true hr, Bool.true_and]
      | succ k =>
        have hindex : 8 * (i + (k + 1)) + r = 8 * (i + 1 + k) + r := by omega
        have hplace : (l.length + 1 + 1) / 2 - 1 - (k + 1) = l.length / 2 - 1 - k := by omega
        rw [hindex, hbytes k (by omega) r hr, if_pos (by omega), hplace]
  | case2 l i target hl =>
    have hnil : l.length / 2 = 0 := by
      cases l with
      | nil => rfl
      | cons c l => cases l with
        | nil => rw [List.length_singleton]
        | cons d l => exact (hl c d l rfl).elim
    refine ⟨target, ?_, fun j _ => rfl, fun k hk => absurd hk (by omega)⟩
    rw [toRawDataLoop]
    exact hl

end Pairs
end Conversion
end OpenAsip
