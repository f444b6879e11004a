import OpenAsip.BigEndian
import OpenAsip.MemoryWords
import OpenAsip.TpefCodeSection

namespace OpenAsip
set_option autoImplicit true

namespace Tpef
open BigEndian Memory

namespace ImmediateElement

/-- The loop that counts the bytes from the lowest one to the highest one that is not zero. -/
def neededBytes : Nat → Nat → Nat
  | 0, _ => 0
  | i + 1, tempValue => (if tempValue > 0 then 1 else 0) + neededBytes i (tempValue >>> 8)

/-- The loop that goes down to the highest byte that is not a copy of the sign. -/
def neededSignedBytes (size signByte : Nat) : Nat → Nat → Nat
  | i + 2, tempValue =>
    if tempValue >>> (8 * (size - 1)) ≠ signByte then i + 2
    else neededSignedBytes size signByte (i + 1) (tempValue <<< 8 % 2 ^ (8 * size))
  | _, _ => 1

/-- The loop of the four readers. -/
def valueLoop (size : Nat) : List UInt8 → Nat → Outcome Nat
  | [], retValue => .ok retValue
  | b :: l, retValue =>
    let retValue := retValue <<< 8 % 2 ^ (8 * size) ||| b.toNat
    if retValue ≠ 0 ∧ l.length + 1 > size then .error (.exception .outOfRange)
    else valueLoop size l retValue

/-- The loop that sets the bytes above the ones of the immediate. -/
def extendSign : Nat → Nat → Nat → Nat
  | 0, _, retValue => retValue
  | n + 1, i, retValue => extendSign n (i + 1) (retValue ||| 255 <<< (8 * i))

/-- The size is cut off to an `unsigned int`. -/
def length (e : ImmediateElement) : Nat := e.value.length % 2 ^ 32

def setUnsigned (e : ImmediateElement) (size value : Nat) : ImmediateElement :=
  { e with value := bytes (neededBytes size value) value }

def setSigned (e : ImmediateElement) (size : Nat) (value : BitVec (8 * size)) : ImmediateElement :=
  let negative := value.toInt < 0
  let needed :=
    bytes (neededSignedBytes size (if negative then 255 else 0) size value.toNat) value.toNat
  { e with value :=
      if negative ∧ needed.length < size ∧ needed.headD 0 &&& 128 ≠ 128 then 255 :: needed
      else if ¬ negative ∧ needed.length < size ∧ needed.headD 0 &&& 128 = 128 then 0 :: needed
      else needed }

def setWord (e : ImmediateElement) (aValue : BitVec 32) : ImmediateElement :=
  e.setUnsigned 4 aValue.toNat

def setULongWord (e : ImmediateElement) (aValue : BitVec 64) : ImmediateElement :=
  e.setUnsigned 8 aValue.toNat

def setSignedWord (e : ImmediateElement) (sValue : BitVec 32) : ImmediateElement :=
  e.setSigned 4 sValue

def setSignedLong (e : ImmediateElement) (sValue : BitVec 64) : ImmediateElement :=
  e.setSigned 8 sValue

def readUnsigned (e : ImmediateElement) (size : Nat) : Outcome Nat :=
  valueLoop size (e.value.take e.length) 0

/-- `BYTE_BITWIDTH * length() - 1` as an `unsigned int`. -/
def signPosition (e : ImmediateElement) : Nat := (8 * e.length + (2 ^ 32 - 1)) % 2 ^ 32

/-- The sign is tested before the length, also where it has no place in the word. -/
def readSigned (e : ImmediateElement) (size : Nat) : Outcome Nat := do
  let retValue ← e.readUnsigned size
  let sign ← shiftRight (8 * size) retValue e.signPosition
  if sign % 2 = 1 ∧ e.length < size then
    .ok (extendSign (size - e.length) e.length retValue)
  else .ok retValue

def word (e : ImmediateElement) : Outcome (BitVec 32) := do
  let retValue ← e.readUnsigned 4
  .ok (BitVec.ofNat 32 retValue)

def longWord (e : ImmediateElement) : Outcome (BitVec 64) := do
  let retValue ← e.readUnsigned 8
  .ok (BitVec.ofNat 64 retValue)

def signedWord (e : ImmediateElement) : Outcome (BitVec 32) := do
  let retValue ← e.readSigned 4
  .ok (BitVec.ofNat 32 retValue)

def sLongWord (e : ImmediateElement) : Outcome (BitVec 64) := do
  let retValue ← e.readSigned 8
  .ok (BitVec.ofNat 64 retValue)

section Encoders

theorem neededBytes_spec (hv : v < 256 ^ size) :
    v < 256 ^ neededBytes size v ∧ (∀ n, v < 256 ^ n → neededBytes size v ≤ n) := by
  induction size generalizing v with
  | zero => exact ⟨hv, fun n _ => Nat.zero_le n⟩
  | succ i ih =>
    have hshift : v >>> 8 = v / 256 := Nat.shiftRight_eq_div_pow v 8
    rw [Nat.pow_succ] at hv
    obtain ⟨hlt, hleast⟩ := ih (Nat.div_lt_of_lt_mul (Nat.mul_comm .. ▸ hv))
    rw [neededBytes, hshift]
    split
    · rename_i hpos
      constructor
      · rw [Nat.pow_add]
        omega
      · intro n hn
        cases n with
        | zero =>
          rw [Nat.pow_zero] at hn
          omega
        | succ n =>
          rw [Nat.pow_succ] at hn
          have := hleast n (Nat.div_lt_of_lt_mul (Nat.mul_comm .. ▸ hn))
          omega
    · rename_i hzero
      have hv0 : v = 0 := by omega
      subst hv0
      rw [Nat.zero_div] at hleast ⊢
      constructor
      · exact Nat.pow_pos (Nat.succ_pos 255)
      · intro n hn
        have := hleast n (Nat.pow_pos (Nat.succ_pos 255))
        omega

/-- The highest byte that is needed is not zero. -/
theorem head_bytes_needed (hv : v < 256 ^ size) :
    (bytes (neededBytes size v) v).head? ≠ some 0 := by
  obtain ⟨hlt, hleast⟩ := neededBytes_spec hv
  cases hn : neededBytes size v with
  | zero => exact nofun
  | succ n =>
    rw [hn] at hlt hleast
    have hge : 256 ^ n ≤ v := by
      by_contra hsmall
      have := hleast n (by omega)
      omega
    rw [Nat.pow_succ] at hlt
    have hdiv : 1 ≤ v / 256 ^ n := (Nat.one_le_div_iff (Nat.pow_pos (by decide))).2 hge
    have hdiv' : v / 256 ^ n < 256 := Nat.div_lt_of_lt_mul hlt
    rw [bytes_succ, List.head?_cons]
    intro h
    have hzero := congrArg UInt8.toNat (Option.some.inj h)
    rw [toNat_ofNat, Nat.mod_eq_of_lt hdiv'] at hzero
    change v / 256 ^ n = 0 at hzero
    omega

/-- The distance of a number from 0 or, if it is negative, from -1. -/
def magnitude (x : Int) : Nat := (if x < 0 then -1 - x else x).toNat

theorem fits_iff_magnitude (x : Int) (hn : n ≠ 0) : Fits n x ↔ 2 * magnitude x < 256 ^ n := by
  have heven := pow_even hn
  have hcast : ((256 ^ n : Nat) : Int) = 256 ^ n := by push_cast; rfl
  rw [Fits, magnitude]
  split
  · omega
  · omega

/-- The bytes of the number are those of the magnitude, or their complements. -/
def HasSign (size signByte u m : Nat) : Prop :=
  signByte = 0 ∧ u = m ∨ signByte = 255 ∧ u + m + 1 = 256 ^ size

theorem HasSign.mod (h : HasSign size signByte u m) (hn : n ≤ size) (hm : m < 256 ^ n) :
    HasSign n signByte (u % 256 ^ n) m := by
  rcases h with ⟨hs, rfl⟩ | ⟨hs, hu⟩
  · exact .inl ⟨hs, Nat.mod_eq_of_lt hm⟩
  · obtain ⟨k, rfl⟩ := Nat.exists_eq_add_of_le hn
    refine .inr ⟨hs, ?_⟩
    rw [Nat.pow_add] at hu
    have hpos : 0 < 256 ^ k := Nat.pow_pos (Nat.succ_pos 255)
    obtain ⟨q, hq⟩ := Nat.exists_eq_add_of_lt hpos
    have hu' : u = (256 ^ n - 1 - m) + 256 ^ n * q := by
      rw [hq, Nat.zero_add, Nat.mul_succ] at hu
      omega
    rw [hu', Nat.add_mul_mod_self_left, Nat.mod_eq_of_lt (by omega)]
    omega

theorem HasSign.topByte (h : HasSign (n + 1) signByte u m) (hm : m < 256 ^ (n + 1)) :
    u / 256 ^ n = signByte ↔ m < 256 ^ n := by
  have hpos : 0 < 256 ^ n := Nat.pow_pos (Nat.succ_pos 255)
  rw [Nat.pow_succ] at hm
  rcases h with ⟨rfl, rfl⟩ | ⟨rfl, hu⟩
  · rw [Nat.div_eq_zero_iff]
    omega
  · rw [Nat.pow_succ] at hu
    rw [Nat.div_eq_iff hpos]
    omega

/-- The highest bit is a copy of the sign. -/
theorem HasSign.topBit (h : HasSign (n + 1) signByte u m) (hm : m < 256 ^ (n + 1)) :
    (128 ≤ u / 256 ^ n ↔ signByte = 255) ↔ 2 * m < 256 ^ (n + 1) := by
  have hpos : 0 < 256 ^ n := Nat.pow_pos (Nat.succ_pos 255)
  rw [Nat.pow_succ] at hm ⊢
  rw [Nat.le_div_iff_mul_le hpos]
  rcases h with ⟨rfl, rfl⟩ | ⟨rfl, hu⟩
  · omega
  · rw [Nat.pow_succ] at hu
    omega

theorem neededSignedBytes_spec (hsign : HasSign size signByte u m) (hi : i + 1 ≤ size)
    (hm : m < 256 ^ (i + 1)) :
    let k := neededSignedBytes size signByte (i + 1)
      (u % 256 ^ (i + 1) * 256 ^ (size - (i + 1)))
    1 ≤ k ∧ k ≤ i + 1 ∧ m < 256 ^ k ∧ ∀ n, 1 ≤ n → m < 256 ^ n → k ≤ n := by
  induction i with
  | zero => exact ⟨Nat.le_refl 1, Nat.le_refl 1, hm, fun n hn _ => hn⟩
  | succ i ih =>
    obtain ⟨d, rfl⟩ := Nat.exists_eq_add_of_le hi
    have hexp : i + 1 + 1 + d - 1 = i + 1 + d := by omega
    have hexp' : i + 1 + 1 + d - (i + 1) = d + 1 := by omega
    have hbase : (2 : Nat) ^ 8 = 256 := rfl
    have htop : (u % 256 ^ (i + 1 + 1) * 256 ^ (i + 1 + 1 + d - (i + 1 + 1))) >>>
        (8 * (i + 1 + 1 + d - 1)) = u % 256 ^ (i + 1 + 1) / 256 ^ (i + 1) := by
      rw [Nat.shiftRight_eq_div_pow, Nat.pow_mul, hbase, hexp, Nat.add_sub_cancel_left,
        Nat.pow_add 256 (i + 1) d]
      exact Nat.mul_div_mul_right _ _ (Nat.pow_pos (Nat.succ_pos 255))
    have hnext : (u % 256 ^ (i + 1 + 1) * 256 ^ (i + 1 + 1 + d - (i + 1 + 1))) <<< 8 %
        2 ^ (8 * (i + 1 + 1 + d)) = u % 256 ^ (i + 1) * 256 ^ (i + 1 + 1 + d - (i + 1)) := by
      have hsplit : 256 ^ (i + 1 + 1 + d) = 256 ^ (i + 1) * 256 ^ (d + 1) := by
        rw [← Nat.pow_add]
        congr 1
        omega
      rw [Nat.shiftLeft_eq, Nat.pow_mul, hbase, Nat.add_sub_cancel_left, Nat.mul_assoc,
        ← Nat.pow_succ, hexp', hsplit, Nat.mul_mod_mul_right,
        Nat.mod_mod_of_dvd u (Nat.pow_dvd_pow 256 (Nat.le_succ (i + 1)))]
    have hbyte := (hsign.mod hi hm).topByte hm
    rw [neededSignedBytes, htop, hnext]
    split
    · rename_i hne
      have hge : ¬ m < 256 ^ (i + 1) := fun hlt => hne (hbyte.2 hlt)
      refine ⟨by omega, Nat.le_refl _, hm, ?_⟩
      intro n hn hlt
      by_contra hsmall
      exact hge (Nat.lt_of_lt_of_le hlt (Nat.pow_le_pow_right (Nat.succ_pos 255) (by omega)))
    · rename_i heq
      obtain ⟨hpos, hle, hlt, hleast⟩ := ih (by omega) (hbyte.1 (not_not.1 heq))
      exact ⟨hpos, Nat.le_succ_of_le hle, hlt, hleast⟩

theorem and_128 (b : UInt8) : b &&& 128 = 128 ↔ 128 ≤ b.toNat := by
  have hall : ∀ n < 256, n &&& 128 = 128 ↔ 128 ≤ n := by decide +kernel
  rw [← UInt8.toNat_inj, UInt8.toNat_and]
  exact hall b.toNat b.toNat_lt

/-- The signed encoders give the bytes of the first length that the value fits in. -/
theorem signedBytes_spec (hsign : HasSign (size + 1) signByte u m) (hu : u < 256 ^ (size + 1))
    (hm : 2 * m < 256 ^ (size + 1)) :
    let needed := bytes (neededSignedBytes (size + 1) signByte (size + 1) u) u
    ∃ k, 1 ≤ k ∧ k ≤ size + 1 ∧ 2 * m < 256 ^ k ∧ (∀ n, 1 ≤ n → 2 * m < 256 ^ n → k ≤ n) ∧
      (if needed.length < size + 1 ∧ ¬ (needed.headD 0 &&& 128 = 128 ↔ signByte = 255) then
        UInt8.ofNat signByte :: needed else needed) = bytes k u := by
  have hspec := neededSignedBytes_spec hsign (Nat.le_refl _) (by omega)
  rw [Nat.sub_self, Nat.pow_zero, Nat.mul_one, Nat.mod_eq_of_lt hu] at hspec
  revert hspec
  generalize neededSignedBytes (size + 1) signByte (size + 1) u = k
  rintro ⟨hpos, hle, hlt, hleast⟩
  obtain ⟨k, rfl⟩ := Nat.exists_eq_add_of_le' hpos
  have hbit := (hsign.mod hle hlt).topBit hlt
  have hhead : (bytes (k + 1) u).headD 0 &&& 128 = 128 ↔ 128 ≤ u % 256 ^ (k + 1) / 256 ^ k := by
    rw [bytes_succ, List.headD_cons, and_128, toNat_ofNat, Nat.pow_succ, Nat.mod_mul_right_div_self]
  have hcond : (bytes (k + 1) u).length < size + 1 ∧
      ¬ ((bytes (k + 1) u).headD 0 &&& 128 = 128 ↔ signByte = 255) ↔
      k + 1 < size + 1 ∧ ¬ 2 * m < 256 ^ (k + 1) := by
    rw [hhead, hbit, length_bytes]
  dsimp only
  split
  · rename_i h
    rw [hcond] at h
    have hbyte := (hsign.mod h.1 (Nat.lt_trans hlt (Nat.pow_lt_pow_right (by decide)
      (Nat.lt_succ_self _)))).topByte (Nat.lt_trans hlt (Nat.pow_lt_pow_right (by decide)
      (Nat.lt_succ_self _)))
    have hfill := hbyte.2 hlt
    refine ⟨k + 1 + 1, by omega, h.1, ?_, ?_, ?_⟩
    · have := Nat.pow_succ (n := 256) (m := k + 1)
      omega
    · intro n hn hfits
      have hkn := hleast n hn (by omega)
      by_contra hsmall
      have heq : n = k + 1 := by omega
      rw [heq] at hfits
      exact h.2 hfits
    · rw [bytes_succ (n := k + 1)]
      congr 1
      rw [← UInt8.toNat_inj, toNat_ofNat, toNat_ofNat, ← hfill, Nat.pow_succ 256 (k + 1),
        Nat.mod_mul_right_div_self, Nat.mod_mod]
  · rename_i h
    rw [hcond] at h
    refine ⟨k + 1, hpos, hle, ?_, fun n hn hfits => hleast n hn (by omega), rfl⟩
    by_contra hge
    have hlast : ¬ k + 1 < size + 1 := fun hlt => h ⟨hlt, hge⟩
    have heq : k + 1 = size + 1 := by omega
    rw [heq] at hge
    exact hge hm

/-- The byte string is the shortest one that is not empty and has the value. -/
def Shortest (l : List UInt8) (x : Int) : Prop :=
  l ≠ [] ∧ signedValue l = x ∧
    ∀ l' ≠ [], signedValue l' = x → l' ≠ l → l.length < l'.length

theorem setSigned_shortest (e : ImmediateElement) (size : Nat) (hsize : size ≠ 0)
    (x : BitVec (8 * size)) :
    Shortest (e.setSigned size x).value x.toInt ∧ (e.setSigned size x).value.length ≤ size := by
  obtain ⟨size, rfl⟩ := Nat.exists_eq_succ_of_ne_zero hsize
  have hpow : 2 ^ (8 * (size + 1)) = 256 ^ (size + 1) := Nat.pow_mul 2 8 (size + 1)
  have hu : x.toNat < 256 ^ (size + 1) := hpow ▸ x.isLt
  have hint : x.toInt = if 2 * x.toNat < 256 ^ (size + 1) then (x.toNat : Int)
      else (x.toNat : Int) - ((256 ^ (size + 1) : Nat) : Int) := by
    rw [BitVec.toInt, hpow]
  have hsign : HasSign (size + 1) (if x.toInt < 0 then 255 else 0) x.toNat (magnitude x.toInt) := by
    rw [magnitude, hint]
    split
    · rename_i hsmall
      rw [if_neg (by omega), if_neg (by omega)]
      exact .inl ⟨rfl, rfl⟩
    · rw [if_pos (by omega), if_pos (by omega)]
      exact .inr ⟨rfl, by omega⟩
  have hm : 2 * magnitude x.toInt < 256 ^ (size + 1) := by
    rw [magnitude, hint]
    split
    · rw [if_neg (by omega)]
      omega
    · rw [if_pos (by omega)]
      omega
  obtain ⟨k, hpos, hle, hfits, hleast, hbytes⟩ := signedBytes_spec hsign hu hm
  have hvalue : (e.setSigned (size + 1) x).value = bytes k x.toNat := by
    rw [← hbytes, setSigned]
    dsimp only
    by_cases hneg : x.toInt < 0
    · simp [hneg]
    · simp [hneg]
  have hk : k ≠ 0 := by omega
  have hsigned : signedValue (bytes k x.toNat) = x.toInt := by
    apply signedValue_bytes hk ((fits_iff_magnitude _ hk).2 hfits)
    rw [hint]
    split
    · rw [sub_self]
      exact dvd_zero _
    · rw [sub_sub_cancel]
      exact_mod_cast Nat.pow_dvd_pow 256 hle
  rw [hvalue, length_bytes]
  refine ⟨⟨?_, hsigned, ?_⟩, hle⟩
  · rw [← List.length_pos_iff, length_bytes]
    exact hpos
  · intro l hl hval hne
    have hfit := fits_signedValue hl
    have hlpos : 1 ≤ l.length := List.length_pos_iff.2 hl
    rw [hval, fits_iff_magnitude _ (by omega)] at hfit
    have hge := hleast l.length hlpos hfit
    rw [length_bytes]
    by_contra hlt
    apply hne
    apply eq_of_signedValue_eq
    · rw [length_bytes]
      omega
    · rw [hval, hsigned]

end Encoders

section Readers

theorem shift_or (b : UInt8) (hv : v * 256 < 256 ^ size) :
    v <<< 8 % 2 ^ (8 * size) ||| b.toNat = v * 256 + b.toNat := by
  have hshift : v <<< 8 = v * 256 := Nat.shiftLeft_eq v 8
  have hpow : 2 ^ (8 * size) = 256 ^ size := Nat.pow_mul 2 8 size
  rw [hpow, hshift, Nat.mod_eq_of_lt hv, ← hshift, ← Nat.shiftLeft_add_eq_or_of_lt b.toNat_lt]

/-- The loop throws exactly if the number has more bytes than the word. -/
theorem valueLoop_spec {l : List UInt8}
    (h : v = 0 ∨ l.length ≤ size ∧ v * 256 ^ l.length + BigEndian.value l < 256 ^ size) :
    valueLoop size l v =
      if v * 256 ^ l.length + BigEndian.value l < 256 ^ size then
        .ok (v * 256 ^ l.length + BigEndian.value l)
      else .error (.exception .outOfRange) := by
  induction l generalizing v with
  | nil =>
    rw [List.length_nil, Nat.pow_zero, Nat.mul_one, value_nil, Nat.add_zero] at h ⊢
    rw [valueLoop, if_pos]
    rcases h with rfl | h
    · exact Nat.pow_pos (Nat.succ_pos 255)
    · exact h.2
  | cons b l ih =>
    have hpos : 0 < 256 ^ l.length := Nat.pow_pos (Nat.succ_pos 255)
    have htotal : v * 256 ^ (b :: l).length + BigEndian.value (b :: l) =
        (v * 256 + b.toNat) * 256 ^ l.length + BigEndian.value l := by
      rw [value_cons, List.length_cons, Nat.pow_succ]
      ring
    have hlt := value_lt (b :: l)
    rw [htotal] at h ⊢
    rw [List.length_cons] at h hlt
    have hv : v * 256 < 256 ^ size := by
      rcases h with rfl | ⟨-, h⟩
      · rw [Nat.zero_mul]
        exact Nat.pow_pos (Nat.succ_pos 255)
      · have := Nat.le_mul_of_pos_right (v * 256 + b.toNat) hpos
        omega
    rw [valueLoop, shift_or b hv]
    split
    · rename_i hlong
      rw [if_neg]
      have hge : 256 ^ size ≤ 256 ^ l.length := Nat.pow_le_pow_right (Nat.succ_pos 255) (by omega)
      have hmul := Nat.le_mul_of_pos_left (256 ^ l.length) (Nat.pos_of_ne_zero hlong.1)
      omega
    · rename_i hshort
      apply ih
      rcases h with rfl | ⟨hle, h⟩
      · by_cases hb : b.toNat = 0
        · exact .inl (by rw [hb])
        · have hle : l.length + 1 ≤ size := by
            by_contra hgt
            exact hshort ⟨by rwa [Nat.zero_mul, Nat.zero_add], Nat.lt_of_not_le hgt⟩
          refine .inr ⟨by omega, ?_⟩
          have hmono : 256 ^ (l.length + 1) ≤ 256 ^ size :=
            Nat.pow_le_pow_right (Nat.succ_pos 255) hle
          rw [Nat.zero_mul, Nat.zero_add, ← value_cons]
          exact Nat.lt_of_lt_of_le hlt hmono
      · exact .inr ⟨by omega, h⟩

theorem readUnsigned_eq (e : ImmediateElement) (size : Nat) :
    e.readUnsigned size =
      if BigEndian.value (e.value.take e.length) < 256 ^ size then
        .ok (BigEndian.value (e.value.take e.length))
      else .error (.exception .outOfRange) := by
  rw [readUnsigned, valueLoop_spec (.inl rfl), Nat.zero_mul, Nat.zero_add]

theorem extendSign_eq (hv : v < 256 ^ i) : extendSign n i v = v + (256 ^ (i + n) - 256 ^ i) := by
  induction n generalizing i v with
  | zero => rw [extendSign, Nat.add_zero, Nat.sub_self, Nat.add_zero]
  | succ n ih =>
    have hpow : 2 ^ (8 * i) = 256 ^ i := Nat.pow_mul 2 8 i
    have hor : v ||| 255 <<< (8 * i) = v + 255 * 256 ^ i := by
      rw [Nat.or_comm, ← Nat.shiftLeft_add_eq_or_of_lt (hpow ▸ hv), Nat.shiftLeft_eq, hpow,
        Nat.add_comm]
    have hlt : v + 255 * 256 ^ i < 256 ^ (i + 1) := by
      rw [Nat.pow_succ]
      omega
    have hmono : 256 ^ (i + 1) ≤ 256 ^ (i + 1 + n) :=
      Nat.pow_le_pow_right (Nat.succ_pos 255) (Nat.le_add_right _ _)
    have hsucc : 256 ^ (i + 1) = 256 ^ i * 256 := Nat.pow_succ ..
    have hexp : i + (n + 1) = i + 1 + n := by omega
    rw [extendSign, hor, ih hlt, hexp]
    omega

variable {e : ImmediateElement}

theorem length_take (e : ImmediateElement) : (e.value.take e.length).length = e.length := by
  rw [List.length_take]
  exact Nat.min_eq_left (Nat.mod_le _ _)

theorem shift_lt_iff (hsize : size ≤ 8) :
    e.signPosition < 8 * size ↔
      1 ≤ e.value.length % 2 ^ 29 ∧ e.value.length % 2 ^ 29 ≤ size := by
  rw [signPosition, length]
  omega

theorem readUnsigned_throws (h : 256 ^ size ≤ BigEndian.value (e.value.take e.length)) :
    e.readUnsigned size = .error (.exception .outOfRange) := by
  rw [readUnsigned_eq, if_neg (Nat.not_lt.2 h)]

theorem readUnsigned_ok (h : BigEndian.value (e.value.take e.length) < 256 ^ size) :
    e.readUnsigned size = .ok (BigEndian.value (e.value.take e.length)) := by
  rw [readUnsigned_eq, if_pos h]

theorem readSigned_throws (h : 256 ^ size ≤ BigEndian.value (e.value.take e.length)) :
    e.readSigned size = .error (.exception .outOfRange) := by
  rw [readSigned, Except.bind_of_error (readUnsigned_throws h)]

theorem readSigned_undefined (h : BigEndian.value (e.value.take e.length) < 256 ^ size)
    (hsize : size ≤ 8)
    (hshift : ¬ (1 ≤ e.value.length % 2 ^ 29 ∧ e.value.length % 2 ^ 29 ≤ size)) :
    e.readSigned size = .error .undefined := by
  rw [← shift_lt_iff hsize] at hshift
  rw [readSigned, Except.bind_of_ok (readUnsigned_ok h), Except.bind_of_error]
  rw [shiftRight, if_neg]
  rintro ⟨-, hlt⟩
  exact hshift (by exact_mod_cast hlt)

/-- Where the sign has a place in the word, it is the highest bit of the bytes. -/
theorem readSigned_eq (h : BigEndian.value (e.value.take e.length) < 256 ^ size)
    (hshift : e.signPosition < 8 * size) :
    e.readSigned size =
      if BigEndian.value (e.value.take e.length) >>> e.signPosition % 2 = 1 ∧ e.length < size then
        .ok (extendSign (size - e.length) e.length (BigEndian.value (e.value.take e.length)))
      else .ok (BigEndian.value (e.value.take e.length)) := by
  have hok : shiftRight (8 * size) (BigEndian.value (e.value.take e.length)) e.signPosition =
      .ok (BigEndian.value (e.value.take e.length) >>> e.signPosition) := by
    rw [shiftRight, if_pos ⟨Int.natCast_nonneg _, by exact_mod_cast hshift⟩, Int.toNat_natCast]
  rw [readSigned, Except.bind_of_ok (readUnsigned_ok h), Except.bind_of_ok hok]

theorem readSigned_short (hpos : 1 ≤ e.length) (hle : e.length ≤ size) (hsize : size ≤ 8) :
    ∃ x, e.readSigned size = .ok x ∧
      ((256 ^ size : Nat) : Int) ∣ (x : Int) - signedValue (e.value.take e.length) := by
  have hlt := value_lt (e.value.take e.length)
  rw [length_take] at hlt
  have hmono : 256 ^ e.length ≤ 256 ^ size := Nat.pow_le_pow_right (Nat.succ_pos 255) hle
  have hshift : e.signPosition = 8 * e.length - 1 := by
    rw [signPosition]
    omega
  rw [readSigned_eq (Nat.lt_of_lt_of_le hlt hmono) (by omega), hshift, signedValue_eq, length_take]
  generalize BigEndian.value (e.value.take e.length) = r at hlt ⊢
  have hpow : 256 ^ e.length = 2 * 2 ^ (8 * e.length - 1) := by
    have hexp : 8 * e.length = (8 * e.length - 1) + 1 := by omega
    have hbase : (2 : Nat) ^ (8 * e.length) = 256 ^ e.length := Nat.pow_mul 2 8 e.length
    rw [← hbase, hexp, Nat.pow_succ, Nat.mul_comm]
    rfl
  have hbit : r >>> (8 * e.length - 1) % 2 = 1 ↔ ¬ 2 * r < 256 ^ e.length := by
    have hpos : 0 < 2 ^ (8 * e.length - 1) := Nat.two_pow_pos _
    rw [Nat.shiftRight_eq_div_pow, hpow]
    rw [hpow] at hlt
    generalize 2 ^ (8 * e.length - 1) = half at hlt hpos ⊢
    have hdiv : r / half < 2 := Nat.div_lt_of_lt_mul (Nat.mul_comm .. ▸ hlt)
    have hge : 1 ≤ r / half ↔ half ≤ r := Nat.one_le_div_iff hpos
    generalize r / half = bit at hdiv hge ⊢
    omega
  by_cases hneg : 2 * r < 256 ^ e.length
  · rw [if_neg (fun h => hbit.1 h.1 hneg), if_pos hneg]
    exact ⟨r, rfl, by rw [sub_self]; exact dvd_zero _⟩
  · rw [if_neg hneg]
    split
    · rename_i hshort
      have hexp : e.length + (size - e.length) = size := by omega
      rw [extendSign_eq hlt, hexp]
      refine ⟨_, rfl, ?_⟩
      push_cast [hmono]
      exact ⟨1, by ring⟩
    · rename_i hlong
      have heq : e.length = size := by
        by_contra hne
        exact hlong ⟨hbit.2 hneg, by omega⟩
      rw [heq]
      exact ⟨r, rfl, by rw [sub_sub_cancel]⟩

theorem readSigned_long (h : BigEndian.value (e.value.take e.length) < 256 ^ size)
    (hsize : size ≤ 8) (hlong : size ≤ e.length)
    (hshift : 1 ≤ e.value.length % 2 ^ 29 ∧ e.value.length % 2 ^ 29 ≤ size) :
    e.readSigned size = .ok (BigEndian.value (e.value.take e.length)) := by
  rw [readSigned_eq h ((shift_lt_iff hsize).2 hshift), if_neg]
  exact fun hand => absurd hand.2 (Nat.not_lt.2 hlong)

end Readers

end ImmediateElement

end Tpef

end OpenAsip
