import OpenAsip.DataSectionValues

namespace OpenAsip
set_option autoImplicit true

namespace Tpef

namespace DataSection
open BigEndian hiding value

/-- The bytes of the MAUs make up the value. -/
def Holds (type : DataSectionType) (d : DataSection) (index numOfMAUs : Nat) (value : Int) : Prop :=
  ((Nat.ofDigits (2 ^ d.mau)
      ((byteOrder type index numOfMAUs).map fun k => BigEndian.value (d.bytesOf k)) : Nat) : Int) =
    value % 2 ^ (numOfMAUs * d.mau)

def WritesUnsigned (type : DataSectionType) (d : DataSection) (index numOfMAUs : Nat)
    (value : BitVec 64) : Prop :=
  ∃ d', d.writeUnsigned type index numOfMAUs value = .ok d' ∧
    Wrote type d d' index numOfMAUs value.toNat

def WritesSigned (type : DataSectionType) (d : DataSection) (index numOfMAUs : Nat)
    (value : BitVec 64) : Prop :=
  ∃ d', d.writeSigned type index numOfMAUs value = .ok d' ∧
    Wrote type d d' index numOfMAUs value.toInt

/-- The section afterwards has one more MAU, and that one is the value. -/
def Appends (d : DataSection) (aMAU : BitVec 32) : Prop :=
  ∀ data, d.addMAU aMAU = .ok data → ∃ d' : DataSection, d'.mau = d.mau ∧ d'.data = data ∧
    d'.lengthInMAUs = d.lengthInMAUs + 1 ∧ (∀ k < d.lengthInMAUs, d'.bytesOf k = d.bytesOf k) ∧
    d'.MAU d.lengthInMAUs = .ok (aMAU.toNat % 2 ^ d.mau)

/-- The shift count of the loop stays an `int`, and so do the offsets of the bytes. -/
def UnsignedInRange (type : DataSectionType) (d : DataSection) (index numOfMAUs : Nat)
    (value : BitVec 64) : Prop :=
  if Skipped type numOfMAUs then Holds type d index numOfMAUs value.toNat
  else numOfMAUs * d.mau < 2 ^ 31 ∧
    ∀ k, index ≤ k → k < index + numOfMAUs → ¬ Overflows d.mau k

/-- No MAU lies above the value, or the bits there are set in all of its bytes. -/
def SignedInRange (type : DataSectionType) (d : DataSection) (index numOfMAUs : Nat)
    (value : BitVec 64) : Prop :=
  if Skipped type numOfMAUs then Holds type d index numOfMAUs value.toInt
  else ((numOfMAUs - 1) * d.mau < 64 ∨ value.toInt < 0 ∧ 8 ∣ d.mau) ∧
    ∀ k, index ≤ k → k < index + numOfMAUs → ¬ Overflows d.mau k

/-- A value that is accepted has no bits above the MAU, or the MAU fills its bytes. -/
def AddedInRange (d : DataSection) (aMAU : BitVec 32) : Prop :=
  MathTools.requiredBits aMAU.toNat ≤ d.mau ∨ MathTools.requiredBitsSigned aMAU.toInt ≤ d.mau →
    (aMAU.toNat < 2 ^ d.mau ∨ 8 ∣ d.mau) ∧ d.data.length + mauInBytes d.mau < 2 ^ 32 ∧
      ¬ Overflows d.mau d.lengthInMAUs

section Writes
variable {d : DataSection} (hin : index + n ≤ d.lengthInMAUs)

include hin in
/-- There are that many MAUs only when they have one byte each. -/
theorem not_overflows_of_skipped (h : Skipped type n) (k : Nat) : ¬ Overflows d.mau k := by
  rintro ⟨hs, _⟩
  have hlength := d.lengthInMAUs_mul
  have := d.length_lt
  have := h.2
  rw [hs] at hlength
  omega

include hin in
theorem wrote_skipped (h : Skipped type n) :
    (∃ d', writeLoop current next (indices type index n) 0 d = .ok d' ∧ Wrote type d d' index n v) ↔
      Holds type d index n v := by
  have hreads : Reads type d index n v ↔ _ :=
    reads_iff hin (fun k _ => not_overflows_of_skipped hin h k)
  rw [indices_skipped h, writeLoop, Holds, ← hreads]
  constructor
  · rintro ⟨d', hd', hwrote⟩
    cases hd'
    exact hwrote.reads
  · exact fun hr => ⟨d, rfl, rfl, rfl, fun k _ => rfl, hr⟩

include hin in
theorem writesUnsigned_iff (value : BitVec 64) :
    WritesUnsigned type d index n value ↔ UnsignedInRange type d index n value := by
  rw [WritesUnsigned, writeUnsigned, UnsignedInRange]
  split
  · rename_i hskip
    exact wrote_skipped hin hskip
  · rename_i hskip
    rw [wrote_iff hin hskip, and_congr_left_iff]
    intro _
    constructor
    · rintro ⟨maus, hmaus, _⟩
      have := lt_of_currentMAUs_unsigned (by decide) hmaus
      omega
    · intro hlt
      have hmaus := currentMAUs_unsigned (t := 0) (n := n) d.mau_le value (by rwa [Nat.zero_add])
      rw [Nat.zero_mul] at hmaus
      refine ⟨_, hmaus, ?_⟩
      have hdigits : (fun m => m % 256 ^ mauInBytes d.mau) ∘ digit d.mau value.toNat =
          digit d.mau value.toNat := funext (d.digit_mod _)
      rw [List.map_map, hdigits, ← List.range_eq_range', ofDigits_digit]

include hin in
theorem writesSigned_iff (value : BitVec 64) :
    WritesSigned type d index n value ↔ SignedInRange type d index n value := by
  rw [WritesSigned, writeSigned, SignedInRange]
  split
  · rename_i hskip
    exact wrote_skipped hin hskip
  · rename_i hskip
    have hmaus : currentMAUs (signedMAU d.mau value) (signedNext d.mau) n 0 =
        .ok ((List.range' 0 n).map (signedDigit d.mau value)) :=
      currentMAUs_signed d.mau_le value (.inl (Nat.zero_mul _).symm)
    rw [wrote_iff hin hskip, ← signed_digits_iff, and_congr_left_iff]
    intro _
    constructor
    · rintro ⟨maus, hok, heq⟩
      cases hok.symm.trans hmaus
      exact heq
    · exact fun heq => ⟨_, hmaus, heq⟩

end Writes

section Added

theorem addedRest_eq (m n : Nat) : addedRest m n = bytes n m := by
  induction n with
  | zero => rfl
  | succ n ih => rw [addedRest, ih, bytes_succ, Nat.shiftRight_eq_div_pow, Nat.pow_mul]

theorem addedBytes_eq (w m : Nat) : addedBytes w m = bytes (mauInBytes w) m := by
  rw [addedBytes, addedRest_eq, addedRest_eq]
  split
  · rename_i hmod
    have hbytes : mauInBytes w = (w - w % 8) / 8 + 1 := by
      rw [mauInBytes]
      omega
    have hbits : w - w % 8 = 8 * ((w - w % 8) / 8) := by omega
    rw [hbytes, bytes_succ, Nat.shiftRight_eq_div_pow]
    congr 2
    rw [hbits, Nat.pow_mul, ← hbits]
  · rename_i hmod
    have hbytes : mauInBytes w = w / 8 := by
      rw [mauInBytes]
      omega
    rw [hbytes]

theorem addMAU_ok (d : DataSection) (m : BitVec 32) {data : List UInt8} : d.addMAU m = .ok data ↔
    (MathTools.requiredBits m.toNat ≤ d.mau ∨ MathTools.requiredBitsSigned m.toInt ≤ d.mau) ∧
      data = d.data ++ bytes (mauInBytes d.mau) m.toNat := by
  rw [addMAU, Except.check_ok, addedBytes_eq, not_and_or, Nat.not_lt, Nat.not_lt]
  constructor
  · rintro ⟨hfits, hdata⟩
    cases hdata
    exact ⟨hfits, rfl⟩
  · rintro ⟨hfits, rfl⟩
    exact ⟨hfits, rfl⟩

/-- A negative value that is accepted keeps the bits of its sign in bytes that have room. -/
theorem mod_bytes_iff (d : DataSection) (m : BitVec 32)
    (h : MathTools.requiredBits m.toNat ≤ d.mau ∨ MathTools.requiredBitsSigned m.toInt ≤ d.mau) :
    m.toNat % 256 ^ mauInBytes d.mau = m.toNat % 2 ^ d.mau ↔ m.toNat < 2 ^ d.mau ∨ 8 ∣ d.mau := by
  have hpow := d.two_pow_le_bytes
  rw [MathTools.requiredBits_le d.mau_pos, MathTools.requiredBitsSigned_le d.mau_pos] at h
  constructor
  · intro heq
    by_contra hcond
    obtain ⟨hlarge, hwidth⟩ := not_or.1 hcond
    obtain ⟨hlow, hhigh⟩ := h.resolve_left hlarge
    have hbits : d.mau + 1 ≤ 8 * mauInBytes d.mau := by
      rw [mauInBytes]
      omega
    have hs := d.mauInBytes_le
    have hmau := d.mau_pos
    have hhalf : 2 ^ d.mau = 2 * 2 ^ (d.mau - 1) := by
      rw [← Nat.pow_succ']
      congr 1
      omega
    have hdouble : 2 ^ d.mau * 2 ≤ 256 ^ mauInBytes d.mau := by
      have h := Nat.pow_le_pow_right Nat.two_pos hbits
      rwa [Nat.pow_mul, Nat.pow_succ] at h
    have hlow' : -((2 ^ (d.mau - 1) : Nat) : Int) ≤ m.toInt := by exact_mod_cast hlow
    have hhigh' : m.toInt < ((2 ^ (d.mau - 1) : Nat) : Int) := by exact_mod_cast hhigh
    have hlt := m.isLt
    have hneg : (m.toNat : Int) = m.toInt + 2 ^ 32 := by
      rw [BitVec.toInt_eq_toNat_cond] at hlow' hhigh' ⊢
      split at hhigh' <;> omega
    obtain ⟨k, hk⟩ : 256 ^ mauInBytes d.mau ∣ 256 ^ 4 := pow_dvd_pow 256 hs
    cases k with
    | zero => omega
    | succ k =>
      rw [Nat.mul_succ] at hk
      have hsplit : m.toNat = 256 ^ mauInBytes d.mau * k +
          (256 ^ mauInBytes d.mau - (2 ^ 32 - m.toNat)) := by omega
      have hsmall : 256 ^ mauInBytes d.mau - (2 ^ 32 - m.toNat) < 256 ^ mauInBytes d.mau := by omega
      have hmod : m.toNat % 256 ^ mauInBytes d.mau =
          256 ^ mauInBytes d.mau - (2 ^ 32 - m.toNat) := by
        rw [hsplit, Nat.mul_add_mod, Nat.mod_eq_of_lt hsmall, ← hsplit]
      have hmod' := Nat.mod_lt m.toNat (Nat.two_pow_pos d.mau)
      omega
  · rintro (hlt | hdvd)
    · rw [Nat.mod_eq_of_lt hlt, Nat.mod_eq_of_lt (Nat.lt_of_lt_of_le hlt hpow)]
    · have hwidth : 8 * mauInBytes d.mau = d.mau := by
        rw [mauInBytes]
        omega
      have hbase : 256 ^ mauInBytes d.mau = 2 ^ d.mau := by
        rw [← hwidth, Nat.pow_mul, hwidth]
      rw [hbase]

theorem appends_iff (d : DataSection) (m : BitVec 32) : Appends d m ↔ AddedInRange d m := by
  have hlength := d.lengthInMAUs_mul
  have hpos := d.mauInBytes_pos
  have hbytes : (bytes (mauInBytes d.mau) m.toNat).length = mauInBytes d.mau := length_bytes
  constructor
  · intro happends hfits
    obtain ⟨d', hmau, hdata, hlen, _, hread⟩ := happends _ ((d.addMAU_ok m).2 ⟨hfits, rfl⟩)
    have hlast : d.lengthInMAUs < d'.lengthInMAUs := by omega
    have ho : ¬ Overflows d.mau d.lengthInMAUs := by
      intro ho
      rw [d'.MAU_undefined hlast (hmau ▸ ho)] at hread
      cases hread
    rw [d'.MAU_eq hlast (hmau ▸ ho), bytesOf, hmau, hdata, Blocks.block_append hlength.symm hbytes,
      value_bytes] at hread
    have hroom := d'.length_lt
    rw [hdata, List.length_append, hbytes] at hroom
    exact ⟨(mod_bytes_iff d m hfits).1 (Except.ok.inj hread), hroom, ho⟩
  · intro hrange data hok
    obtain ⟨hfits, rfl⟩ := (d.addMAU_ok m).1 hok
    obtain ⟨hvalue, hroom, ho⟩ := hrange hfits
    have hroom' : (d.data ++ bytes (mauInBytes d.mau) m.toNat).length =
        d.data.length + mauInBytes d.mau := by rw [List.length_append, hbytes]
    let d' : DataSection := ⟨d.mau, d.data ++ bytes (mauInBytes d.mau) m.toNat, d.mau_pos, d.mau_le,
      hroom' ▸ hroom, hroom' ▸ Nat.dvd_add d.aligned (Nat.dvd_refl _)⟩
    have hlen : d'.lengthInMAUs = d.lengthInMAUs + 1 := by
      change (d.data ++ bytes (mauInBytes d.mau) m.toNat).length / mauInBytes d.mau = _
      rw [hroom', Nat.add_div_right _ hpos, lengthInMAUs]
    refine ⟨d', rfl, rfl, hlen, ?_, ?_⟩
    · intro k hk
      exact Blocks.block_append_lt (d.inside hk) _
    · have hread : d'.MAU d.lengthInMAUs = _ := d'.MAU_eq (by omega) ho
      rw [hread, bytesOf]
      change Except.ok (BigEndian.value (Blocks.block _ (d.data ++ _) _)) = _
      rw [Blocks.block_append hlength.symm hbytes, value_bytes, (mod_bytes_iff d m hfits).2 hvalue]

end Added

theorem writesAndAppends_iff (type : DataSectionType) (d : DataSection) (index numOfMAUs : Nat)
    (hin : index + numOfMAUs ≤ d.lengthInMAUs) (value : BitVec 64) (aMAU : BitVec 32) :
    (WritesUnsigned type d index numOfMAUs value ↔
      UnsignedInRange type d index numOfMAUs value) ∧
    (WritesSigned type d index numOfMAUs value ↔ SignedInRange type d index numOfMAUs value) ∧
    (Appends d aMAU ↔ AddedInRange d aMAU) :=
  ⟨writesUnsigned_iff hin value, writesSigned_iff hin value, appends_iff d aMAU⟩

/-- Nine MAUs of eight bits. -/
def zeros : DataSection :=
  ⟨8, List.replicate 9 0, by decide, by decide, by decide, by decide⟩

theorem writesAndAppends_zeros : WritesUnsigned .ledata zeros 0 9 5 ∧
    WritesSigned .ledata zeros 0 9 (-5) ∧ Appends zeros 7 := by
  have hrange : ∀ k, 0 ≤ k → k < 0 + 9 → ¬ Overflows zeros.mau k := by
    rintro k _ _ ⟨hs, _⟩
    cases hs
  obtain ⟨hunsigned, _, happends⟩ := writesAndAppends_iff .ledata zeros 0 9 (by decide) 5 7
  obtain ⟨_, hsigned, _⟩ := writesAndAppends_iff .ledata zeros 0 9 (by decide) (-5) 7
  refine ⟨hunsigned.2 ?_, hsigned.2 ?_, happends.2 ?_⟩
  · exact ⟨by decide, hrange⟩
  · exact ⟨.inr ⟨by decide, by decide⟩, hrange⟩
  · exact fun _ => ⟨.inr (by decide), by decide, by rintro ⟨hs, _⟩; cases hs⟩

/-- The highest of nine MAUs reads as 255 after a signed zero is written. -/
theorem not_writesSigned_zeros : ¬ WritesSigned .data zeros 0 9 0 := by
  rw [writesSigned_iff (by decide), SignedInRange, if_neg (by decide)]
  rintro ⟨hsmall | ⟨hneg, _⟩, _⟩
  · exact absurd hsmall (by decide)
  · exact absurd hneg (by decide)

end DataSection

end Tpef

end OpenAsip
