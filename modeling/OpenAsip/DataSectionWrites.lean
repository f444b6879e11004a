import OpenAsip.DataSections

namespace OpenAsip
set_option autoImplicit true

namespace Tpef

namespace DataSection
open BigEndian Blocks

theorem mauInBytes_pos (d : DataSection) : 0 < mauInBytes d.mau := by
  have := d.mau_pos
  rw [mauInBytes]
  omega

theorem mauInBytes_le (d : DataSection) : mauInBytes d.mau ≤ 4 := by
  have := d.mau_le
  rw [mauInBytes]
  omega

theorem le_mauBits (d : DataSection) : d.mau ≤ 8 * mauInBytes d.mau := by
  rw [mauInBytes]
  omega

/-- The bytes of a MAU. -/
def bytesOf (d : DataSection) (index : Nat) : List UInt8 := block (mauInBytes d.mau) d.data index

/-- The offset of the last byte of this MAU is more than an `int` holds. -/
def Overflows (mau index : Nat) : Prop := mauInBytes mau = 3 ∧ index = 715827882

instance (mau index : Nat) : Decidable (Overflows mau index) :=
  inferInstanceAs (Decidable (_ ∧ _))

theorem lengthInMAUs_mul (d : DataSection) : d.lengthInMAUs * mauInBytes d.mau = d.data.length :=
  Nat.div_mul_cancel d.aligned

theorem inside (d : DataSection) (h : index < d.lengthInMAUs) :
    (index + 1) * mauInBytes d.mau ≤ d.data.length := by
  rw [← d.lengthInMAUs_mul]
  exact Nat.mul_le_mul_right _ h

theorem length_bytesOf (d : DataSection) (h : index < d.lengthInMAUs) :
    (d.bytesOf index).length = mauInBytes d.mau :=
  length_block (d.inside h)

section Offsets

theorem toInt_ofNat_offset (h : n < 2 ^ 32) :
    (BitVec.ofNat 32 n).toInt = if n < 2 ^ 31 then (n : Int) else (n : Int) - 2 ^ 32 := by
  rw [BitVec.toInt_ofNat', Int.bmod_def]
  omega

theorem byteOffset_ok (d : DataSection) (h : index < d.lengthInMAUs) (hj : j < mauInBytes d.mau)
    (ho : Overflows d.mau index → j ≠ 2) :
    byteOffset d.mau index j = .ok (index * mauInBytes d.mau + j) := by
  have hend := d.inside h
  have hlt := d.length_lt
  have hs := d.mauInBytes_le
  rw [Nat.succ_mul] at hend
  have hint := @toInt_ofNat_offset (index * mauInBytes d.mau) (by omega)
  rw [Overflows] at ho
  rw [byteOffset, hint]
  generalize mauInBytes d.mau = s at *
  have hsmall : (if index * s < 2 ^ 31 then ((index * s : Nat) : Int)
      else ((index * s : Nat) : Int) - 2 ^ 32) + j < 2 ^ 31 := by
    obtain rfl | rfl | rfl | rfl : s = 1 ∨ s = 2 ∨ s = 3 ∨ s = 4 := by omega
    all_goals omega
  rw [if_pos hsmall]
  congr 1
  omega

theorem byteOffset_error (d : DataSection) (ho : Overflows d.mau index) :
    byteOffset d.mau index 2 = .error .undefined := by
  obtain ⟨hs, rfl⟩ := ho
  rw [byteOffset, hs]
  rfl

end Offsets

section Reading

theorem byte_ok (d : DataSection) (h : d.data[offset]? = some b) : d.byte offset = .ok b := by
  rw [byte, h]

theorem byte_bytesOf (d : DataSection) (index : Nat) (hi : i < mauInBytes d.mau)
    (h : (d.bytesOf index)[i]? = some b) : d.byte (index * mauInBytes d.mau + i) = .ok b := by
  rw [bytesOf, getElem?_block, if_pos hi] at h
  exact d.byte_ok h

theorem shiftLeft_or (hr : r < 256 ^ i) (hi : i < 4) (b : UInt8) :
    (r <<< 8 % 2 ^ 32 ||| b.toNat) = r * 256 + b.toNat := by
  have hpow : 256 ^ i ≤ 256 ^ 3 := Nat.pow_le_pow_right (by decide) (by omega)
  have hlt : r <<< 8 < 2 ^ 32 := by
    rw [Nat.shiftLeft_eq]
    omega
  rw [Nat.mod_eq_of_lt hlt, ← Nat.shiftLeft_add_eq_or_of_lt b.toNat_lt, Nat.shiftLeft_eq]

theorem mauLoop_eq (d : DataSection) (h : index < d.lengthInMAUs)
    (ho : ¬ Overflows d.mau index) (hi : i + n = mauInBytes d.mau) (hr : retVal < 256 ^ i) :
    d.mauLoop index n i retVal =
      .ok (retVal * 256 ^ n + value ((d.bytesOf index).drop i)) := by
  have hlen := d.length_bytesOf h
  induction n generalizing i retVal with
  | zero =>
    rw [mauLoop, List.drop_of_length_le (by omega), value_nil, Nat.pow_zero, Nat.mul_one,
      Nat.add_zero]
  | succ n ih =>
    have hs := d.mauInBytes_le
    have hlt : i < (d.bytesOf index).length := by omega
    have hoffset := d.byteOffset_ok h (j := i) (by omega) (fun hc => absurd hc ho)
    have hbyte := d.byte_bytesOf index (by omega) (List.getElem?_eq_getElem hlt)
    generalize hb : (d.bytesOf index)[i] = b at hbyte
    have hnext : retVal * 256 + b.toNat < 256 ^ (i + 1) := by
      have := b.toNat_lt
      rw [Nat.pow_succ]
      omega
    rw [mauLoop, Except.bind_of_ok hoffset, Except.bind_of_ok hbyte, shiftLeft_or hr (by omega),
      ih (by omega) hnext, List.drop_eq_getElem_cons hlt, hb, value_cons, List.length_drop, hlen,
      Nat.pow_succ]
    have hn : mauInBytes d.mau - (i + 1) = n := by omega
    rw [hn]
    ring_nf

theorem MAU_eq (d : DataSection) (h : index < d.lengthInMAUs) (ho : ¬ Overflows d.mau index) :
    d.MAU index = .ok (value (d.bytesOf index)) := by
  rw [MAU, d.mauLoop_eq h ho (Nat.zero_add _) Nat.one_pos, Nat.zero_mul, Nat.zero_add,
    List.drop_zero]

/-- The last of the three bytes is out of reach. -/
theorem MAU_undefined (d : DataSection) (h : index < d.lengthInMAUs)
    (ho : Overflows d.mau index) : d.MAU index = .error .undefined := by
  have hs := ho.1
  have hlen := d.length_bytesOf h
  have h₀ := d.byteOffset_ok h (j := 0) (by omega) (by omega)
  have h₁ := d.byteOffset_ok h (j := 1) (by omega) (by omega)
  have hb₀ := d.byte_bytesOf index (i := 0) (by omega) (List.getElem?_eq_getElem (by omega))
  have hb₁ := d.byte_bytesOf index (i := 1) (by omega) (List.getElem?_eq_getElem (by omega))
  rw [MAU, hs, mauLoop, Except.bind_of_ok h₀, Except.bind_of_ok hb₀, mauLoop,
    Except.bind_of_ok h₁, Except.bind_of_ok hb₁, mauLoop,
    Except.bind_of_error (d.byteOffset_error ho)]

end Reading

section Writing

theorem setByte_ok (d : DataSection) (b : UInt8) (h : offset < d.data.length) :
    ∃ d', d.setByte offset b = .ok d' ∧ d'.mau = d.mau ∧ d'.data = d.data.set offset b := by
  rw [setByte, if_neg (by omega)]
  exact ⟨_, rfl, rfl, rfl⟩

theorem writeMAU_loop (d : DataSection) (currentMAU : Nat) (h : index < d.lengthInMAUs)
    (ho : ¬ Overflows d.mau index) (hn : n ≤ mauInBytes d.mau) :
    ∃ d', writeMAU index n currentMAU d = .ok d' ∧ d'.mau = d.mau ∧
      d'.data = splice (index * mauInBytes d.mau) (bytes n currentMAU) d.data := by
  induction n generalizing currentMAU d with
  | zero => exact ⟨d, rfl, rfl, (splice_nil _ _).symm⟩
  | succ n ih =>
    have hend := d.inside h
    rw [Nat.succ_mul] at hend
    have hoff : index * mauInBytes d.mau + n < d.data.length := by omega
    have hoffset := d.byteOffset_ok h (j := n) hn (fun hc => absurd hc ho)
    obtain ⟨d₁, hd₁, hmau, hdata⟩ := d.setByte_ok (UInt8.ofNat currentMAU) hoff
    have hlen : d₁.lengthInMAUs = d.lengthInMAUs := by
      rw [lengthInMAUs, lengthInMAUs, hmau, hdata, List.length_set]
    obtain ⟨d', hd', hmau', hdata'⟩ := ih d₁ (currentMAU / 256) (by omega)
      (by rwa [hmau]) (by rw [hmau]; omega)
    rw [writeMAU, Except.bind_of_ok hoffset, Except.bind_of_ok hd₁, Nat.shiftRight_eq_div_pow]
    refine ⟨d', hd', hmau'.trans hmau, ?_⟩
    have hroom :
        index * mauInBytes d.mau + (bytes n (currentMAU / 256)).length < d.data.length := by
      rw [length_bytes]
      exact hoff
    have hset := splice_set (x := UInt8.ofNat currentMAU) hroom
    rw [length_bytes] at hset
    rw [hdata', hmau, hdata, hset, bytes]

theorem writeMAU_undefined (d : DataSection)
    (ho : Overflows d.mau index) :
    writeMAU index (mauInBytes d.mau) currentMAU d = .error .undefined := by
  rw [ho.1, writeMAU, Except.bind_of_error (d.byteOffset_error ho)]

end Writing

end DataSection

end Tpef

end OpenAsip
