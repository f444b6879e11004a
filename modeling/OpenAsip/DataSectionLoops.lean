import Mathlib.Data.Nat.Digits.Defs
import OpenAsip.DataSectionWrites
import OpenAsip.ITemplateFits

namespace OpenAsip
set_option autoImplicit true

namespace Tpef

namespace DataSection
open BigEndian Blocks

section Loops

/-- The MAUs that a loop writes. -/
def currentMAUs (currentMAU : Nat → Nat) (next : Nat → Outcome Nat) : Nat → Nat → Outcome (List Nat)
  | 0, _ => .ok []
  | n + 1, shiftCount => do
    let c ← next shiftCount
    let maus ← currentMAUs currentMAU next n c
    .ok (currentMAU shiftCount :: maus)

theorem writeMAU_ok (d : DataSection) (currentMAU : Nat) (h : index < d.lengthInMAUs)
    (ho : ¬ Overflows d.mau index) :
    ∃ d', writeMAU index (mauInBytes d.mau) currentMAU d = .ok d' ∧ d'.mau = d.mau ∧
      d'.data.length = d.data.length ∧ (∀ k, k ≠ index → d'.bytesOf k = d.bytesOf k) ∧
      d'.bytesOf index = bytes (mauInBytes d.mau) currentMAU := by
  obtain ⟨d', hd', hmau, hdata⟩ := d.writeMAU_loop currentMAU h ho (Nat.le_refl _)
  have hlen : (bytes (mauInBytes d.mau) currentMAU).length = mauInBytes d.mau := length_bytes
  have hend := d.inside h
  rw [Nat.succ_mul] at hend
  refine ⟨d', hd', hmau, ?_, ?_, ?_⟩
  · rw [hdata, length_splice (by omega)]
  · intro k hk
    rw [bytesOf, bytesOf, hmau, hdata, block_splice_ne (by omega) hlen hk]
  · rw [bytesOf, hmau, hdata, block_splice_self (by omega) hlen]

theorem lengthInMAUs_congr {d d' : DataSection} (hmau : d'.mau = d.mau)
    (h : d'.data.length = d.data.length) :
    d'.lengthInMAUs = d.lengthInMAUs := by
  rw [lengthInMAUs, lengthInMAUs, hmau, h]

/-- A loop over MAUs that are apart writes each of them and no other one. -/
theorem writeLoop_ok (d : DataSection) (hks : ∀ k ∈ ks, k < d.lengthInMAUs)
    (ho : ∀ k ∈ ks, ¬ Overflows d.mau k) (hnodup : ks.Nodup)
    (h : currentMAUs currentMAU next ks.length c = .ok maus) :
    ∃ d', writeLoop currentMAU next ks c d = .ok d' ∧ d'.mau = d.mau ∧
      d'.data.length = d.data.length ∧ (∀ k, k ∉ ks → d'.bytesOf k = d.bytesOf k) ∧
      ks.map d'.bytesOf = maus.map (bytes (mauInBytes d.mau)) := by
  induction ks generalizing c maus d with
  | nil =>
    cases h
    exact ⟨d, rfl, rfl, rfl, fun k _ => rfl, rfl⟩
  | cons k ks ih =>
    obtain ⟨c', hc', h⟩ := Except.bind_ok h
    obtain ⟨maus', hmaus, h⟩ := Except.bind_ok h
    cases h
    obtain ⟨hk, hnodup⟩ := List.nodup_cons.1 hnodup
    obtain ⟨d₁, hd₁, hmau₁, hlen₁, hothers₁, hself⟩ :=
      d.writeMAU_ok (currentMAU c) (hks k List.mem_cons_self)
        (ho k List.mem_cons_self)
    have hlength := lengthInMAUs_congr hmau₁ hlen₁
    obtain ⟨d', hd', hmau, hlen, hothers, hblocks⟩ := ih d₁
      (fun j hj => hlength ▸ hks j (List.mem_cons_of_mem k hj))
      (fun j hj => hmau₁ ▸ ho j (List.mem_cons_of_mem k hj)) hnodup hmaus
    rw [writeLoop, Except.bind_of_ok hc', Except.bind_of_ok hd₁]
    refine ⟨d', hd', hmau.trans hmau₁, hlen.trans hlen₁, ?_, ?_⟩
    · intro j hj
      have hjk : j ≠ k := fun he => hj (he ▸ List.mem_cons_self)
      rw [hothers j (fun hmem => hj (List.mem_cons_of_mem k hmem)), hothers₁ j hjk]
    · rw [List.map_cons, List.map_cons, hothers k hk, hself, hblocks, hmau₁]

/-- A loop that ends has not met an `int` that overflows. -/
theorem writeLoop_defined (d : DataSection) (hks : ∀ k ∈ ks, k < d.lengthInMAUs)
    (h : writeLoop currentMAU next ks c d = .ok d') :
    (∃ maus, currentMAUs currentMAU next ks.length c = .ok maus) ∧
      ∀ k ∈ ks, ¬ Overflows d.mau k := by
  induction ks generalizing c d with
  | nil => exact ⟨⟨[], rfl⟩, fun k hk => absurd hk List.not_mem_nil⟩
  | cons k ks ih =>
    obtain ⟨c', hc', h⟩ := Except.bind_ok h
    obtain ⟨d₁, hd₁, h⟩ := Except.bind_ok h
    have hk : ¬ Overflows d.mau k := by
      intro ho
      rw [d.writeMAU_undefined ho] at hd₁
      cases hd₁
    obtain ⟨d₂, hd₂, hmau, hlen, _⟩ :=
      d.writeMAU_ok (currentMAU c) (hks k List.mem_cons_self) hk
    cases hd₁.symm.trans hd₂
    have hlength := lengthInMAUs_congr hmau hlen
    obtain ⟨⟨maus, hmaus⟩, ho⟩ := ih d₁
      (fun j hj => hlength ▸ hks j (List.mem_cons_of_mem k hj)) h
    constructor
    · exact ⟨currentMAU c :: maus, by
        rw [List.length_cons, currentMAUs, Except.bind_of_ok hc', Except.bind_of_ok hmaus]⟩
    · intro j hj
      rcases List.mem_cons.1 hj with rfl | hj
      · exact hk
      · exact hmau ▸ ho j hj

end Loops

end DataSection

section Digits

/-- A digit of a number in base `2 ^ w`, also of a negative one. -/
def digit (w : Nat) (v : Int) (i : Nat) : Nat := (v / 2 ^ (i * w) % 2 ^ w).toNat

theorem digit_cast (w : Nat) (v : Int) (i : Nat) :
    (digit w v i : Int) = v / 2 ^ (i * w) % 2 ^ w :=
  Int.toNat_of_nonneg (Int.emod_nonneg _ (pow_ne_zero w (by decide)))

theorem digit_lt (w : Nat) (v : Int) (i : Nat) : digit w v i < 2 ^ w := by
  have hlt := Int.emod_lt_of_pos (v / 2 ^ (i * w)) (b := 2 ^ w) (by positivity)
  rw [← digit_cast] at hlt
  exact_mod_cast hlt

theorem digit_natCast (w n i : Nat) : digit w (n : Int) i = n / 2 ^ (i * w) % 2 ^ w := by
  have h := digit_cast w n i
  exact_mod_cast h

/-- The remainder by a product has the remainder by the first factor as its lowest digit. -/
theorem emod_mul (v : Int) {a b : Int} (ha : 0 ≤ a) : v % (a * b) = v % a + a * (v / a % b) := by
  rw [Int.emod_def, Int.emod_def, Int.emod_def, ← Int.ediv_ediv_of_nonneg ha]
  ring

theorem ofDigits_digit (w : Nat) (v : Int) (n : Nat) :
    ((Nat.ofDigits (2 ^ w) ((List.range n).map (digit w v)) : Nat) : Int) = v % 2 ^ (n * w) := by
  induction n with
  | zero => rw [List.range_zero, List.map_nil, Nat.ofDigits_nil, Nat.zero_mul, pow_zero,
      Int.emod_one, Int.natCast_zero]
  | succ n ih =>
    rw [List.range_succ, List.map_append, Nat.ofDigits_append, Nat.cast_add, ih, List.map_singleton,
      Nat.ofDigits_singleton, List.length_map, List.length_range, Nat.cast_mul, digit_cast,
      Nat.succ_mul, pow_add, emod_mul v (by positivity)]
    push_cast
    ring

namespace DataSection

theorem and_mauMask (h : w ≤ 32) (x : Nat) : (x &&& mauMask w) % 2 ^ 32 = x % 2 ^ w := by
  have hmask : ∀ w < 33, mauMask w = 2 ^ w - 1 := by decide
  rw [hmask w (by omega), Nat.and_two_pow_sub_one_eq_mod]
  exact Nat.mod_eq_of_lt (Nat.lt_of_lt_of_le (Nat.mod_lt _ (Nat.two_pow_pos w))
    (Nat.pow_le_pow_right Nat.two_pos h))

theorem unsignedMAU_eq (h : w ≤ 32) (value : BitVec 64) (i : Nat) :
    unsignedMAU w value (i * w) = digit w value.toNat i := by
  rw [unsignedMAU, digit_natCast]
  split
  · rw [and_mauMask h, Nat.shiftRight_eq_div_pow]
  · rename_i hlarge
    have hlt : value.toNat < 2 ^ (i * w) :=
      Nat.lt_of_lt_of_le value.isLt (Nat.pow_le_pow_right Nat.two_pos (by omega))
    rw [Nat.div_eq_of_lt hlt, Nat.zero_mod]

theorem signedMAU_eq (h : w ≤ 32) (value : BitVec 64) (hi : i * w < 64) :
    signedMAU w value (i * w) = digit w value.toInt i := by
  have hint : (value.sshiftRight (i * w)).toInt = value.toInt / 2 ^ (i * w) := by
    rw [BitVec.toInt_sshiftRight, Int.shiftRight_eq_div_pow]
    norm_cast
  have hmod : ((value.sshiftRight (i * w)).toNat : Int) % 2 ^ w =
      value.toInt / 2 ^ (i * w) % 2 ^ w := by
    have hdvd : (2 ^ w : Int) ∣ ((2 ^ 64 : Nat) : Int) := by
      rw [Nat.cast_pow]
      exact pow_dvd_pow 2 (by omega)
    rw [← hint, BitVec.toInt_eq_toNat_bmod, ← Int.emod_emod_of_dvd (Int.bmod _ _) hdvd,
      Int.bmod_emod, Int.emod_emod_of_dvd _ hdvd]
  rw [signedMAU, if_pos hi, and_mauMask h]
  have hcast := digit_cast w value.toInt i
  rw [← hmod] at hcast
  exact_mod_cast hcast.symm

end DataSection

end Digits

end Tpef

end OpenAsip
