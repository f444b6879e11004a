import OpenAsip.DataSectionLoops

namespace OpenAsip
set_option autoImplicit true

namespace Tpef

namespace DataSection
open BigEndian

/-- The MAUs of a value in the byte order of the section, the one of the lowest bits first. -/
def byteOrder : DataSectionType → Nat → Nat → List Nat
  | .data, index, numOfMAUs => (List.range' index numOfMAUs).reverse
  | .ledata, index, numOfMAUs => List.range' index numOfMAUs

/-- The value that the MAUs make up, read one by one. -/
def Reads (type : DataSectionType) (d : DataSection) (index numOfMAUs : Nat) (value : Int) : Prop :=
  ∃ maus, (byteOrder type index numOfMAUs).mapM d.MAU = .ok maus ∧
    ((Nat.ofDigits (2 ^ d.mau) maus : Nat) : Int) = value % 2 ^ (numOfMAUs * d.mau)

/-- The value can be read from the MAUs and nothing else has changed. -/
structure Wrote (type : DataSectionType) (d d' : DataSection) (index numOfMAUs : Nat)
    (value : Int) : Prop where
  mau : d'.mau = d.mau
  length : d'.data.length = d.data.length
  others : ∀ k, k < index ∨ index + numOfMAUs ≤ k → d'.bytesOf k = d.bytesOf k
  reads : Reads type d' index numOfMAUs value

theorem mem_byteOrder : k ∈ byteOrder type index n ↔ index ≤ k ∧ k < index + n := by
  cases type with
  | data => rw [byteOrder, List.mem_reverse, List.mem_range'_1]
  | ledata => rw [byteOrder, List.mem_range'_1]

theorem length_byteOrder : (byteOrder type index n).length = n := by
  cases type with
  | data => rw [byteOrder, List.length_reverse, List.length_range']
  | ledata => rw [byteOrder, List.length_range']

theorem nodup_byteOrder : (byteOrder type index n).Nodup := by
  cases type with
  | data => exact List.nodup_reverse.2 List.nodup_range'
  | ledata => exact List.nodup_range'

/-- The loop of `DataSection` does not start. -/
def Skipped (type : DataSectionType) (numOfMAUs : Nat) : Prop := type = .data ∧ 2 ^ 31 < numOfMAUs

instance (type : DataSectionType) (numOfMAUs : Nat) : Decidable (Skipped type numOfMAUs) :=
  inferInstanceAs (Decidable (_ ∧ _))

theorem indices_skipped (h : Skipped type n) : indices type index n = [] := by
  obtain ⟨rfl, hn⟩ := h
  rw [indices, if_neg (by omega)]

theorem indices_eq (h : ¬ Skipped type n) : indices type index n = byteOrder type index n := by
  cases type with
  | data =>
    rw [Skipped, eq_self, true_and] at h
    rw [indices, if_pos (by omega), byteOrder]
  | ledata => rfl

section Reads
variable {d : DataSection} (hin : index + n ≤ d.lengthInMAUs)

include hin in
theorem inside_byteOrder (hk : k ∈ byteOrder type index n) : k < d.lengthInMAUs := by
  have := mem_byteOrder.1 hk
  omega

/-- The value of the bytes, for MAUs within the reach of an `int`. -/
theorem mapM_MAU (d : DataSection) {ks : List Nat} (hks : ∀ k ∈ ks, k < d.lengthInMAUs)
    (ho : ∀ k ∈ ks, ¬ Overflows d.mau k) :
    ks.mapM d.MAU = .ok (ks.map fun k => value (d.bytesOf k)) :=
  Except.mapM_eq fun k hk => d.MAU_eq (hks k hk) (ho k hk)

include hin in
theorem reads_iff (ho : ∀ k ∈ byteOrder type index n, ¬ Overflows d.mau k) :
    Reads type d index n v ↔
      ((Nat.ofDigits (2 ^ d.mau)
          ((byteOrder type index n).map fun k => value (d.bytesOf k)) : Nat) : Int) =
        v % 2 ^ (n * d.mau) := by
  have hm := mapM_MAU d (fun k hk => inside_byteOrder hin hk) ho
  rw [Reads, hm]
  constructor
  · rintro ⟨maus, hmaus, heq⟩
    cases hmaus
    exact heq
  · exact fun heq => ⟨_, rfl, heq⟩

include hin in
/-- What a loop over these MAUs must write for the value to be read back. -/
theorem wrote_iff (hskip : ¬ Skipped type n) :
    (∃ d', writeLoop current next (indices type index n) 0 d = .ok d' ∧ Wrote type d d' index n v) ↔
      (∃ maus, currentMAUs current next n 0 = .ok maus ∧
        ((Nat.ofDigits (2 ^ d.mau) (maus.map (· % 256 ^ mauInBytes d.mau)) : Nat) : Int) =
          v % 2 ^ (n * d.mau)) ∧
      ∀ k, index ≤ k → k < index + n → ¬ Overflows d.mau k := by
  have hks : ∀ k ∈ byteOrder type index n, k < d.lengthInMAUs :=
    fun k hk => inside_byteOrder hin hk
  have hread (d' : DataSection) (maus : List Nat)
      (h : (byteOrder type index n).map d'.bytesOf = maus.map (bytes (mauInBytes d.mau))) :
      ((byteOrder type index n).map fun k => value (d'.bytesOf k)) =
        maus.map (· % 256 ^ mauInBytes d.mau) := by
    have hvalue := congrArg (List.map value) h
    rw [List.map_map, List.map_map] at hvalue
    rw [List.map_congr_left (g := value ∘ bytes (mauInBytes d.mau)) fun m _ => value_bytes.symm]
    exact hvalue
  rw [indices_eq hskip]
  constructor
  · rintro ⟨d', hd', hwrote⟩
    obtain ⟨⟨maus, hmaus⟩, ho⟩ := writeLoop_defined d hks hd'
    obtain ⟨d₁, hd₁, hmau, hlen, hothers, hblocks⟩ :=
      d.writeLoop_ok hks ho nodup_byteOrder hmaus
    rw [length_byteOrder] at hmaus
    cases hd'.symm.trans hd₁
    have hreads := hwrote.reads
    rw [reads_iff (lengthInMAUs_congr hmau hlen ▸ hin) (hmau.symm ▸ ho), hread d' maus hblocks,
      hmau] at hreads
    exact ⟨⟨maus, hmaus, hreads⟩, fun k hk hk' => ho k (mem_byteOrder.2 ⟨hk, hk'⟩)⟩
  · rintro ⟨⟨maus, hmaus, heq⟩, ho⟩
    have ho' : ∀ k ∈ byteOrder type index n, ¬ Overflows d.mau k :=
      fun k hk => ho k (mem_byteOrder.1 hk).1 (mem_byteOrder.1 hk).2
    have hmaus' : currentMAUs current next (byteOrder type index n).length 0 = .ok maus := by
      rw [length_byteOrder]
      exact hmaus
    obtain ⟨d', hd', hmau, hlen, hothers, hblocks⟩ :=
      d.writeLoop_ok hks ho' nodup_byteOrder hmaus'
    refine ⟨d', hd', hmau, hlen, ?_, ?_⟩
    · intro k hk
      apply hothers
      intro hmem
      have := mem_byteOrder.1 hmem
      omega
    · rw [reads_iff (lengthInMAUs_congr hmau hlen ▸ hin) (hmau.symm ▸ ho'), hread d' maus hblocks,
        hmau]
      exact heq

end Reads

section Unsigned

theorem currentMAUs_unsigned (hw : w ≤ 32) (value : BitVec 64) (h : (t + n) * w < 2 ^ 31) :
    currentMAUs (unsignedMAU w value) (unsignedNext w) n (t * w) =
      .ok ((List.range' t n).map (digit w value.toNat)) := by
  induction n generalizing t with
  | zero => rfl
  | succ n ih =>
    have hnext : (t + 1 + n) * w < 2 ^ 31 := by rwa [Nat.add_right_comm, Nat.add_assoc]
    have hstep : t * w + w < 2 ^ 31 := by
      have hle : (t + 1) * w ≤ (t + 1 + n) * w := Nat.mul_le_mul_right w (Nat.le_add_right _ n)
      rw [Nat.succ_mul] at hle
      omega
    have hrest := ih hnext
    rw [Nat.succ_mul] at hrest
    rw [currentMAUs, unsignedNext, if_pos hstep]
    change (currentMAUs _ _ n (t * w + w) >>= _) = _
    rw [Except.bind_of_ok hrest, List.range'_succ, List.map_cons, unsignedMAU_eq hw]

/-- The count has not overflowed in a loop that ends. -/
theorem lt_of_currentMAUs_unsigned {value : BitVec 64} (hc : c < 2 ^ 31)
    (h : currentMAUs (unsignedMAU w value) (unsignedNext w) n c = .ok maus) :
    c + n * w < 2 ^ 31 := by
  induction n generalizing c maus with
  | zero => rwa [Nat.zero_mul, Nat.add_zero]
  | succ n ih =>
    obtain ⟨c', hc', h⟩ := Except.bind_ok h
    obtain ⟨rest, hrest, _⟩ := Except.bind_ok h
    rw [unsignedNext] at hc'
    split at hc'
    · rename_i hlt
      cases hc'
      have := ih hlt hrest
      rw [Nat.succ_mul]
      omega
    · cases hc'

end Unsigned

section Signed

/-- What the signed loop writes instead of a digit. -/
def signedDigit (w : Nat) (value : BitVec 64) (i : Nat) : Nat :=
  if i * w < 64 then digit w value.toInt i else 2 ^ 32 - 1

theorem currentMAUs_signed (hw : w ≤ 32) (value : BitVec 64)
    (hc : c = t * w ∨ 64 ≤ c ∧ 64 ≤ t * w) :
    currentMAUs (signedMAU w value) (signedNext w) n c =
      .ok ((List.range' t n).map (signedDigit w value)) := by
  induction n generalizing t c with
  | zero => rfl
  | succ n ih =>
    have hcurrent : signedMAU w value c = signedDigit w value t := by
      rw [signedDigit]
      split
      · rename_i ht
        obtain rfl | ⟨_, hlarge⟩ := hc
        · exact signedMAU_eq hw value ht
        · omega
      · rw [signedMAU, if_neg (by omega)]
    have hnext : (if c < 64 then c + w else c) = (t + 1) * w ∨
        64 ≤ (if c < 64 then c + w else c) ∧ 64 ≤ (t + 1) * w := by
      rw [Nat.succ_mul]
      split <;> omega
    rw [currentMAUs, signedNext]
    change (currentMAUs _ _ n _ >>= _) = _
    rw [Except.bind_of_ok (ih hnext), List.range'_succ, List.map_cons, hcurrent]

theorem two_pow_le_bytes (d : DataSection) : 2 ^ d.mau ≤ 256 ^ mauInBytes d.mau := by
  have h := Nat.pow_le_pow_right Nat.two_pos d.le_mauBits
  rwa [Nat.pow_mul] at h

theorem digit_mod (d : DataSection) (v : Int) (i : Nat) :
    digit d.mau v i % 256 ^ mauInBytes d.mau = digit d.mau v i :=
  Nat.mod_eq_of_lt (Nat.lt_of_lt_of_le (digit_lt _ v i) d.two_pow_le_bytes)

/-- The bits above the highest one of a negative value are set. -/
theorem digit_negative {value : BitVec 64} (h : value.toInt < 0) (hi : 64 ≤ i * w) :
    digit w value.toInt i = 2 ^ w - 1 := by
  have hlow := BitVec.le_toInt value
  have hle : (2 ^ 64 : Nat) ≤ 2 ^ (i * w) := Nat.pow_le_pow_right Nat.two_pos hi
  have hle' : (2 ^ 64 : Int) ≤ 2 ^ (i * w) := by exact_mod_cast hle
  have hdiv : value.toInt / 2 ^ (i * w) = -1 := by
    apply Int.ediv_eq_neg_one_of_neg_of_le h
    omega
  have hcast := digit_cast w value.toInt i
  have hpos := Nat.two_pow_pos w
  have hmod : (-1 : Int) % 2 ^ w = ((2 ^ w - 1 : Nat) : Int) := by
    have hpos' : (0 : Int) < 2 ^ w := by positivity
    rw [Int.emod_eq_add_self_emod, Int.emod_eq_of_lt (by omega) (by omega), Nat.cast_sub hpos]
    push_cast
    ring
  rw [hdiv, hmod] at hcast
  exact_mod_cast hcast

theorem ones_mod (hs : s ≤ 4) : (2 ^ 32 - 1) % 256 ^ s = 256 ^ s - 1 := by
  have h : ∀ s < 5, (2 ^ 32 - 1) % 256 ^ s = 256 ^ s - 1 := by decide
  exact h s (by omega)

theorem signed_digits_iff (d : DataSection) (value : BitVec 64) (n : Nat) :
    ((Nat.ofDigits (2 ^ d.mau) (((List.range' 0 n).map (signedDigit d.mau value)).map
        (· % 256 ^ mauInBytes d.mau)) : Nat) : Int) = value.toInt % 2 ^ (n * d.mau) ↔
      (n - 1) * d.mau < 64 ∨ value.toInt < 0 ∧ 8 ∣ d.mau := by
  have hs := d.mauInBytes_le
  rw [← List.range_eq_range', List.map_map]
  constructor
  · intro heq
    by_contra hcond
    obtain ⟨hlarge, hwidth⟩ := not_or.1 hcond
    obtain ⟨m, rfl⟩ : ∃ m, n = m + 1 := ⟨n - 1, by
      have : n - 1 ≠ 0 := fun h0 => hlarge (by rw [h0, Nat.zero_mul]; decide)
      omega⟩
    rw [Nat.add_sub_cancel] at hlarge
    have hlast : ((· % 256 ^ mauInBytes d.mau) ∘ signedDigit d.mau value) m =
        256 ^ mauInBytes d.mau - 1 := by
      rw [Function.comp_apply, signedDigit, if_neg hlarge, ones_mod hs]
    rw [List.range_succ, List.map_append, Nat.ofDigits_append, List.map_singleton,
      Nat.ofDigits_singleton, hlast, List.length_map, List.length_range, ← Nat.pow_mul,
      Nat.mul_comm d.mau] at heq
    generalize Nat.ofDigits (2 ^ d.mau) _ = low at heq
    have hpow := d.two_pow_le_bytes
    have hmul := Nat.mul_le_mul_left (2 ^ (m * d.mau)) hpow
    by_cases hneg : value.toInt < 0
    · -- the bits above the MAU are set as well
      have hbits : d.mau + 1 ≤ 8 * mauInBytes d.mau := by
        have hne : d.mau ≠ 8 * mauInBytes d.mau := fun he => hwidth ⟨hneg, ⟨_, he⟩⟩
        have := d.le_mauBits
        omega
      have hge : 2 ^ d.mau ≤ 256 ^ mauInBytes d.mau - 1 := by
        have h := Nat.pow_le_pow_right Nat.two_pos hbits
        rw [Nat.pow_mul, Nat.pow_succ] at h
        have hdouble : 2 ^ d.mau * 2 ≤ 256 ^ mauInBytes d.mau := h
        have := Nat.two_pow_pos d.mau
        omega
      have hsum := Nat.mul_le_mul_left (2 ^ (m * d.mau)) hge
      rw [← Nat.pow_add, ← Nat.succ_mul] at hsum
      have hlt := Int.emod_lt_of_pos value.toInt (b := 2 ^ ((m + 1) * d.mau)) (by positivity)
      rw [← heq] at hlt
      have hlt' : low + 2 ^ (m * d.mau) * (256 ^ mauInBytes d.mau - 1) < 2 ^ ((m + 1) * d.mau) := by
        exact_mod_cast hlt
      exact absurd (Nat.le_add_left _ low |>.trans_lt hlt') (Nat.not_lt.2 hsum)
    · have hsmall := BitVec.toInt_lt (x := value)
      have hge : 2 ^ (m * d.mau) ≤ 2 ^ (m * d.mau) * (256 ^ mauInBytes d.mau - 1) := by
        have hone := Nat.one_lt_two_pow (Nat.ne_of_gt d.mau_pos)
        exact Nat.le_mul_of_pos_right _ (by omega)
      have hlarge' : 2 ^ 64 ≤ 2 ^ (m * d.mau) :=
        Nat.pow_le_pow_right Nat.two_pos (Nat.le_of_not_lt hlarge)
      have hself : value.toInt % 2 ^ ((m + 1) * d.mau) ≤ value.toInt := by
        have hdiv := Int.mul_ediv_add_emod value.toInt (2 ^ ((m + 1) * d.mau))
        have hq : 0 ≤ 2 ^ ((m + 1) * d.mau) * (value.toInt / 2 ^ ((m + 1) * d.mau)) :=
          mul_nonneg (by positivity) (Int.ediv_nonneg (by omega) (by positivity))
        omega
      rw [← heq] at hself
      have hlow : low + 2 ^ (m * d.mau) * (256 ^ mauInBytes d.mau - 1) < 2 ^ 64 := by omega
      exact absurd (hlarge'.trans hge |>.trans (Nat.le_add_left _ low)) (Nat.not_le.2 hlow)
  · intro hcond
    rw [← ofDigits_digit]
    congr 2
    apply List.map_congr_left
    intro i hi
    have hi := List.mem_range.1 hi
    rw [Function.comp_apply, signedDigit]
    split
    · exact d.digit_mod value.toInt i
    · rename_i hlarge
      have hle : i * d.mau ≤ (n - 1) * d.mau := Nat.mul_le_mul_right _ (by omega)
      obtain hsmall | ⟨hneg, hdvd⟩ := hcond
      · omega
      · have hwidth : 8 * mauInBytes d.mau = d.mau := by
          rw [mauInBytes]
          omega
        have hbase : 256 ^ mauInBytes d.mau = 2 ^ d.mau := by
          rw [← hwidth, Nat.pow_mul, hwidth]
        rw [ones_mod hs, digit_negative hneg (by omega), hbase]

end Signed

end DataSection

end Tpef

end OpenAsip
