import OpenAsip.AlignedBlocks
import OpenAsip.MemoryAliasAnalyzers

namespace OpenAsip
set_option autoImplicit true

namespace AliasAnalysis
open AlignedBlocks

/-- What the result says of two accesses of `2 ^ k1` and `2 ^ k2` units. -/
def AliasingResult.Sound (r : AliasingResult) (address1 address2 : BitVec 32) (k1 k2 : Nat) :
    Prop :=
  (r = .aliasFalse → Apart address1.toNat (2 ^ k1) address2.toNat (2 ^ k2)) ∧
    (r = .aliasTrue → address1 = address2 ∧ k1 = k2)

/-- The smaller access starts inside the larger one of `2 ^ k` units, and a multiple of its size lies
between the offsets of the two. -/
def Straddles (small large : BitVec 32) (k : Nat) : Prop :=
  (small - large).toNat < 2 ^ k ∧ small.toNat / 2 ^ k ≠ large.toNat / 2 ^ k

def Comparable (index1 index2 : BitVec 32) (k1 k2 : Nat) : Prop :=
  (k1 < k2 → ¬ Straddles index1 index2 k2) ∧ (k2 < k1 → ¬ Straddles index2 index1 k1)

theorem toNat_size (hk : k < 31) : (BitVec.ofNat 32 (2 ^ k)).toNat = 2 ^ k :=
  Nat.mod_eq_of_lt (Nat.pow_lt_pow_right Nat.one_lt_two (Nat.lt_succ_of_lt hk))

theorem size_ne_zero (hk : k < 31) : BitVec.ofNat 32 (2 ^ k) ≠ 0 := by
  intro h
  have := congrArg BitVec.toNat h
  rw [toNat_size hk] at this
  exact absurd this (Nat.two_pow_pos k).ne'

theorem size_inj (hk1 : k1 < 31) (hk2 : k2 < 31) :
    BitVec.ofNat 32 (2 ^ k1) = BitVec.ofNat 32 (2 ^ k2) ↔ k1 = k2 := by
  rw [← BitVec.toNat_inj, toNat_size hk1, toNat_size hk2, Nat.pow_right_inj (Nat.le_refl 2)]

theorem slt_size (hk1 : k1 < 31) (hk2 : k2 < 31) :
    (BitVec.ofNat 32 (2 ^ k1)).slt (BitVec.ofNat 32 (2 ^ k2)) = decide (k1 < k2) := by
  have h1 : 2 ^ k1 < 2 ^ 31 := Nat.pow_lt_pow_right Nat.one_lt_two hk1
  have h2 : 2 ^ k2 < 2 ^ 31 := Nat.pow_lt_pow_right Nat.one_lt_two hk2
  rw [BitVec.slt_eq_decide, BitVec.toInt_eq_toNat_of_lt (by rw [toNat_size hk1]; omega),
    BitVec.toInt_eq_toNat_of_lt (by rw [toNat_size hk2]; omega), toNat_size hk1, toNat_size hk2,
    decide_eq_decide, Int.ofNat_lt]
  exact Nat.pow_lt_pow_iff_right Nat.one_lt_two

theorem maxInt_size (hk1 : k1 < 31) (hk2 : k2 < 31) :
    maxInt (BitVec.ofNat 32 (2 ^ k1)) (BitVec.ofNat 32 (2 ^ k2)) =
      BitVec.ofNat 32 (2 ^ max k1 k2) := by
  rw [maxInt, slt_size hk1 hk2]
  by_cases h : k1 < k2
  · simp [h, Nat.max_eq_right (Nat.le_of_lt h)]
  · simp [h, Nat.max_eq_left (Nat.le_of_not_lt h)]

/-- The comparison of two offsets with known sizes. -/
theorem compareIndeces_size (hk1 : k1 < 31) (hk2 : k2 < 31) (i j : BitVec 32) :
    compareIndeces i j (BitVec.ofNat 32 (2 ^ k1)) (BitVec.ofNat 32 (2 ^ k2)) =
      if i = j then if k1 = k2 then .aliasTrue else .aliasUnknown
      else if i.toNat / 2 ^ max k1 k2 = j.toNat / 2 ^ max k1 k2 then .aliasUnknown
      else .aliasFalse := by
  have hmax : max k1 k2 < 32 := by omega
  simp only [compareIndeces, size_ne_zero hk1, size_ne_zero hk2, or_self, if_false,
    maxInt_size hk1 hk2, and_not_low_eq_iff hmax, ne_eq, size_inj hk1 hk2, ite_not]

theorem compareIndeces_comm (hk1 : k1 < 31) (hk2 : k2 < 31) (i j : BitVec 32) :
    compareIndeces i j (BitVec.ofNat 32 (2 ^ k1)) (BitVec.ofNat 32 (2 ^ k2)) =
      compareIndeces j i (BitVec.ofNat 32 (2 ^ k2)) (BitVec.ofNat 32 (2 ^ k1)) := by
  rw [compareIndeces_size hk1 hk2, compareIndeces_size hk2 hk1, Nat.max_comm k2 k1]
  simp only [eq_comm (a := j), eq_comm (a := k2), eq_comm (a := j.toNat / _)]

section
variable {address1 address2 base i j : BitVec 32} {k1 k2 : Nat}

/-- The offsets are compared as they should be except when the smaller access lies inside the larger
one and the two offsets are in different blocks. -/
theorem sound_iff_of_le (hk2 : k2 < 31) (hle : k1 ≤ k2) (h1 : address1 = base + i)
    (h2 : address2 = base + j) (hdvd1 : 2 ^ k1 ∣ address1.toNat)
    (hdvd2 : 2 ^ k2 ∣ address2.toNat) :
    (compareIndeces i j (BitVec.ofNat 32 (2 ^ k1)) (BitVec.ofNat 32 (2 ^ k2))).Sound
        address1 address2 k1 k2 ↔
      (k1 < k2 → ¬ Straddles i j k2) := by
  have hdiff : address1 - address2 = i - j := sub_eq_of_eq_add h1 h2
  have hinside : (i - j).toNat < 2 ^ k2 ↔
      address2.toNat ≤ address1.toNat ∧ address1.toNat < address2.toNat + 2 ^ k2 := by
    rw [← hdiff]
    exact toNat_sub_lt_iff (by omega) hdvd2
  rw [compareIndeces_size (by omega) hk2, Nat.max_eq_right hle]
  by_cases hij : i = j
  · subst hij
    have haddress : address1 = address2 := h1.trans h2.symm
    by_cases hk : k1 = k2
    · simp [AliasingResult.Sound, hk, haddress]
    · simp [AliasingResult.Sound, hk, Straddles]
  · by_cases hblock : i.toNat / 2 ^ k2 = j.toNat / 2 ^ k2
    · simp [AliasingResult.Sound, hij, hblock, Straddles]
    · have hapart : Apart address1.toNat (2 ^ k1) address2.toNat (2 ^ k2) ↔
          ¬ (i - j).toNat < 2 ^ k2 := by
        rw [apart_iff hdvd1 hdvd2 hle, hinside]
        omega
      simp only [AliasingResult.Sound, hij, hblock, if_false, forall_const, hapart,
        Straddles, ne_eq, not_false_eq_true, and_true, reduceCtorEq, false_implies]
      refine ⟨fun h _ => h, fun h => ?_⟩
      by_cases hk : k1 < k2
      · exact h hk
      · obtain rfl : k1 = k2 := Nat.le_antisymm hle (Nat.le_of_not_lt hk)
        intro hlt
        -- both are multiples of the same size, so the one inside the other is the other
        obtain ⟨m, hm⟩ := hdvd1
        obtain ⟨n, hn⟩ := hdvd2
        obtain ⟨hle, hlt⟩ := hinside.1 hlt
        rw [hm, hn] at hle hlt
        have hmn : m = n := Nat.le_antisymm
          (Nat.le_of_lt_succ (Nat.lt_of_mul_lt_mul_left (hlt.trans_eq (Nat.mul_succ _ n).symm)))
          (Nat.le_of_mul_le_mul_left hle (Nat.two_pow_pos k1))
        have haddress : address1 = address2 :=
          BitVec.eq_of_toNat_eq (hm.trans ((congrArg _ hmn).trans hn.symm))
        rw [haddress, BitVec.sub_self] at hdiff
        exact hij (by simpa using (BitVec.sub_eq_iff_eq_add.1 hdiff.symm))

theorem AliasingResult.Sound.symm {r : AliasingResult} (h : r.Sound address1 address2 k1 k2) :
    r.Sound address2 address1 k2 k1 :=
  ⟨fun hr => (h.1 hr).symm, fun hr => ⟨(h.2 hr).1.symm, (h.2 hr).2.symm⟩⟩

theorem compareIndeces_sound_iff (hk1 : k1 < 31) (hk2 : k2 < 31) (hm1 : m1 = 2 ^ k1 ∨ m1 = 0)
    (hm2 : m2 = 2 ^ k2 ∨ m2 = 0) (h1 : address1 = base + i) (h2 : address2 = base + j)
    (hdvd1 : 2 ^ k1 ∣ address1.toNat) (hdvd2 : 2 ^ k2 ∣ address2.toNat) :
    (compareIndeces i j (BitVec.ofNat 32 m1) (BitVec.ofNat 32 m2)).Sound address1 address2 k1 k2 ↔
      m1 = 0 ∨ m2 = 0 ∨ Comparable i j k1 k2 := by
  rcases hm1 with rfl | rfl
  · rcases hm2 with rfl | rfl
    · have hne (k : Nat) : 2 ^ k ≠ 0 := (Nat.two_pow_pos k).ne'
      simp only [hne, false_or, Comparable]
      rcases Nat.le_total k1 k2 with hle | hle
      · rw [sound_iff_of_le hk2 hle h1 h2 hdvd1 hdvd2]
        exact ⟨fun h => ⟨h, fun hlt => absurd hlt (Nat.not_lt_of_le hle)⟩, fun h => h.1⟩
      · have hiff := sound_iff_of_le hk1 hle h2 h1 hdvd2 hdvd1
        rw [compareIndeces_comm hk1 hk2]
        constructor
        · intro h
          exact ⟨fun hlt => absurd hlt (Nat.not_lt_of_le hle), hiff.1 h.symm⟩
        · intro h
          exact (hiff.2 h.2).symm
    · simp [compareIndeces, AliasingResult.Sound]
  · simp [compareIndeces, AliasingResult.Sound]

/-- Offsets from a base that is a multiple of the larger size are in the block of their address. -/
theorem not_straddles (hk : k < 32) (hbase : 2 ^ k ∣ base.toNat)
    (hdvd : 2 ^ k ∣ (base + j).toNat) : ¬ Straddles i j k := by
  rintro ⟨hlt, hne⟩
  have hj : 2 ^ k ∣ j.toNat := by
    rw [BitVec.toNat_add] at hdvd
    have hpow : 2 ^ k ∣ 2 ^ 32 := Nat.pow_dvd_pow 2 (Nat.le_of_lt hk)
    exact (Nat.dvd_add_right hbase).1 ((Nat.dvd_mod_iff hpow).1 hdvd)
  obtain ⟨hle, hlt⟩ := (toNat_sub_lt_iff (Nat.le_of_lt hk) hj).1 hlt
  obtain ⟨n, hn⟩ := hj
  rw [hn] at hle hlt
  apply hne
  rw [hn, Nat.mul_div_cancel_left n (Nat.two_pow_pos k)]
  exact Nat.div_eq_of_lt_le (by rwa [Nat.mul_comm]) (by rwa [Nat.mul_comm, Nat.mul_succ])

theorem Comparable.of_base (hk1 : k1 < 32) (hk2 : k2 < 32) (hbase : 2 ^ max k1 k2 ∣ base.toNat)
    (hdvd1 : 2 ^ k1 ∣ (base + i).toNat) (hdvd2 : 2 ^ k2 ∣ (base + j).toNat) :
    Comparable i j k1 k2 := by
  constructor
  · intro hlt
    rw [Nat.max_eq_right (Nat.le_of_lt hlt)] at hbase
    exact not_straddles hk2 hbase hdvd2
  · intro hlt
    rw [Nat.max_eq_left (Nat.le_of_lt hlt)] at hbase
    exact not_straddles hk1 hbase hdvd1

end

end AliasAnalysis

end OpenAsip
