import Mathlib.Tactic.Linarith
import Mathlib.Tactic.LinearCombination
import OpenAsip.CalculateEncodings

namespace OpenAsip
set_option autoImplicit true

namespace BEMGenerator
open MathTools

/-- What the encodings and the opposite fields of the widths need of a field together. -/
def neededSpace (widths : List Nat) : Nat := (widths.map fun w => 2 ^ w).sum

/-- The space that the encodings for some widths take up. An encoding takes up the width of its
opposite field and the bits by which the encodings were not expanded before it. -/
structure Space where
  width : Nat
  taken : Nat
  sum : Nat
  count : Nat
  uncounted : Nat
deriving DecidableEq, Repr

namespace Space

/-- The space behind the encodings, in the width that the next one makes necessary. -/
def free (m : Space) : Nat := 2 ^ bitLength m.sum - m.sum

/-- When the encodings get longer, their number is taken for the free space, as if each had taken
the space of the last one. The rest is not counted. -/
def recounted (m : Space) : Nat :=
  if m.sum = 2 ^ (bitLength m.sum - 1) then
    2 * m.uncounted + (m.sum - m.count * 2 ^ m.taken)
  else m.uncounted

/-- The next encoding is expanded unless more space is not counted than is free. -/
def nextTaken (m : Space) (w : Nat) : Nat :=
  if m.recounted ≤ m.free then m.taken - (m.width - w) else m.taken

def next (m : Space) (w : Nat) : Space where
  width := w
  taken := m.nextTaken w
  sum := m.sum + 2 ^ m.nextTaken w
  count := m.count + 1
  uncounted := m.recounted

def first (w : Nat) : Space := ⟨w, w, 2 ^ w, 1, 0⟩

theorem nextTaken_le (m : Space) (w : Nat) : m.nextTaken w ≤ m.taken := by
  rw [nextTaken]
  split
  · exact Nat.sub_le _ _
  · exact Nat.le_refl _

end Space

/-- The space taken by the encodings for widths from the largest to the smallest. -/
def takenSpace : List Nat → Nat
  | [] => 0
  | w :: ws => (ws.foldl Space.next (Space.first w)).sum

def headWidth (m : Encodings) : Nat :=
  match m.elems with
  | [] => 0
  | c :: _ => c.width

/-- The remainder after the bit that the next encoding makes necessary. -/
def Allocation.grownRemainder (count : Nat) (s : Allocation) : Nat :=
  if bitLength s.prevEncoding < bitLength (s.prevEncoding + 1) then
    uint32 (s.remainder <<< 1 + (count - s.encodingsLeft))
  else s.remainder

theorem expansionLoop_spec
    (h : expansionLoop remainder encodingsLeft freeBits fuel e = .ok k) (he : e ≤ freeBits)
    (hfuel : freeBits < fuel + e) :
    e ≤ k ∧ k ≤ freeBits ∧
      (∀ i, e ≤ i → i < k → uint32 (remainder <<< i) < encodingsLeft) ∧
      (encodingsLeft ≤ uint32 (remainder <<< k) ∨ k = freeBits) := by
  induction fuel generalizing e with
  | zero => omega
  | succ fuel ih =>
    rw [expansionLoop] at h
    obtain ⟨shifted, hs, h⟩ := Except.bind_ok h
    rw [shiftLeft32] at hs
    split at hs
    case isFalse => cases hs
    case isTrue =>
      cases hs
      split at h
      case isFalse hle =>
        cases h
        exact ⟨Nat.le_refl _, he, fun i hi hlt => by omega, .inl (Nat.le_of_not_lt hle)⟩
      case isTrue hlt =>
        split at h
        case isFalse hf =>
          cases h
          exact ⟨Nat.le_refl _, he, fun i hi hlt => by omega, .inr (by omega)⟩
        case isTrue hf =>
          obtain ⟨hek, hk, hbelow, hend⟩ := ih h (by omega) (by omega)
          refine ⟨by omega, hk, fun i hi hik => ?_, hend⟩
          obtain rfl | hi := Nat.eq_or_lt_of_le hi
          · exact hlt
          · exact hbelow i hi hik

theorem Allocation.finish_uint32 (s : Allocation) (encodings : Encodings) (remainder e w : Nat) :
    s.finish encodings (uint32 remainder) e w = s.finish encodings remainder e w := by
  simp only [finish, uint32, Nat.mod_add_mod]

/-- An iteration on unbounded numbers, with the expansion that the loop finds. -/
theorem allocate_id_inv (h : allocate id count s w = .ok s') :
    ∃ e, w + e ≤ s.prevOppositeFieldWidth ∧
      s' = s.finish (s.grown.insert ⟨(s.prevEncoding + 1) * 2 ^ e, 0⟩)
        (s.grownRemainder count * 2 ^ e) ((s.prevEncoding + 1) * 2 ^ e) w ∧
      (∀ i < e, uint32 (s.grownRemainder count * 2 ^ i) < s.encodingsLeft) ∧
      (s.encodingsLeft ≤ uint32 (s.grownRemainder count * 2 ^ e) ∨
        w + e = s.prevOppositeFieldWidth) := by
  simp only [allocate, id_eq] at h
  split at h
  case isTrue hw =>
    cases h
    refine ⟨0, by omega, ?_, fun i hi => absurd hi (Nat.not_lt_zero i), .inr (by omega)⟩
    rw [Nat.pow_zero, Nat.mul_one, Nat.mul_one]
    rfl
  case isFalse hw =>
    split at h
    case isFalse => cases h
    case isTrue hlt =>
      obtain ⟨e, hloop, h⟩ := Except.bind_ok h
      change expansionLoop (s.grownRemainder count) _ _ _ _ = _ at hloop
      have hs' : s' = s.finish (s.grown.insert ⟨(s.prevEncoding + 1) <<< e, 0⟩)
          (uint32 (s.grownRemainder count <<< e)) ((s.prevEncoding + 1) <<< e) w :=
        (Except.ok.inj h).symm
      obtain ⟨-, hle, hbelow, hend⟩ := expansionLoop_spec hloop (Nat.zero_le _) (Nat.lt_succ_self _)
      simp only [Nat.shiftLeft_eq, Allocation.finish_uint32] at hs' hbelow hend
      exact ⟨e, by omega, hs', fun i hi => hbelow i (Nat.zero_le i) hi,
        hend.imp id fun h => by omega⟩

/-- How the encodings are lengthened before the next one. -/
theorem Allocation.Canonical.grown_elems {s : Allocation} (h : s.Canonical ws) :
    ∃ g, bitLength (s.prevEncoding + 1) = bitLength s.prevEncoding + g ∧
      s.grown.elems = s.encodings.elems.map (Encoding.addBits g) := by
  obtain hg | ⟨hg, -⟩ := bitLength_succ s.prevEncoding
  · refine ⟨0, hg, ?_⟩
    rw [Allocation.grown, if_neg (by omega)]
    exact (List.map_id _).symm
  · refine ⟨1, hg, ?_⟩
    rw [Allocation.grown, if_pos (by omega), addExtraBits_elems h.increasing]

theorem headWidth_of_elems (h : m.elems = c :: rest) : headWidth m = c.width := by
  rw [headWidth, h]

/-- The first encoding gets longer as the next one makes it necessary. -/
theorem headWidth_allocate (h : s.Canonical ws)
    (ha : allocate id count s w = .ok s')
    (hg : bitLength (s.prevEncoding + 1) = bitLength s.prevEncoding + g) :
    headWidth s'.encodings = headWidth s.encodings + g := by
  obtain ⟨e, -, rfl, -, -⟩ := allocate_id_inv ha
  obtain ⟨g', hg', helems⟩ := h.grown_elems
  obtain rfl : g = g' := by omega
  have hins := h.insert_elems helems e
  obtain ⟨init, ws', hlast, -⟩ := h.last
  cases hs : s.encodings.elems with
  | nil =>
    rw [hs] at hlast
    exact absurd hlast.symm (List.append_ne_nil_of_right_ne_nil _ (List.cons_ne_nil _ _))
  | cons c rest =>
    rw [hs, List.map_cons, List.cons_append] at hins
    rw [headWidth_of_elems hs, ← Encoding.addBits_width]
    exact headWidth_of_elems hins

/-- The encodings so far were expanded as their space says. The remainder is the number of free
encodings without the uncounted ones, which may be negative. -/
structure Exact (T : Nat) (s : Allocation) (m : Space) : Prop where
  width_eq : s.prevOppositeFieldWidth = m.width
  width_le : m.width ≤ m.taken
  code : (s.prevEncoding + 1) * 2 ^ m.taken = m.sum
  total : bitLength s.prevEncoding + m.taken = T
  remainder : ∃ r : Int, (s.remainder : Int) % 2 ^ 32 = r % 2 ^ 32 ∧
    r * 2 ^ m.taken = 2 ^ T - m.sum - m.uncounted
  counted : m.count * 2 ^ m.taken ≤ m.sum
  bound : m.uncounted + m.sum ≤ 2 ^ T + m.count * 2 ^ m.taken

/-- All encodings that are left have the length of the last one, or a longer one. -/
structure Done (T rest : Nat) (s : Allocation) (m : Space) : Prop where
  room : rest + (s.prevEncoding + 1) ≤ 2 ^ bitLength s.prevEncoding
  space : m.sum + rest * 2 ^ m.taken ≤ 2 ^ T
  minimal : ∀ t, m.sum ≤ 2 ^ t → T ≤ t

theorem Exact.sum_le (h : Exact T s m) : m.sum ≤ 2 ^ T := by
  have hlt := lt_two_pow_bitLength s.prevEncoding
  rw [← h.code, ← h.total, Nat.pow_add]
  exact Nat.mul_le_mul_right _ hlt

/-- An expanded encoding is as much longer as it is expanded. -/
theorem bitLength_expanded (hg : bitLength (p + 1) = bitLength p + g) (e : Nat) :
    bitLength ((p + 1) * 2 ^ e) = bitLength p + g + e := by
  rw [bitLength_mul_two_pow (Nat.succ_ne_zero p), hg]

theorem Exact.bitLength_sum (h : Exact T s m)
    (hg : bitLength (s.prevEncoding + 1) = bitLength s.prevEncoding + g) :
    bitLength m.sum = T + g := by
  rw [← h.code, bitLength_expanded hg, ← h.total]
  omega

theorem Exact.minimal (h : Exact T s m) : ∀ t, m.sum ≤ 2 ^ t → T ≤ t := by
  intro t ht
  have hle : s.prevEncoding * 2 ^ m.taken < 2 ^ t := by
    have := h.code
    rw [Nat.add_mul, Nat.one_mul] at this
    have := Nat.two_pow_pos m.taken
    omega
  cases hp : s.prevEncoding with
  | zero =>
    have hcode := h.code
    have htotal := h.total
    rw [hp, Nat.zero_add, Nat.one_mul] at hcode
    rw [hp] at htotal
    have h0 : bitLength 0 = 0 := rfl
    rw [h0, Nat.zero_add] at htotal
    rw [← hcode, htotal] at ht
    exact (Nat.pow_le_pow_iff_right (Nat.lt_succ_self 1)).1 ht
  | succ p =>
    have htotal := h.total
    rw [← bitLength_mul_two_pow (by omega)] at htotal
    rw [← htotal]
    exact bitLength_le.2 hle

/-- The state before an encoding is expanded. -/
structure Grown (T : Nat) (remainder : Nat) (m : Space) : Prop where
  size : bitLength m.sum = T
  sum_lt : m.sum < 2 ^ T
  remainder : ∃ r : Int, (remainder : Int) % 2 ^ 32 = r % 2 ^ 32 ∧
    r * 2 ^ m.taken = 2 ^ T - m.sum - m.recounted
  bound : m.recounted + m.sum ≤ 2 ^ T + m.count * 2 ^ m.taken

/-- A new bit doubles the free encodings, and those of the old length are free once more. -/
theorem Exact.grow (h : Exact T s m) (hleft : m.count + s.encodingsLeft = count)
    (hg : bitLength (s.prevEncoding + 1) = bitLength s.prevEncoding + g) :
    Grown (T + g) (s.grownRemainder count) m := by
  have hsize := h.bitLength_sum hg
  have hlt : m.sum < 2 ^ (T + g) := hsize ▸ lt_two_pow_bitLength m.sum
  obtain ⟨r, hr, hrX⟩ := h.remainder
  have hbound := h.bound
  have hcounted := h.counted
  obtain hg' | ⟨hg', hpow⟩ := bitLength_succ s.prevEncoding
  · obtain rfl : g = 0 := by omega
    have hne : ¬ m.sum = 2 ^ (bitLength m.sum - 1) := by
      intro heq
      rw [hsize, Nat.add_zero] at heq
      have hmin := h.minimal _ (Nat.le_of_eq heq)
      obtain rfl : T = 0 := by omega
      rw [heq] at hlt
      exact absurd hlt (by decide)
    have hrec : m.recounted = m.uncounted := by rw [Space.recounted, if_neg hne]
    refine ⟨hsize, hlt, ⟨r, ?_, ?_⟩, ?_⟩
    · rw [Allocation.grownRemainder, if_neg (by omega)]
      exact hr
    · rw [hrec]
      exact hrX
    · rw [hrec]
      exact hbound
  · obtain rfl : g = 1 := by omega
    have hsum : m.sum = 2 ^ T := by
      rw [← h.code, hpow, ← Nat.pow_add, h.total]
    have heq : m.sum = 2 ^ (bitLength m.sum - 1) := by
      rw [hsize, Nat.add_sub_cancel]
      exact hsum
    have hrec : m.recounted = 2 * m.uncounted + (m.sum - m.count * 2 ^ m.taken) := by
      rw [Space.recounted, if_pos heq]
    have hT : 2 ^ (T + 1) = 2 * 2 ^ T := by rw [Nat.pow_succ, Nat.mul_comm]
    refine ⟨hsize, hlt, ⟨2 * r + m.count, ?_, ?_⟩, ?_⟩
    · rw [Allocation.grownRemainder, if_pos (by omega), uint32, Nat.shiftLeft_eq]
      have : count - s.encodingsLeft = m.count := by omega
      rw [this]
      omega
    · have hsub : ((m.sum - m.count * 2 ^ m.taken : Nat) : Int) =
          m.sum - m.count * 2 ^ m.taken := by
        rw [Nat.cast_sub hcounted]
        push_cast
        rfl
      rw [hrec, Nat.cast_add, hsub]
      push_cast
      rw [pow_succ]
      linear_combination 2 * hrX
    · rw [hrec, hT]
      omega

/-- The code has the remainder at hand when it is not negative. -/
theorem uint32_remainder {rem n e : Nat} (hr : (rem : Int) % 2 ^ 32 = (n : Int) % 2 ^ 32)
    (hn : n ≤ 2 ^ 31) (hleft : left ≤ 2 ^ 31)
    (hbelow : ∀ i < e, uint32 (rem * 2 ^ i) < left) : uint32 (rem * 2 ^ e) = n * 2 ^ e := by
  have hmod : rem % 2 ^ 32 = n % 2 ^ 32 := by omega
  have huint (i : Nat) : uint32 (rem * 2 ^ i) = n * 2 ^ i % 2 ^ 32 := by
    rw [uint32, Nat.mul_mod, hmod, ← Nat.mul_mod]
  induction e with
  | zero =>
    rw [huint, Nat.pow_zero, Nat.mul_one]
    exact Nat.mod_eq_of_lt (by omega)
  | succ e ih =>
    have he := ih fun i hi => hbelow i (Nat.lt_succ_of_lt hi)
    have hlt := hbelow e (Nat.lt_succ_self e)
    rw [he] at hlt
    rw [huint]
    apply Nat.mod_eq_of_lt
    rw [Nat.pow_succ, ← Nat.mul_assoc]
    omega

/-- A negative remainder looks as if there were enough encodings. -/
theorem not_expanded {rem : Nat} {r : Int} (hr : (rem : Int) % 2 ^ 32 = r % 2 ^ 32) (hneg : r < 0)
    (hle : -r ≤ 2 ^ 31) (hleft : left ≤ 2 ^ 31)
    (hbelow : ∀ i < e, uint32 (rem * 2 ^ i) < left) : e = 0 := by
  by_contra he
  have hlt := hbelow 0 (Nat.pos_of_ne_zero he)
  rw [Nat.pow_zero, Nat.mul_one, uint32] at hlt
  omega

theorem uint32_pred (hn : n ≤ 2 ^ 31) : uint32 (n + 1 + (2 ^ 32 - 1)) = n := by
  rw [uint32]
  omega

/-- An encoding that is not expanded, or as far as its opposite field leaves bits free. -/
theorem Grown.exact {s : Allocation} {m : Space} {rem : Nat} (h : Grown T rem m)
    (hlen : bitLength (s.prevEncoding + 1) + m.taken = T)
    (hcode : (s.prevEncoding + 1) * 2 ^ m.taken = m.sum)
    (hcounted : m.count * 2 ^ m.taken ≤ m.sum) (he : e ≤ m.taken)
    (hw : w ≤ m.taken - e) (htaken : m.nextTaken w = m.taken - e)
    (hfree : e = 0 ∨ m.recounted + m.sum ≤ 2 ^ T) (encodings : Encodings) :
    Exact T (s.finish encodings (rem * 2 ^ e) ((s.prevEncoding + 1) * 2 ^ e) w) (m.next w) := by
  obtain ⟨r, hr, hrX⟩ := h.remainder
  have hX : 2 ^ e * 2 ^ (m.taken - e) = 2 ^ m.taken := by
    rw [← Nat.pow_add]
    congr 1
    omega
  have hXle : 2 ^ (m.taken - e) ≤ 2 ^ m.taken := Nat.pow_le_pow_right Nat.two_pos (Nat.sub_le _ _)
  have hcount : m.count * 2 ^ (m.taken - e) ≤ m.count * 2 ^ m.taken := Nat.mul_le_mul_left _ hXle
  refine ⟨rfl, ?_, ?_, ?_, ⟨r * 2 ^ e - 1, ?_, ?_⟩, ?_, ?_⟩
  · change w ≤ m.nextTaken w
    rw [htaken]
    exact hw
  · simp only [Allocation.finish, Space.next, htaken]
    rw [Nat.add_mul, Nat.mul_assoc, hX, hcode, Nat.one_mul]
  · simp only [Allocation.finish, Space.next, htaken]
    have hexp : bitLength ((s.prevEncoding + 1) * 2 ^ e) = bitLength (s.prevEncoding + 1) + e :=
      bitLength_mul_two_pow (Nat.succ_ne_zero _) e
    rw [hexp]
    omega
  · simp only [Allocation.finish, uint32]
    have hmul : ((rem * 2 ^ e : Nat) : Int) % 2 ^ 32 = r * 2 ^ e % 2 ^ 32 := by
      rw [Nat.cast_mul, Nat.cast_pow, Nat.cast_ofNat, Int.mul_emod, hr, ← Int.mul_emod]
    omega
  · simp only [Space.next, htaken]
    have hX' : (2 : Int) ^ e * 2 ^ (m.taken - e) = 2 ^ m.taken := by exact_mod_cast hX
    push_cast
    linear_combination hrX + r * hX'
  · simp only [Space.next, htaken]
    rw [Nat.add_mul, Nat.one_mul]
    omega
  · simp only [Space.next, htaken]
    rw [Nat.add_mul, Nat.one_mul]
    obtain rfl | hfree := hfree
    · have := h.bound
      rw [Nat.sub_zero]
      omega
    · omega

theorem Grown.free_eq {rem : Nat} (h : Grown T rem m) : m.free = 2 ^ T - m.sum := by
  rw [Space.free, h.size]

/-- With no more uncounted encodings than free ones the remainder is a natural number. -/
theorem Grown.remainder_nat {rem : Nat} (h : Grown T rem m) (hfree : m.recounted + m.sum ≤ 2 ^ T) :
    ∃ n : Nat, (rem : Int) % 2 ^ 32 = (n : Int) % 2 ^ 32 ∧
      n * 2 ^ m.taken + m.sum + m.recounted = 2 ^ T := by
  obtain ⟨r, hr, hrX⟩ := h.remainder
  have hX : (0 : Int) < 2 ^ m.taken := by positivity
  have hfree' : (m.recounted : Int) + m.sum ≤ 2 ^ T := by exact_mod_cast hfree
  have hr0 : 0 ≤ r := by
    by_contra hneg
    have := mul_neg_of_neg_of_pos (Int.lt_of_not_ge hneg) hX
    omega
  obtain ⟨n, rfl⟩ := Int.eq_ofNat_of_zero_le hr0
  refine ⟨n, hr, ?_⟩
  have : (n : Int) * 2 ^ m.taken + m.sum + m.recounted = 2 ^ T := by omega
  exact_mod_cast this

/-- With more uncounted encodings than free ones it is a negative number. -/
theorem Grown.remainder_neg {rem : Nat} (h : Grown T rem m)
    (hcounted : m.count * 2 ^ m.taken ≤ m.sum) (hfree : ¬ m.recounted + m.sum ≤ 2 ^ T) :
    ∃ r : Int, (rem : Int) % 2 ^ 32 = r % 2 ^ 32 ∧ r < 0 ∧ -r ≤ 2 ^ T := by
  obtain ⟨r, hr, hrX⟩ := h.remainder
  have hX : (1 : Int) ≤ 2 ^ m.taken := by exact_mod_cast Nat.one_le_two_pow
  have hfree' : (2 : Int) ^ T < m.recounted + m.sum := by exact_mod_cast Nat.lt_of_not_le hfree
  have hneg : r < 0 := by
    by_contra hr0
    have := mul_nonneg (Int.le_of_not_gt hr0) (Int.le_trans Int.one_nonneg hX)
    omega
  have hbound : (m.recounted : Int) ≤ 2 ^ T := by
    have h1 := h.bound
    have h2 : m.recounted ≤ 2 ^ T := by omega
    exact_mod_cast h2
  have hlt : (m.sum : Int) < 2 ^ T := by exact_mod_cast h.sum_lt
  have hle : -r * 1 ≤ -r * 2 ^ m.taken := mul_le_mul_of_nonneg_left hX (by omega)
  refine ⟨r, hr, hneg, ?_⟩
  rw [mul_one, neg_mul, hrX] at hle
  omega

/-- The codes that are left fit into the free encodings, so the field does not grow any more. -/
theorem Grown.done {s : Allocation} {rem n : Nat} (h : Grown T rem m)
    (hlen : bitLength (s.prevEncoding + 1) + m.taken = T)
    (hcode : (s.prevEncoding + 1) * 2 ^ m.taken = m.sum)
    (hn : n * 2 ^ m.taken + m.sum ≤ 2 ^ T) (hrest : rest + 1 ≤ n * 2 ^ e)
    (he : m.nextTaken w + e ≤ m.taken) (encodings : Encodings) (next : Nat) :
    Done T rest (s.finish encodings next ((s.prevEncoding + 1) * 2 ^ e) w) (m.next w) := by
  have hexp : bitLength ((s.prevEncoding + 1) * 2 ^ e) = bitLength (s.prevEncoding + 1) + e :=
    bitLength_mul_two_pow (Nat.succ_ne_zero _) e
  refine ⟨?_, ?_, ?_⟩
  · have hroom : n + (s.prevEncoding + 1) ≤ 2 ^ bitLength (s.prevEncoding + 1) := by
      apply Nat.le_of_mul_le_mul_right _ (Nat.two_pow_pos m.taken)
      rw [Nat.add_mul, hcode, ← Nat.pow_add, hlen]
      exact hn
    have hmul := Nat.mul_le_mul_right (2 ^ e) hroom
    rw [Nat.add_mul, ← Nat.pow_add] at hmul
    simp only [Allocation.finish, hexp]
    omega
  · have hX : 2 ^ m.nextTaken w * 2 ^ e ≤ 2 ^ m.taken := by
      rw [← Nat.pow_add]
      exact Nat.pow_le_pow_right Nat.two_pos he
    have hparts : (rest + 1) * 2 ^ m.nextTaken w ≤ n * 2 ^ m.taken := by
      calc (rest + 1) * 2 ^ m.nextTaken w ≤ n * 2 ^ e * 2 ^ m.nextTaken w :=
            Nat.mul_le_mul_right _ hrest
        _ = n * (2 ^ m.nextTaken w * 2 ^ e) := by rw [Nat.mul_assoc, Nat.mul_comm (2 ^ e)]
        _ ≤ n * 2 ^ m.taken := Nat.mul_le_mul_left n hX
    rw [Nat.add_mul, Nat.one_mul] at hparts
    simp only [Space.next]
    omega
  · intro t ht
    have hpos := Nat.two_pow_pos (m.nextTaken w)
    simp only [Space.next] at ht
    rw [← h.size]
    exact bitLength_le.2 (by omega)

/-- One iteration follows the space, or finds that all encodings that are left have room. -/
theorem Exact.step (h : Exact T s m) (ha : allocate id count s w = .ok s')
    (hg : bitLength (s.prevEncoding + 1) = bitLength s.prevEncoding + g)
    (hleft : s.encodingsLeft = rest + 1) (hcount : m.count + s.encodingsLeft = count)
    (hn : rest + 1 ≤ 2 ^ 31) (hT : T + g ≤ 31) :
    Exact (T + g) s' (m.next w) ∨ Done (T + g) rest s' (m.next w) := by
  obtain ⟨e, hwe, rfl, hbelow, hend⟩ := allocate_id_inv ha
  rw [h.width_eq] at hwe hend
  rw [hleft] at hbelow hend
  have hgrown := h.grow hcount hg
  have hwidth := h.width_le
  have hpow : 2 ^ (T + g) ≤ 2 ^ 31 := Nat.pow_le_pow_right Nat.two_pos hT
  have hlen : bitLength (s.prevEncoding + 1) + m.taken = T + g := by
    have := h.total
    omega
  by_cases hfree : m.recounted + m.sum ≤ 2 ^ (T + g)
  · obtain ⟨n, hr, hnX⟩ := hgrown.remainder_nat hfree
    have hn31 : n ≤ 2 ^ 31 := by
      have := Nat.le_mul_of_pos_right n (Nat.two_pow_pos m.taken)
      omega
    have htaken : m.nextTaken w = m.taken - (m.width - w) := by
      rw [Space.nextTaken, if_pos]
      rw [hgrown.free_eq]
      omega
    by_cases hf : w + e = m.width
    · left
      exact hgrown.exact hlen h.code h.counted (by omega) (by omega) (by rw [htaken]; omega)
        (.inr hfree) _
    · right
      have hle := hend.resolve_right hf
      rw [uint32_remainder hr hn31 hn hbelow] at hle
      have hsum : n * 2 ^ m.taken + m.sum ≤ 2 ^ (T + g) := by omega
      have htake : m.nextTaken w + e ≤ m.taken := by omega
      exact hgrown.done hlen h.code hsum hle htake _ _
  · obtain ⟨r, hr, hneg, hle⟩ := hgrown.remainder_neg h.counted hfree
    have hpow' : (2 : Int) ^ (T + g) ≤ 2 ^ 31 := by exact_mod_cast hpow
    obtain rfl := not_expanded hr hneg (Int.le_trans hle hpow') hn hbelow
    left
    refine hgrown.exact hlen h.code h.counted (Nat.zero_le _) (by omega) ?_ (.inl rfl) _
    rw [Space.nextTaken, if_neg, Nat.sub_zero]
    rw [hgrown.free_eq]
    have := hgrown.sum_lt
    omega

theorem Done.step (h : Done T (rest + 1) s m) (ha : allocate id count s w = .ok s') :
    bitLength (s.prevEncoding + 1) = bitLength s.prevEncoding ∧ Done T rest s' (m.next w) := by
  obtain ⟨e, -, rfl, -, -⟩ := allocate_id_inv ha
  have hroom := h.room
  have hsame : bitLength (s.prevEncoding + 1) = bitLength s.prevEncoding := by
    obtain hsame | ⟨-, hpow⟩ := bitLength_succ s.prevEncoding
    · exact hsame
    · omega
  have hexp : bitLength ((s.prevEncoding + 1) * 2 ^ e) = bitLength s.prevEncoding + e := by
    rw [bitLength_mul_two_pow (Nat.succ_ne_zero _), hsame]
  refine ⟨hsame, ?_, ?_, ?_⟩
  · have hmul := Nat.mul_le_mul_right (2 ^ e) hroom
    rw [Nat.add_mul, ← Nat.pow_add] at hmul
    have hrest := Nat.le_mul_of_pos_right (rest + 1) (Nat.two_pow_pos e)
    simp only [Allocation.finish, hexp]
    omega
  · have hX := Nat.pow_le_pow_right Nat.two_pos (m.nextTaken_le w)
    have hparts := Nat.mul_le_mul_left (rest + 1) hX
    have hspace := h.space
    rw [Nat.add_mul, Nat.one_mul] at hparts
    simp only [Space.next]
    omega
  · intro t ht
    exact h.minimal t (Nat.le_trans (Nat.le_add_right _ _) ht)

theorem headWidth_le_allocate (hs : s.Canonical ws) (ha : allocate id count s w = .ok s') :
    headWidth s.encodings ≤ headWidth s'.encodings := by
  obtain ⟨g, hg, -⟩ := hs.grown_elems
  rw [headWidth_allocate hs ha hg]
  exact Nat.le_add_right _ g

theorem headWidth_le_foldlM {rest : List Nat} (hs : s.Canonical ws)
    (h : rest.foldlM (allocate id count) s = .ok s') :
    headWidth s.encodings ≤ headWidth s'.encodings := by
  induction rest generalizing s ws with
  | nil =>
    cases h
    exact Nat.le_refl _
  | cons w rest ih =>
    rw [List.foldlM_cons] at h
    obtain ⟨t, ht, h⟩ := Except.bind_ok h
    exact Nat.le_trans (headWidth_le_allocate hs ht) (ih (hs.allocate ht) h)

/-- `T` is the width of the smallest field that has the space. -/
structure SmallestField (T space : Nat) : Prop where
  fits : space ≤ 2 ^ T
  minimal : ∀ t, space ≤ 2 ^ t → T ≤ t

/-- A run ends with the smallest field that has the space which its encodings take up. -/
theorem foldlM_allocate_smallestField {rest : List Nat} (hs : s.Canonical ws)
    (hrun : rest.foldlM (allocate id count) s = .ok s') (hT : headWidth s.encodings + w₀ = T)
    (h : Exact T s m ∨ Done T rest.length s m) (hleft : s.encodingsLeft = rest.length)
    (hcount : m.count + rest.length = count) (hn : rest.length ≤ 2 ^ 31)
    (hend : headWidth s'.encodings + w₀ ≤ 31) :
    SmallestField (headWidth s'.encodings + w₀) (rest.foldl Space.next m).sum := by
  induction rest generalizing s ws m T with
  | nil =>
    cases hrun
    rw [hT]
    cases h with
    | inl h => exact ⟨h.sum_le, h.minimal⟩
    | inr h => exact ⟨Nat.le_trans (Nat.le_add_right _ _) h.space, h.minimal⟩
  | cons w rest ih =>
    rw [List.foldlM_cons] at hrun
    obtain ⟨t, ht, hrun⟩ := Except.bind_ok hrun
    obtain ⟨g, hg, -⟩ := hs.grown_elems
    have hhead := headWidth_allocate hs ht hg
    have hle := headWidth_le_foldlM (hs.allocate ht) hrun
    rw [List.length_cons] at hleft hcount hn
    have hnext : Exact (T + g) t (m.next w) ∨ Done (T + g) rest.length t (m.next w) := by
      cases h with
      | inl h => exact h.step ht hg hleft (by omega) hn (by omega)
      | inr h =>
        obtain ⟨hsame, hdone⟩ := h.step ht
        obtain rfl : g = 0 := by omega
        exact .inr hdone
    have hleft' : t.encodingsLeft = rest.length := by
      obtain ⟨e, -, rfl, -, -⟩ := allocate_id_inv ht
      simp only [Allocation.finish, hleft]
      exact uint32_pred (by omega)
    have hcount' : (m.next w).count + rest.length = count := by
      simp only [Space.next]
      omega
    exact ih (hs.allocate ht) hrun (by omega) hnext hleft' hcount' (by omega)

theorem allocateFirst_exact (count w : Nat) :
    Exact w (allocateFirst count w) (Space.first w) where
  width_eq := rfl
  width_le := Nat.le_refl w
  code := Nat.one_mul _
  total := Nat.zero_add w
  remainder := ⟨0, rfl, by simp [Space.first]⟩
  counted := Nat.le_of_eq (Nat.one_mul _)
  bound := by
    simp only [Space.first]
    omega

/-- There are no more encodings than numbers up to the last one. -/
theorem Allocation.Canonical.length_le {s : Allocation} (h : s.Canonical ws) :
    ws.length ≤ s.prevEncoding + 1 := by
  have hnodup : (s.encodings.elems.map Encoding.value).Nodup :=
    List.pairwise_map.2 (h.increasing.imp fun hlt => Nat.ne_of_lt hlt)
  have hsub : s.encodings.elems.map Encoding.value ⊆ List.range (s.prevEncoding + 1) := by
    intro value hvalue
    obtain ⟨c, hc, rfl⟩ := List.mem_map.1 hvalue
    exact List.mem_range.2 (Nat.lt_succ_of_le (h.value_le hc))
  have hle := (List.subperm_of_subset hnodup hsub).length_le
  rwa [List.length_map, List.length_range, h.length] at hle

theorem Space.neededSpace_le {m : Space} {rest : List Nat} (hd : rest.Pairwise (· ≥ ·))
    (hw : ∀ w ∈ rest, w ≤ m.width) (hm : m.width ≤ m.taken) :
    m.sum + neededSpace rest ≤ (rest.foldl Space.next m).sum := by
  induction rest generalizing m with
  | nil => exact Nat.le_refl _
  | cons w rest ih =>
    have hle := hw w List.mem_cons_self
    have htaken : w ≤ m.nextTaken w := by
      rw [nextTaken]
      split <;> omega
    have hrest := ih (m := m.next w) (List.pairwise_cons.1 hd).2 (List.pairwise_cons.1 hd).1 htaken
    have hpow := Nat.pow_le_pow_right Nat.two_pos htaken
    rw [List.foldl_cons]
    simp only [Space.next] at hrest ⊢
    simp only [neededSpace, List.map_cons, List.sum_cons] at hrest ⊢
    omega

theorem neededSpace_le_takenSpace {ws : List Nat} (hd : ws.Pairwise (· ≥ ·)) :
    neededSpace ws ≤ takenSpace ws := by
  cases ws with
  | nil => exact Nat.le_refl 0
  | cons w ws =>
    have hle := Space.neededSpace_le (m := .first w) (List.pairwise_cons.1 hd).2
      (List.pairwise_cons.1 hd).1 (Nat.le_refl w)
    rw [neededSpace, List.map_cons, List.sum_cons]
    exact hle


/-- The encodings on unbounded numbers take the smallest field that has the space they take up. -/
theorem calculateEncodings_id_smallestField {W : Widths} (hW : W.elems ≠ [])
    (h : calculateEncodings id W true = .ok codes) (hf : fieldWidth codes W < 32) :
    SmallestField (fieldWidth codes W) (takenSpace W.elems.reverse) := by
  obtain ⟨s, hs, rfl⟩ := calculateEncodings_allocation hW h
  have hcanonical := allocation_canonical hs
  have hlast := hcanonical.prevEncoding_lt (Nat.le_of_lt_succ hf)
  have hcount := hcanonical.length_le
  cases hr : W.elems.reverse with
  | nil => exact absurd (List.reverse_eq_nil_iff.1 hr) hW
  | cons w ws =>
    rw [hr, List.length_cons] at hcount
    have hfield : fieldWidth s.encodings W = headWidth s.encodings + w := by
      obtain ⟨init, ws', he, -⟩ := hcanonical.last
      cases hc : s.encodings.elems with
      | nil => exact absurd (he.symm.trans hc) (by simp)
      | cons c cs => rw [fieldWidth, hc, hr, headWidth_of_elems hc]
    rw [hr] at hs
    have hleft : (allocateFirst (w :: ws).length w).encodingsLeft = ws.length := by
      have hsmall : uint32 (ws.length + 1) = ws.length + 1 := Nat.mod_eq_of_lt (by omega)
      change uint32 (uint32 (ws.length + 1) + (2 ^ 32 - 1)) = ws.length
      rw [hsmall]
      exact uint32_pred (by omega)
    have hexact := allocateFirst_exact (w :: ws).length w
    have hsum : (Space.first w).count + ws.length = (w :: ws).length := Nat.add_comm 1 _
    rw [hfield]
    exact foldlM_allocate_smallestField (allocateFirst_canonical _ w) hs (Nat.zero_add w)
      (.inl hexact) hleft hsum (by omega) (by omega)

/-- The field is the smallest one that has the space that is needed if and only if this one has
the space that the encodings take up. -/
theorem calculateEncodings_minimal_iff (W : Widths) (codes : Encodings) (hW : W.elems ≠ [])
    (h : calculateEncodings id W true = .ok codes) (hf : fieldWidth codes W < 32) :
    calculateEncodings uint32 W true = .ok codes ∧
      (SmallestField (fieldWidth codes W) (neededSpace W.elems) ↔
        ∀ T, neededSpace W.elems ≤ 2 ^ T → takenSpace W.elems.reverse ≤ 2 ^ T) := by
  have hfield := calculateEncodings_id_smallestField hW h hf
  have hle : neededSpace W.elems ≤ takenSpace W.elems.reverse := by
    have hrev := neededSpace_le_takenSpace (List.pairwise_reverse.2 W.sorted)
    rwa [neededSpace, List.map_reverse, List.sum_reverse] at hrev
  refine ⟨?_, ?_, ?_⟩
  · obtain ⟨s, hs, rfl⟩ := calculateEncodings_allocation hW h
    have hcanonical := allocation_canonical hs
    have hlast := hcanonical.prevEncoding_lt (Nat.le_of_lt hf)
    exact calculateEncodings_of_allocation hW (allocation_uint32 hs hlast) hcanonical
  · intro hmin T hT
    exact Nat.le_trans hfield.fits (Nat.pow_le_pow_right Nat.two_pos (hmin.minimal T hT))
  · intro hspace
    exact ⟨Nat.le_trans hle hfield.fits, fun T hT => hfield.minimal T (hspace T hT)⟩

theorem calculateEncodings_minimal_example :
    calculateEncodings uint32 exampleWidths true =
        .ok ⟨[⟨0, 1⟩, ⟨2, 0⟩, ⟨6, 0⟩, ⟨7, 0⟩], by decide⟩ ∧
      SmallestField 3 8 := by
  have h := calculateEncodings_minimal_iff exampleWidths
    ⟨[⟨0, 1⟩, ⟨2, 0⟩, ⟨6, 0⟩, ⟨7, 0⟩], by decide⟩ (by decide) (by rfl) (by decide)
  refine ⟨h.1, h.2.2 ?_⟩
  have htaken : takenSpace exampleWidths.elems.reverse = neededSpace exampleWidths.elems := by decide
  intro T hT
  rw [htaken]
  exact hT

/-- Opposite fields that need the space of 32 encodings take up more. -/
def wastedWidths : Widths := ⟨[0, 0, 1, 2, 2, 2, 2, 2, 3], by decide⟩

theorem calculateEncodings_wastes :
    ∃ codes, calculateEncodings uint32 wastedWidths true = .ok codes ∧
      fieldWidth codes wastedWidths = 6 ∧
      ¬ SmallestField (fieldWidth codes wastedWidths) (neededSpace wastedWidths.elems) := by
  refine ⟨⟨[⟨0, 3⟩, ⟨2, 2⟩, ⟨3, 2⟩, ⟨4, 1⟩, ⟨5, 1⟩, ⟨6, 1⟩, ⟨14, 1⟩, ⟨15, 1⟩, ⟨16, 0⟩], by decide⟩,
    by rfl, by decide, ?_⟩
  intro hmin
  have hle := hmin.minimal 5 (by decide)
  exact absurd hle (by decide)

end BEMGenerator

end OpenAsip
