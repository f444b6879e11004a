import Mathlib.Data.Nat.Digits.Defs
import OpenAsip.Memory

namespace OpenAsip
set_option autoImplicit true

/-- The lowest `n` digits of a number in base `2 ^ w`, the lowest first. -/
def words (w : Nat) : Nat → Nat → List Nat
  | 0, _ => []
  | n + 1, value => value % 2 ^ w :: words w n (value / 2 ^ w)

theorem length_words : (words w n value).length = n := by
  induction n generalizing value with
  | zero => rfl
  | succ n ih => rw [words, List.length_cons, ih]

theorem lt_of_mem_words (h : d ∈ words w n value) : d < 2 ^ w := by
  induction n generalizing value with
  | zero => cases h
  | succ n ih =>
    rcases List.mem_cons.1 h with rfl | h
    · exact Nat.mod_lt _ (Nat.two_pow_pos w)
    · exact ih h

theorem words_succ_last : words w (n + 1) value = words w n value ++ [value / 2 ^ (w * n) % 2 ^ w] := by
  induction n generalizing value with
  | zero => rw [words, words, words, Nat.mul_zero, Nat.pow_zero, Nat.div_one, List.nil_append]
  | succ n ih =>
    rw [words, ih, words, List.cons_append, Nat.div_div_eq_div_mul, ← Nat.pow_add, Nat.mul_succ,
      Nat.add_comm w]

theorem ofDigits_words : Nat.ofDigits (2 ^ w) (words w n value) = value % 2 ^ (w * n) := by
  induction n generalizing value with
  | zero => rw [words, Nat.ofDigits_nil, Nat.mul_zero, Nat.pow_zero, Nat.mod_one]
  | succ n ih =>
    rw [words, Nat.ofDigits_cons, ih, Nat.mul_succ, Nat.add_comm (w * n), Nat.pow_add,
      Nat.mod_mul]

namespace Memory

theorem and_mask (c : Settings) (x : Nat) : (x &&& mask c) % 2 ^ 32 = x % 2 ^ c.MAUSize := by
  rw [mask]
  split
  · rename_i h
    rw [Nat.and_two_pow_sub_one_eq_mod, Nat.mod_mod_of_dvd x (Nat.pow_dvd_pow 2 (by decide)), h]
  · rw [Nat.and_two_pow_sub_one_eq_mod]
    have hlt : x % 2 ^ c.MAUSize < 2 ^ 32 :=
      Nat.lt_of_lt_of_le (Nat.mod_lt _ (Nat.two_pow_pos _))
        (Nat.pow_le_pow_right Nat.two_pos c.MAUSize_le)
    exact Nat.mod_eq_of_lt hlt

theorem shiftRight_nat (h : shiftCount < width) :
    shiftRight width value (shiftCount : Nat) = .ok (value / 2 ^ shiftCount) := by
  rw [shiftRight, if_pos ⟨Int.natCast_nonneg _, Int.ofNat_lt.2 h⟩, Int.toNat_natCast,
    Nat.shiftRight_eq_div_pow]

theorem shiftLeft_nat (h : shiftCount < width) (hv : value * 2 ^ shiftCount < 2 ^ width) :
    shiftLeft width value (shiftCount : Nat) = .ok (value * 2 ^ shiftCount) := by
  rw [shiftLeft, if_pos ⟨Int.natCast_nonneg _, Int.ofNat_lt.2 h⟩, Int.toNat_natCast,
    Nat.shiftLeft_eq, Nat.mod_eq_of_lt hv]

/-- `unpackLE` takes the digits from the lowest one on. -/
theorem unpackLoop_up (c : Settings) (value k : Nat) (h : c.MAUSize * (k + n) ≤ 64) :
    unpackLoop c value c.MAUSize n ((c.MAUSize * k : Nat) : Int) =
      .ok (words c.MAUSize n (value / 2 ^ (c.MAUSize * k))) := by
  induction n generalizing k with
  | zero => rfl
  | succ n ih =>
    have hpos := c.MAUSize_pos
    have hlt : c.MAUSize * k < 64 := by
      have hle : c.MAUSize * (k + 1) ≤ c.MAUSize * (k + (n + 1)) :=
        Nat.mul_le_mul_left _ (by omega)
      rw [Nat.mul_succ] at hle
      omega
    have hnext : ((c.MAUSize * k : Nat) : Int) + c.MAUSize = ((c.MAUSize * (k + 1) : Nat) : Int) := by
      rw [Nat.mul_succ, Int.natCast_add]
    have hrest := ih (k + 1) (by rwa [Nat.add_assoc, Nat.add_comm 1])
    rw [unpackLoop, shiftRight_nat hlt, hnext]
    change (unpackLoop _ _ _ _ _ >>= _) = _
    rw [hrest, words, Nat.div_div_eq_div_mul, ← Nat.pow_add, ← Nat.mul_succ]
    change Except.ok (_ :: _) = _
    rw [and_mask]

/-- `unpackBE` takes the digits from the highest one on. -/
theorem unpackLoop_down (c : Settings) (value : Nat) (h : c.MAUSize * n ≤ 64) :
    unpackLoop c value (-c.MAUSize) n (c.MAUSize * ((n : Int) - 1)) =
      .ok (words c.MAUSize n value).reverse := by
  induction n with
  | zero => rfl
  | succ n ih =>
    have hpos := c.MAUSize_pos
    rw [Nat.mul_succ] at h
    have hfirst : (c.MAUSize : Int) * ((n + 1 : Nat) - 1) = ((c.MAUSize * n : Nat) : Int) := by
      rw [Int.natCast_succ, Int.add_sub_cancel, Int.natCast_mul]
    have hnext : ((c.MAUSize * n : Nat) : Int) + -c.MAUSize = c.MAUSize * ((n : Int) - 1) := by
      rw [Int.mul_sub, Int.mul_one, Int.natCast_mul, Int.sub_eq_add_neg]
    rw [hfirst, unpackLoop, shiftRight_nat (by omega), hnext]
    change (unpackLoop _ _ _ _ _ >>= _) = _
    rw [ih (by omega), words_succ_last, List.reverse_append]
    change Except.ok (_ :: _) = _
    rw [and_mask]
    rfl

/-- Appended digits do not overlap with the lower ones. -/
theorem or_mul_two_pow (h : low < 2 ^ k) : low ||| high * 2 ^ k = low + 2 ^ k * high := by
  rw [Nat.or_comm, Nat.mul_comm high, ← Nat.two_pow_add_eq_or_of_lt h, Nat.add_comm]

theorem readLoop_up {c : Settings} {m : SRAM} {f : Nat → Nat} (k : Nat)
    (hf : ∀ a ∈ List.range' address n, readMAU c m a = .ok (f a) ∧ f a < 2 ^ c.MAUSize)
    (h : c.MAUSize * (k + n) ≤ 64) (hdata : data < 2 ^ (c.MAUSize * k)) :
    readLoop c m 64 c.MAUSize n address ((c.MAUSize * k : Nat) : Int) data =
      .ok (data + 2 ^ (c.MAUSize * k) *
        Nat.ofDigits (2 ^ c.MAUSize) ((List.range' address n).map f)) := by
  induction n generalizing address k data with
  | zero => rfl
  | succ n ih =>
    have hpos := c.MAUSize_pos
    have hle : c.MAUSize * k + c.MAUSize ≤ 64 := by
      have hle : c.MAUSize * (k + 1) ≤ c.MAUSize * (k + (n + 1)) :=
        Nat.mul_le_mul_left _ (by omega)
      rw [Nat.mul_succ] at hle
      omega
    obtain ⟨hread, hlt⟩ := hf address (List.mem_range'_1.2 ⟨Nat.le_refl _, by omega⟩)
    have hshift : f address * 2 ^ (c.MAUSize * k) < 2 ^ (c.MAUSize * k + c.MAUSize) := by
      rw [Nat.pow_add, Nat.mul_comm (2 ^ _)]
      exact Nat.mul_lt_mul_of_pos_right hlt (Nat.two_pow_pos _)
    have hnext : ((c.MAUSize * k : Nat) : Int) + c.MAUSize = ((c.MAUSize * (k + 1) : Nat) : Int) := by
      rw [Nat.mul_succ, Int.natCast_add]
    have hdata' : data + 2 ^ (c.MAUSize * k) * f address < 2 ^ (c.MAUSize * (k + 1)) := by
      rw [Nat.mul_succ, Nat.pow_add]
      calc data + 2 ^ (c.MAUSize * k) * f address
          < 2 ^ (c.MAUSize * k) + 2 ^ (c.MAUSize * k) * f address := Nat.add_lt_add_right hdata _
        _ = 2 ^ (c.MAUSize * k) * (f address + 1) := by rw [Nat.mul_succ, Nat.add_comm]
        _ ≤ 2 ^ (c.MAUSize * k) * 2 ^ c.MAUSize := Nat.mul_le_mul_left _ hlt
    rw [readLoop, hread]
    change (shiftLeft _ _ _ >>= _) = _
    rw [shiftLeft_nat (by omega)
      (Nat.lt_of_lt_of_le hshift (Nat.pow_le_pow_right Nat.two_pos hle)), hnext]
    change readLoop _ _ _ _ _ _ _ (data ||| _) = _
    rw [or_mul_two_pow hdata, ih (k + 1) _ (by rwa [Nat.add_assoc, Nat.add_comm 1]) hdata',
      List.range'_succ, List.map_cons, Nat.ofDigits_cons, Nat.mul_succ, Nat.pow_add]
    · congr 1
      ring
    · intro a ha
      apply hf a
      rw [List.range'_succ]
      exact List.mem_cons_of_mem _ ha

theorem readLoop_down {c : Settings} {m : SRAM} {f : Nat → Nat}
    (hf : ∀ a ∈ List.range' address n, readMAU c m a = .ok (f a) ∧ f a < 2 ^ c.MAUSize)
    (h : c.MAUSize * n ≤ 32) (data : Nat) :
    readLoop c m 32 (-c.MAUSize) n address (c.MAUSize * ((n : Int) - 1))
        (data * 2 ^ (c.MAUSize * n)) =
      .ok (data * 2 ^ (c.MAUSize * n) +
        Nat.ofDigits (2 ^ c.MAUSize) ((List.range' address n).map f).reverse) := by
  induction n generalizing address data with
  | zero => rfl
  | succ n ih =>
    have hpos := c.MAUSize_pos
    rw [Nat.mul_succ] at h
    obtain ⟨hread, hlt⟩ := hf address (List.mem_range'_1.2 ⟨Nat.le_refl _, by omega⟩)
    have hshift : f address * 2 ^ (c.MAUSize * n) < 2 ^ (c.MAUSize * n + c.MAUSize) := by
      rw [Nat.pow_add, Nat.mul_comm (2 ^ _)]
      exact Nat.mul_lt_mul_of_pos_right hlt (Nat.two_pow_pos _)
    have hfirst : (c.MAUSize : Int) * ((n + 1 : Nat) - 1) = ((c.MAUSize * n : Nat) : Int) := by
      rw [Int.natCast_succ, Int.add_sub_cancel, Int.natCast_mul]
    have hnext : ((c.MAUSize * n : Nat) : Int) + -c.MAUSize = c.MAUSize * ((n : Int) - 1) := by
      rw [Int.mul_sub, Int.mul_one, Int.natCast_mul, Int.sub_eq_add_neg]
    -- the MAUs read so far are a multiple of the place of the next one
    have hor : data * 2 ^ (c.MAUSize * (n + 1)) ||| f address * 2 ^ (c.MAUSize * n) =
        (data * 2 ^ c.MAUSize + f address) * 2 ^ (c.MAUSize * n) := by
      rw [Nat.or_comm, or_mul_two_pow (by rwa [Nat.mul_succ]), Nat.mul_succ, Nat.pow_add]
      ring
    rw [hfirst, readLoop, hread]
    change (shiftLeft _ _ _ >>= _) = _
    rw [shiftLeft_nat (by omega)
      (Nat.lt_of_lt_of_le hshift (Nat.pow_le_pow_right Nat.two_pos h)), hnext]
    change readLoop _ _ _ _ _ _ _ (_ ||| _) = _
    rw [hor, ih _ (by omega), List.range'_succ, List.map_cons, List.reverse_cons,
      Nat.ofDigits_append, Nat.ofDigits_singleton, List.length_reverse, List.length_map,
      List.length_range', Nat.mul_succ, Nat.pow_add, ← Nat.pow_mul]
    · congr 1
      ring
    · intro a ha
      apply hf a
      rw [List.range'_succ]
      exact List.mem_cons_of_mem _ ha

end Memory

end OpenAsip
