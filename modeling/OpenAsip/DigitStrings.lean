import Mathlib.Algebra.Order.Ring.Nat
import Mathlib.Tactic.Ring
import OpenAsip.TextStreams

namespace OpenAsip
set_option autoImplicit true

/-- What a stream prints for a number with a width and the fill character 0. -/
def hexDigits (n digits : Nat) : List Char := (Nat.toDigits 16 n).leftpad digits '0'

section Numbers
variable {base : Nat} {a b l : List Char}

theorem digit_lt (hbase : 0 < base) (c : Char) : (digit base c).getD 0 < base := by
  rw [digit]
  cases hd : (hexDigit c).filter (· < base) with
  | none => exact hbase
  | some d =>
    have h := (Option.filter_eq_some_iff.1 hd).2
    exact of_decide_eq_true h

theorem foldl_digits (l : List Char) (m : Nat) :
    l.foldl (fun n c => base * n + (digit base c).getD 0) m =
      m * base ^ l.length + numberOf base l := by
  induction l generalizing m with
  | nil => rw [List.foldl_nil, List.length_nil, Nat.pow_zero, Nat.mul_one]; rfl
  | cons c l ih =>
    rw [numberOf, List.foldl_cons, List.foldl_cons, ih, ih, List.length_cons, Nat.pow_succ]
    ring

theorem numberOf_append (a b : List Char) :
    numberOf base (a ++ b) = numberOf base a * base ^ b.length + numberOf base b := by
  rw [numberOf, List.foldl_append, foldl_digits]
  rfl

theorem numberOf_lt (hbase : 0 < base) (l : List Char) : numberOf base l < base ^ l.length := by
  induction l with
  | nil => exact Nat.one_pos
  | cons c l ih =>
    have hdigit := Nat.mul_le_mul_right (base ^ l.length) (Nat.succ_le_of_lt (digit_lt hbase c))
    rw [Nat.succ_mul] at hdigit
    rw [numberOf, List.foldl_cons, foldl_digits, Nat.mul_zero, Nat.zero_add, List.length_cons,
      Nat.pow_succ, Nat.mul_comm (base ^ l.length)]
    omega

theorem numberOf_zeros (n : Nat) : numberOf 16 (List.replicate n '0') = 0 := by
  induction n with
  | zero => rfl
  | succ n ih =>
    rw [List.replicate_succ', numberOf_append, ih, Nat.zero_mul]
    rfl

/-- The bits of a hexadecimal number, of the digits at its end and of those before. -/
theorem testBit_numberOf_append (a b : List Char) (j : Nat) :
    (numberOf 16 (a ++ b)).testBit j =
      if j < 4 * b.length then (numberOf 16 b).testBit j
      else (numberOf 16 a).testBit (j - 4 * b.length) := by
  have hpow : 16 ^ b.length = 2 ^ (4 * b.length) := by rw [Nat.pow_mul]
  have hlt : numberOf 16 b < 16 ^ b.length := numberOf_lt (by decide) b
  rw [hpow] at hlt
  rw [numberOf_append, hpow, Nat.mul_comm, Nat.testBit_two_pow_mul_add _ hlt]

end Numbers

section Printing
variable {n digits : Nat}

theorem digit_digitChar : ∀ d < 16, digit 16 (Nat.digitChar d) = some d := by decide

theorem numberOf_toDigits (n : Nat) :
    numberOf 16 (Nat.toDigits 16 n) = n ∧ ∀ c ∈ Nat.toDigits 16 n, isDigit 16 c = true := by
  induction n using Nat.strong_induction_on with
  | _ n ih =>
    rcases Nat.lt_or_ge n 16 with hlt | hge
    · have hd := digit_digitChar n hlt
      rw [Nat.toDigits_of_lt_base hlt]
      constructor
      · rw [numberOf, List.foldl_cons, List.foldl_nil, hd]
        exact Nat.zero_add n
      · intro c hc
        rw [List.mem_singleton.1 hc, isDigit, hd]
        rfl
    · have hd := digit_digitChar (n % 16) (Nat.mod_lt n (by decide))
      obtain ⟨hvalue, hdigits⟩ := ih (n / 16) (Nat.div_lt_self (by omega) (by decide))
      rw [Nat.toDigits_of_base_le (by decide) hge]
      constructor
      · rw [numberOf_append, hvalue, numberOf, List.foldl_cons, List.foldl_nil, hd]
        change n / 16 * 16 + (16 * 0 + n % 16) = n
        omega
      · intro c hc
        rcases List.mem_append.1 hc with hc | hc
        · exact hdigits c hc
        · rw [List.mem_singleton.1 hc, isDigit, hd]
          rfl

theorem numberOf_hexDigits (n digits : Nat) : numberOf 16 (hexDigits n digits) = n := by
  rw [hexDigits, List.leftpad, numberOf_append, numberOf_zeros, Nat.zero_mul, Nat.zero_add,
    (numberOf_toDigits n).1]

theorem isDigit_hexDigits (n digits : Nat) : ∀ c ∈ hexDigits n digits, isDigit 16 c = true := by
  intro c hc
  rcases List.mem_append.1 hc with hc | hc
  · rw [List.eq_of_mem_replicate hc]
    rfl
  · exact (numberOf_toDigits n).2 c hc

/-- A number that fits in the width has exactly that many digits. -/
theorem length_hexDigits_le (digits : Nat) {k : Nat} (hk : 0 < k) (hn : n < 16 ^ k) :
    (hexDigits n digits).length ≤ max digits k ∧ digits ≤ (hexDigits n digits).length := by
  have hlength := (Nat.length_toDigits_le_iff (b := 16) (by decide) hk).2 hn
  rw [hexDigits, List.length_leftpad]
  omega

theorem hexDigits_ne_nil (n digits : Nat) : hexDigits n digits ≠ [] := by
  intro h
  have hlength := congrArg List.length h
  have hpos := Nat.length_toDigits_pos (b := 16) (n := n)
  rw [hexDigits, List.length_leftpad, List.length_nil] at hlength
  omega

end Printing
end OpenAsip
