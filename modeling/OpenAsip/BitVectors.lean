import OpenAsip.MathTools

namespace OpenAsip
set_option autoImplicit true

namespace BitVector
open MathTools

/-- `BitVector::pushBack` with an integer and its size. -/
def pushBack (bits : List Bool) (integer : Nat) : Nat → Outcome (List Bool)
  | 0 => .ok bits
  | i + 1 => do
    let b ← bit integer i
    pushBack (bits ++ [b]) integer i

theorem pushBack_eq (hn : n < 2 ^ 32) (hs : size ≤ 32) :
    pushBack bits n size = .ok (bits ++ toBits size n) := by
  induction size generalizing bits with
  | zero => rw [pushBack, toBits, List.append_nil]
  | succ i ih =>
    rw [pushBack, bit_eq hn hs]
    change pushBack (bits ++ [n.testBit i]) n i = _
    rw [ih (Nat.le_of_succ_le hs), toBits, List.append_assoc, List.singleton_append]

theorem pushBack_undefined (hs : 32 < size) : pushBack bits n size = .error .undefined := by
  cases size with
  | zero => exact (Nat.not_lt_zero _ hs).elim
  | succ i =>
    rw [pushBack, bit, if_neg (by omega)]
    rfl

theorem pushBack_ok (hn : n < 2 ^ 32) (h : pushBack bits n size = .ok bits') :
    size ≤ 32 ∧ bits' = bits ++ toBits size n := by
  by_cases hs : size ≤ 32
  · rw [pushBack_eq hn hs] at h
    cases h
    exact ⟨hs, rfl⟩
  · rw [pushBack_undefined (Nat.lt_of_not_le hs)] at h
    cases h

end BitVector

end OpenAsip
