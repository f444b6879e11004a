import Mathlib.Data.List.TakeDrop

namespace OpenAsip
set_option autoImplicit true

/-! Lists that are made of blocks of one length. -/

namespace Blocks

/-- The elements from `a` on replaced by others. -/
def splice (a : Nat) (b l : List α) : List α := l.take a ++ b ++ l.drop (a + b.length)

/-- The block `k` of a list whose blocks have `s` elements. -/
def block (s : Nat) (l : List α) (k : Nat) : List α := (l.drop (k * s)).take s

theorem splice_nil (a : Nat) (l : List α) : splice a [] l = l := by
  rw [splice, List.append_nil, List.length_nil, Nat.add_zero, List.take_append_drop]

theorem length_splice (h : a + b.length ≤ l.length) : (splice a b l).length = l.length := by
  rw [splice, List.length_append, List.length_append, List.length_take, List.length_drop]
  omega

/-- A list can be written from its last element on. -/
theorem splice_set (h : a + b.length < l.length) :
    splice a b (l.set (a + b.length) x) = splice a (b ++ [x]) l := by
  have htake : (l.set (a + b.length) x).take a = l.take a := by
    rw [List.take_set_of_le (Nat.le_add_right a _)]
  have hdrop : (l.set (a + b.length) x).drop (a + b.length) = x :: l.drop (a + b.length + 1) := by
    rw [List.drop_set, if_neg (Nat.lt_irrefl _), Nat.sub_self, List.drop_eq_getElem_cons h,
      List.set_cons_zero]
  rw [splice, splice, htake, hdrop, List.length_append, List.length_singleton, Nat.add_assoc,
    List.append_assoc, List.append_assoc, List.append_assoc, List.singleton_append]

theorem getElem?_splice_lt (h : p < a) (ha : a ≤ l.length) : (splice a b l)[p]? = l[p]? := by
  have hlen : (l.take a).length = a := by
    rw [List.length_take]
    omega
  rw [splice, List.append_assoc, List.getElem?_append_left (by omega), List.getElem?_take_of_lt h]

theorem getElem?_splice_ge (h : a + b.length ≤ p) (ha : a ≤ l.length) :
    (splice a b l)[p]? = l[p]? := by
  have hlen : (l.take a ++ b).length = a + b.length := by
    rw [List.length_append, List.length_take]
    omega
  rw [splice, List.getElem?_append_right (by omega), hlen, List.getElem?_drop]
  congr 1
  omega

theorem getElem?_block (s k i : Nat) (l : List α) :
    (block s l k)[i]? = if i < s then l[k * s + i]? else none := by
  rw [block, List.getElem?_take]
  split
  · exact List.getElem?_drop
  · rfl

theorem length_block (h : (k + 1) * s ≤ l.length) : (block s l k).length = s := by
  rw [Nat.succ_mul] at h
  rw [block, List.length_take, List.length_drop]
  omega

/-- The block that is appended. -/
theorem block_append (hl : l.length = k * s) (hb : b.length = s) : block s (l ++ b) k = b := by
  rw [block, ← hl, List.drop_left, ← hb, List.take_length]

theorem block_append_lt (h : (k + 1) * s ≤ l.length) (b : List α) :
    block s (l ++ b) k = block s l k := by
  rw [Nat.succ_mul] at h
  apply List.ext_getElem?
  intro i
  rw [getElem?_block, getElem?_block]
  split
  · rw [List.getElem?_append_left (by omega)]
  · rfl

theorem block_splice_self (h : k * s ≤ l.length) (hb : b.length = s) :
    block s (splice (k * s) b l) k = b := by
  have hlen : (l.take (k * s)).length = k * s := by
    rw [List.length_take]
    omega
  rw [block, splice, List.append_assoc, List.drop_append_of_le_length (by omega),
    List.drop_of_length_le (by omega), List.nil_append, ← hb, List.take_left]

theorem block_splice_ne (h : k * s ≤ l.length) (hb : b.length = s) (hj : j ≠ k) :
    block s (splice (k * s) b l) j = block s l j := by
  apply List.ext_getElem?
  intro i
  rw [getElem?_block, getElem?_block]
  split
  · rename_i hi
    rcases Nat.lt_or_gt_of_ne hj with hlt | hgt
    · have hle : (j + 1) * s ≤ k * s := Nat.mul_le_mul_right s hlt
      rw [Nat.succ_mul] at hle
      exact getElem?_splice_lt (by omega) h
    · have hle : (k + 1) * s ≤ j * s := Nat.mul_le_mul_right s hgt
      rw [Nat.succ_mul] at hle
      exact getElem?_splice_ge (by omega) h
  · rfl

end Blocks

end OpenAsip
