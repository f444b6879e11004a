import Mathlib.Algebra.Ring.Nat
import Mathlib.Data.Nat.Size
import Mathlib.Logic.Function.Basic
import OpenAsip.Outcomes

namespace OpenAsip
set_option autoImplicit true

/-- `PagedArray`. A page is allocated when one of its elements is written. -/
structure PagedArray (α : Type u) (pageSize : Nat) where
  pageTable : List (Option (Fin pageSize → α))

/-- The value of a `double` that an unsigned integer is converted to: 53 bits are kept, and ties go
to the even neighbour. -/
def toDouble (n : Nat) : Nat :=
  let dropped := n.size - 53
  let kept := n / 2 ^ dropped
  let rest := n % 2 ^ dropped
  if 2 ^ dropped < 2 * rest ∨ (2 * rest = 2 ^ dropped ∧ kept % 2 = 1) then
    (kept + 1) * 2 ^ dropped
  else kept * 2 ^ dropped

theorem toDouble_of_lt (h : n < 2 ^ 53) : toDouble n = n := by
  have hsize : n.size - 53 = 0 := Nat.sub_eq_zero_of_le (Nat.size_le.2 h)
  simp only [toDouble, hsize]
  rw [if_neg (by omega)]
  omega

namespace PagedArray

/-- The page table of an array of `size` elements. -/
def pageTableSize (pageSize size : Nat) : Nat := (toDouble size + pageSize - 1) / pageSize

def new (size : Nat) : PagedArray α pageSize :=
  ⟨List.replicate (pageTableSize pageSize size) none⟩

/-- The number of indices that the page table covers. -/
def capacity (a : PagedArray α pageSize) : Nat := a.pageTable.length * pageSize

section Access
variable {pageSize : Nat} [NeZero pageSize]

/-- `readData`, which allocates nothing. The page table is accessed without a check. -/
def readData (defaultValue : α) (a : PagedArray α pageSize) (index : Nat) : Outcome α :=
  match a.pageTable[index / pageSize]? with
  | none => .error .undefined
  | some none => .ok defaultValue
  | some (some page) => .ok (page (Fin.ofNat pageSize index))

/-- `writeData`. A new page is filled with zeros, whatever the default value. -/
def writeData [Zero α] (a : PagedArray α pageSize) (index : Nat) (data : α) :
    Outcome (PagedArray α pageSize) :=
  match a.pageTable[index / pageSize]? with
  | none => .error .undefined
  | some entry =>
    let page := entry.getD fun _ => 0
    .ok ⟨a.pageTable.set (index / pageSize)
      (some (Function.update page (Fin.ofNat pageSize index) data))⟩

theorem div_lt_of_lt_capacity {a : PagedArray α pageSize} (h : index < a.capacity) :
    index / pageSize < a.pageTable.length :=
  (Nat.div_lt_iff_lt_mul (Nat.pos_of_neZero pageSize)).2 h

theorem readData_new {size : Nat} (h : index < (new size : PagedArray α pageSize).capacity) :
    readData defaultValue (new size : PagedArray α pageSize) index = .ok defaultValue := by
  have hlt := div_lt_of_lt_capacity h
  rw [new, List.length_replicate] at hlt
  rw [readData, new, List.getElem?_replicate, if_pos hlt]

/-- The same page and the same place in it are the same index. -/
theorem index_eq {i j : Nat} (hdiv : i / pageSize = j / pageSize)
    (hmod : Fin.ofNat pageSize i = Fin.ofNat pageSize j) : i = j := by
  have hmod' : i % pageSize = j % pageSize := congrArg Fin.val hmod
  rw [← Nat.div_add_mod i pageSize, ← Nat.div_add_mod j pageSize, hdiv, hmod']

/-- Only the written element changes. -/
theorem writeData_spec [Zero α] (a : PagedArray α pageSize) (data : α) (h : index < a.capacity) :
    ∃ a', a.writeData index data = .ok a' ∧ a'.capacity = a.capacity ∧
      ∀ i, i < a.capacity →
        a'.readData 0 i = if i = index then .ok data else a.readData 0 i := by
  have hlt := div_lt_of_lt_capacity h
  rw [writeData, List.getElem?_eq_getElem hlt]
  refine ⟨_, rfl, ?_, ?_⟩
  · rw [capacity, List.length_set, capacity]
  intro i hi
  rw [readData, readData]
  dsimp only
  by_cases hpage : i / pageSize = index / pageSize
  · rw [hpage, List.getElem?_set_self hlt, List.getElem?_eq_getElem hlt]
    dsimp only
    by_cases hplace : Fin.ofNat pageSize i = Fin.ofNat pageSize index
    · rw [hplace, Function.update_self, if_pos (index_eq hpage hplace)]
    · have hne : i ≠ index := by
        intro he
        exact hplace (he ▸ rfl)
      rw [Function.update_of_ne hplace, if_neg hne]
      cases a.pageTable[index / pageSize] with
      | none => rfl
      | some page => rfl
  · have hne : i ≠ index := by
      intro he
      exact hpage (he ▸ rfl)
    rw [List.getElem?_set_ne (Ne.symm hpage), if_neg hne]

end Access

end PagedArray

end OpenAsip
