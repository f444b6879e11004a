import Mathlib.Data.List.Sort

namespace OpenAsip
set_option autoImplicit true

/-- A `std::multiset` seen through its iterators: its elements in the order of the comparison. -/
structure StdMultiset {α : Type u} (r : α → α → Prop) where
  elems : List α
  sorted : elems.Pairwise r

namespace StdMultiset

variable {α : Type u} {r : α → α → Prop}

def empty : StdMultiset r := ⟨[], .nil⟩

def insert [DecidableRel r] [Std.Total r] [IsTrans α r] (m : StdMultiset r) (a : α) :
    StdMultiset r :=
  ⟨m.elems.orderedInsert r a, m.sorted.orderedInsert _ _⟩

def size (m : StdMultiset r) : Nat := m.elems.length

@[simp] theorem empty_elems : (empty : StdMultiset r).elems = [] := rfl

/-- A value that comes after all elements is inserted at the end. -/
theorem insert_elems_last [DecidableRel r] [Std.Total r] [IsTrans α r] (m : StdMultiset r) (a : α)
    (h : ∀ b ∈ m.elems, ¬ r a b) : (m.insert a).elems = m.elems ++ [a] := by
  obtain ⟨l, hl⟩ := m
  change l.orderedInsert r a = l ++ [a]
  replace h : ∀ b ∈ l, ¬ r a b := h
  clear hl
  induction l with
  | nil => rfl
  | cons b l ih =>
    rw [List.orderedInsert_of_not_le _ _ (h b List.mem_cons_self),
      ih fun c hc => h c (List.mem_cons_of_mem b hc), List.cons_append]

end StdMultiset

/-- An element is found by its key when the keys are distinct. -/
theorem find?_of_mem [DecidableEq κ] {l : List α} {key : α → κ} (hnodup : (l.map key).Nodup)
    (ha : a ∈ l) :
    (l.find? fun b => key b = key a) = some a := by
  induction l with
  | nil => cases ha
  | cons b l ih =>
    rw [List.map_cons, List.nodup_cons] at hnodup
    cases ha with
    | head =>
      rw [List.find?_cons_of_pos]
      exact decide_eq_true rfl
    | tail _ ha =>
      rw [List.find?_cons_of_neg, ih hnodup.2 ha]
      rw [decide_eq_true_iff]
      intro heq
      exact hnodup.1 (heq ▸ List.mem_map_of_mem ha)

theorem mem_of_find?_key [DecidableEq κ] {l : List α} {key : α → κ}
    (h : l.find? (fun b => key b = k) = some a) : a ∈ l ∧ key a = k := by
  have hkey := List.find?_some h
  exact ⟨List.mem_of_find?_eq_some h, of_decide_eq_true hkey⟩

theorem find?_key_eq_some [DecidableEq κ] {l : List α} {key : α → κ}
    (hnodup : (l.map key).Nodup) :
    l.find? (fun b => key b = k) = some a ↔ a ∈ l ∧ key a = k := by
  constructor
  · exact mem_of_find?_key
  · rintro ⟨ha, rfl⟩
    exact find?_of_mem hnodup ha

/-- A `std::map` as a list of its pairs. -/
abbrev StdMap (κ : Type u) (υ : Type v) := List (κ × υ)

namespace StdMap

/-- `std::map::insert`, which keeps the value of a key that is already there. -/
def insert [BEq κ] (m : StdMap κ υ) (key : κ) (value : υ) : StdMap κ υ :=
  if (m.lookup key).isSome then m else (key, value) :: m

/-- An assignment through `operator[]`. -/
def store [BEq κ] (m : StdMap κ υ) (key : κ) (value : υ) : StdMap κ υ :=
  (key, value) :: m.filter fun x => x.1 != key

def eraseKey [BEq κ] (m : StdMap κ υ) (key : κ) : StdMap κ υ := m.filter fun x => x.1 != key

theorem lookup_insert_self [BEq κ] [LawfulBEq κ] {m : StdMap κ υ} (h : m.lookup key = none) :
    (m.insert key value).lookup key = some value := by
  rw [insert, h]
  exact List.lookup_cons_self

theorem lookup_insert_ne [BEq κ] [LawfulBEq κ] {m : StdMap κ υ} (h : key' ≠ key) :
    (m.insert key value).lookup key' = m.lookup key' := by
  rw [insert]
  split
  · rfl
  · rw [List.lookup_cons, beq_false_of_ne h]

theorem lookup_eraseKey_ne [BEq κ] [LawfulBEq κ] (m : StdMap κ υ) (h : key' ≠ key) :
    (m.eraseKey key).lookup key' = m.lookup key' := by
  rw [eraseKey]
  induction m with
  | nil => rfl
  | cons x m ih =>
    obtain ⟨k, v⟩ := x
    cases hk : k == key with
    | true =>
      have hkey : key' ≠ k := (beq_iff_eq.1 hk) ▸ h
      rw [List.filter_cons_of_neg (by simp [bne, hk]), ih, List.lookup_cons,
        beq_false_of_ne hkey]
    | false =>
      rw [List.filter_cons_of_pos (by simp [bne, hk]), List.lookup_cons, List.lookup_cons, ih]

theorem lookup_store_self [BEq κ] [LawfulBEq κ] (m : StdMap κ υ) :
    (m.store key value).lookup key = some value :=
  List.lookup_cons_self

theorem lookup_store_ne [BEq κ] [LawfulBEq κ] (m : StdMap κ υ) (h : key' ≠ key) :
    (m.store key value).lookup key' = m.lookup key' := by
  rw [store, List.lookup_cons, beq_false_of_ne h]
  exact lookup_eraseKey_ne m h

theorem lookup_store [DecidableEq κ] (m : StdMap κ υ) :
    (m.store key value).lookup key' = if key' = key then some value else m.lookup key' := by
  split
  · next h => rw [h, lookup_store_self]
  · next h => exact lookup_store_ne m h

theorem lookup_eraseKey_self [BEq κ] [LawfulBEq κ] (m : StdMap κ υ) :
    (m.eraseKey key).lookup key = none := by
  rw [eraseKey]
  induction m with
  | nil => rfl
  | cons x m ih =>
    obtain ⟨k, v⟩ := x
    cases hk : k == key with
    | true => rw [List.filter_cons_of_neg (by simp [bne, hk]), ih]
    | false =>
      have hkey : key ≠ k := fun h => ne_of_beq_false hk h.symm
      rw [List.filter_cons_of_pos (by simp [bne, hk]), List.lookup_cons, beq_false_of_ne hkey, ih]

end StdMap

end OpenAsip
