import Mathlib.Algebra.Order.Ring.Nat
import Mathlib.Data.List.Induction

namespace OpenAsip
set_option autoImplicit true

/-- The first `k` pieces of length `r`. -/
def rowsOf (r k : Nat) (t : List α) : List (List α) :=
  (List.range k).map fun i => (t.drop (i * r)).take r

/-- Pieces that are written one after the other, each by its number. -/
def numbered (f : Nat → α → List β) : Nat → List α → List β
  | _, [] => []
  | i, a :: rest => f i a ++ numbered f (i + 1) rest

/-- Pieces with a separator between them. -/
def separated (sep : List β) (f : α → List β) : List α → List β
  | [] => []
  | a :: rest => f a ++ rest.flatMap fun b => sep ++ f b

theorem length_rowsOf (r k : Nat) (t : List α) : (rowsOf r k t).length = k := by
  rw [rowsOf, List.length_map, List.length_range]

theorem rowsOf_succ (r k : Nat) (t : List α) :
    rowsOf r (k + 1) t = rowsOf r k t ++ [(t.drop (k * r)).take r] := by
  rw [rowsOf, List.range_succ, List.map_append]
  rfl

theorem flatten_rowsOf_take (r k : Nat) (t : List α) :
    (rowsOf r k t).flatten = t.take (k * r) := by
  induction k with
  | zero => simp [rowsOf]
  | succ k ih =>
    rw [rowsOf_succ, List.flatten_append, ih, Nat.succ_mul, List.take_add]
    simp

theorem flatten_rowsOf {t : List α} (h : t.length = k * r) : (rowsOf r k t).flatten = t := by
  rw [flatten_rowsOf_take, ← h, List.take_length]

theorem length_of_mem_rowsOf {t : List α} (h : k * r ≤ t.length) (hrow : row ∈ rowsOf r k t) :
    row.length = r := by
  obtain ⟨i, hi, rfl⟩ := List.mem_map.1 hrow
  have hle : (i + 1) * r ≤ k * r := Nat.mul_le_mul_right r (List.mem_range.1 hi)
  rw [Nat.succ_mul] at hle
  rw [List.length_take, List.length_drop]
  omega

/-- The pieces of two lists, the first of which is made of whole pieces. -/
theorem rowsOf_append {s t : List α} (h : s.length = k * r) (k' : Nat) :
    rowsOf r (k + k') (s ++ t) = rowsOf r k s ++ rowsOf r k' t := by
  rw [rowsOf, List.range_add, List.map_append, List.map_map]
  congr 1
  · apply List.map_congr_left
    intro i hi
    have hle : (i + 1) * r ≤ k * r := Nat.mul_le_mul_right r (List.mem_range.1 hi)
    rw [Nat.succ_mul] at hle
    rw [List.drop_append_of_le_length (by omega),
      List.take_append_of_le_length (by rw [List.length_drop]; omega)]
  · apply List.map_congr_left
    intro i _
    rw [Function.comp, Nat.add_mul, ← h, List.drop_append,
      List.drop_eq_nil_of_le (Nat.le_add_right _ _), List.nil_append, Nat.add_sub_cancel_left]

theorem rowsOf_take {t : List α} (h : k * r ≤ t.length) :
    rowsOf r k (t.take (k * r)) = rowsOf r k t := by
  have hlength : (t.take (k * r)).length = k * r := by
    rw [List.length_take, Nat.min_eq_left h]
  have hsplit := rowsOf_append hlength 0 (t := t.drop (k * r))
  rw [List.take_append_drop] at hsplit
  exact (hsplit.trans (List.append_nil _)).symm

theorem rowsOf_one {t : List α} (h : t.length = r) : rowsOf r 1 t = [t] := by
  rw [rowsOf_succ, Nat.zero_mul, List.drop_zero, ← h, List.take_length]
  rfl

theorem numbered_append (f : Nat → α → List β) (i : Nat) (l l' : List α) :
    numbered f i (l ++ l') = numbered f i l ++ numbered f (i + l.length) l' := by
  induction l generalizing i with
  | nil => rfl
  | cons a l ih =>
    rw [List.cons_append, numbered, ih, numbered, List.append_assoc, List.length_cons,
      Nat.add_right_comm, Nat.add_assoc i]

theorem numbered_eq_flatMap (f : α → List β) (i : Nat) (l : List α) :
    numbered (fun _ => f) i l = l.flatMap f := by
  induction l generalizing i with
  | nil => rfl
  | cons a l ih => rw [numbered, ih, List.flatMap_cons]

theorem separated_concat (sep : List β) (f : α → List β) (l : List α) (a : α) :
    separated sep f (l ++ [a]) = l.flatMap (fun b => f b ++ sep) ++ f a := by
  cases l with
  | nil => simp [separated]
  | cons b l =>
    rw [List.cons_append, separated]
    induction l generalizing b with
    | nil => simp
    | cons c l ih =>
      have h := ih c
      simp only [List.cons_append, List.flatMap_cons, List.append_assoc] at h ⊢
      rw [h]

/-- Pieces whose lengths are known can be told apart. -/
theorem numbered_injective {f : Nat → α → List β} {P : α → Prop}
    (hlength : ∀ i a b, P a → P b → (f i a).length = (f i b).length)
    (hne : ∀ i a, P a → f i a ≠ [])
    (hinj : ∀ i a b, P a → P b → f i a = f i b → a = b) {l l' : List α}
    (hl : ∀ a ∈ l, P a) (hl' : ∀ a ∈ l', P a) (h : numbered f i l = numbered f i l') :
    l = l' := by
  induction l generalizing i l' with
  | nil =>
    cases l' with
    | nil => rfl
    | cons b l' =>
      rw [numbered, numbered, eq_comm, List.append_eq_nil_iff] at h
      exact (hne i b (hl' b List.mem_cons_self) h.1).elim
  | cons a l ih =>
    have ha := hl a List.mem_cons_self
    cases l' with
    | nil =>
      rw [numbered, numbered, List.append_eq_nil_iff] at h
      exact (hne i a ha h.1).elim
    | cons b l' =>
      have hb := hl' b List.mem_cons_self
      obtain ⟨hhead, htail⟩ := List.append_inj h (hlength i a b ha hb)
      rw [hinj i a b ha hb hhead, ih (fun c hc => hl c (List.mem_cons_of_mem a hc))
        (fun c hc => hl' c (List.mem_cons_of_mem b hc)) htail]

theorem separated_injective {sep : List β} {f : α → List β} {P : α → Prop}
    (hlength : ∀ a b, P a → P b → (f a).length = (f b).length) (hne : ∀ a, P a → f a ≠ [])
    (hinj : ∀ a b, P a → P b → f a = f b → a = b) {l l' : List α}
    (hl : ∀ a ∈ l, P a) (hl' : ∀ a ∈ l', P a) (h : separated sep f l = separated sep f l') :
    l = l' := by
  cases l with
  | nil =>
    cases l' with
    | nil => rfl
    | cons b l' =>
      rw [separated, separated, eq_comm, List.append_eq_nil_iff] at h
      exact (hne b (hl' b List.mem_cons_self) h.1).elim
  | cons a l =>
    have ha := hl a List.mem_cons_self
    cases l' with
    | nil =>
      rw [separated, separated, List.append_eq_nil_iff] at h
      exact (hne a ha h.1).elim
    | cons b l' =>
      have hb := hl' b List.mem_cons_self
      obtain ⟨hhead, htail⟩ := List.append_inj h (hlength a b ha hb)
      rw [hinj a b ha hb hhead]
      rw [← numbered_eq_flatMap _ 0, ← numbered_eq_flatMap _ 0] at htail
      congr 1
      apply numbered_injective (P := P) _ _ _ (fun c hc => hl c (List.mem_cons_of_mem a hc))
        (fun c hc => hl' c (List.mem_cons_of_mem b hc)) htail
      · intro _ c d hc hd
        rw [List.length_append, List.length_append, hlength c d hc hd]
      · intro _ c hc hnil
        exact hne c hc (List.append_eq_nil_iff.1 hnil).2
      · intro _ c d hc hd heq
        exact hinj c d hc hd (List.append_cancel_left heq)

/-- The number with the given binary digits, the highest one first. -/
def binaryValue (l : List Bool) : Nat := l.foldl (fun x b => 2 * x + b.toNat) 0

theorem binaryValue_concat (l : List Bool) (b : Bool) :
    binaryValue (l ++ [b]) = 2 * binaryValue l + b.toNat := by
  rw [binaryValue, List.foldl_append]
  rfl

theorem binaryValue_replicate_append (k : Nat) (l : List Bool) :
    binaryValue (List.replicate k false ++ l) = binaryValue l := by
  induction k with
  | zero => rfl
  | succ k ih =>
    rw [← ih]
    rfl

theorem binaryValue_replicate (k : Nat) : binaryValue (List.replicate k false) = 0 := by
  rw [← List.append_nil (List.replicate k false), binaryValue_replicate_append]
  rfl

theorem binaryValue_lt (l : List Bool) : binaryValue l < 2 ^ l.length := by
  induction l using List.reverseRecOn with
  | nil => exact Nat.one_pos
  | append_singleton l b ih =>
    have hb := Bool.toNat_le b
    rw [binaryValue_concat, List.length_append, List.length_singleton, Nat.pow_succ]
    omega

theorem binaryValue_injective {l l' : List Bool} (hlength : l.length = l'.length)
    (h : binaryValue l = binaryValue l') : l = l' := by
  induction l using List.reverseRecOn generalizing l' with
  | nil => exact (List.eq_nil_of_length_eq_zero hlength.symm).symm
  | append_singleton l b ih =>
    induction l' using List.reverseRecOn with
    | nil => simp at hlength
    | append_singleton l' b' _ =>
      rw [binaryValue_concat, binaryValue_concat] at h
      have hb := Bool.toNat_le b
      have hb' := Bool.toNat_le b'
      have heq : b = b' := by
        cases b with
        | false =>
          cases b' with
          | false => rfl
          | true => simp only [Bool.toNat_false, Bool.toNat_true] at h; omega
        | true =>
          cases b' with
          | false => simp only [Bool.toNat_false, Bool.toNat_true] at h; omega
          | true => rfl
      subst heq
      rw [ih (by simpa using hlength) (by omega)]

/-- Bits in groups of a size, with zeros before them that fill the groups. -/
def grouped (size count : Nat) (row : List Bool) : List Nat :=
  (rowsOf size count (List.replicate (count * size - row.length) false ++ row)).map binaryValue

theorem length_grouped (size count : Nat) (row : List Bool) :
    (grouped size count row).length = count := by
  rw [grouped, List.length_map, length_rowsOf]

theorem rowsOf_replicate (size count : Nat) (a : α) :
    rowsOf size count (List.replicate (count * size) a) =
      List.replicate count (List.replicate size a) := by
  rw [List.eq_replicate_iff]
  refine ⟨length_rowsOf .., ?_⟩
  intro row hrow
  rw [List.eq_replicate_iff]
  constructor
  · exact length_of_mem_rowsOf (Nat.le_of_eq List.length_replicate.symm) hrow
  · intro b hb
    obtain ⟨i, _, rfl⟩ := List.mem_map.1 hrow
    exact List.eq_of_mem_replicate (List.mem_of_mem_drop (List.mem_of_mem_take hb))

theorem map_binaryValue_rowsOf (size count : Nat) :
    (rowsOf size count (List.replicate (count * size) false)).map binaryValue =
      List.replicate count 0 := by
  rw [rowsOf_replicate, List.map_replicate, binaryValue_replicate]

theorem grouped_replicate (h : length ≤ count * size) :
    grouped size count (List.replicate length false) = List.replicate count 0 := by
  rw [grouped, List.length_replicate, List.replicate_append_replicate, Nat.sub_add_cancel h,
    map_binaryValue_rowsOf]

/-- Groups that are filled up are zero. -/
theorem grouped_add {row : List Bool} (h : row.length ≤ count * size) (k : Nat) :
    grouped size (k + count) row = List.replicate k 0 ++ grouped size count row := by
  have hzeros : (k + count) * size - row.length = k * size + (count * size - row.length) := by
    rw [Nat.add_mul]
    omega
  rw [grouped, hzeros, ← List.replicate_append_replicate, List.append_assoc,
    rowsOf_append List.length_replicate, List.map_append, map_binaryValue_rowsOf]
  rfl

/-- Whole groups are not filled up, and of the others only the first one. -/
theorem grouped_whole {row : List Bool} (h : row.length = count * size) :
    grouped size count row = (rowsOf size count row).map binaryValue := by
  rw [grouped, h, Nat.sub_self]
  rfl

theorem grouped_partial {row : List Bool} (h : row.length = first + count * size)
    (hle : first ≤ size) :
    grouped size (count + 1) row =
      binaryValue (row.take first) :: grouped size count (row.drop first) := by
  have hdrop : (row.drop first).length = count * size := by
    rw [List.length_drop]
    omega
  have hpad : (count + 1) * size - row.length = size - first := by
    rw [Nat.succ_mul]
    omega
  have hhead : (List.replicate (size - first) false ++ row.take first).length = 1 * size := by
    rw [List.length_append, List.length_replicate, List.length_take]
    omega
  have hsplit : List.replicate (size - first) false ++ row =
      (List.replicate (size - first) false ++ row.take first) ++ row.drop first := by
    rw [List.append_assoc, List.take_append_drop]
  rw [grouped_whole hdrop, grouped, hpad, hsplit, Nat.add_comm count, rowsOf_append hhead,
    rowsOf_one (hhead.trans (Nat.one_mul size)), List.map_append, List.map_singleton,
    binaryValue_replicate_append]
  rfl

/-- The groups determine the bits. -/
theorem grouped_injective {row row' : List Bool} (hlength : row.length = row'.length)
    (hle : row.length ≤ count * size) (h : grouped size count row = grouped size count row') :
    row = row' := by
  have hfull : ∀ l : List Bool, l.length = row.length →
      (List.replicate (count * size - l.length) false ++ l).length = count * size := by
    intro l hl
    rw [List.length_append, List.length_replicate]
    omega
  have hrows : ∀ l : List Bool, l.length = row.length → ∀ piece ∈ rowsOf size count
      (List.replicate (count * size - l.length) false ++ l), piece.length = size := by
    intro l hl piece hpiece
    exact length_of_mem_rowsOf (Nat.le_of_eq (hfull l hl).symm) hpiece
  have hpieces : rowsOf size count (List.replicate (count * size - row.length) false ++ row) =
      rowsOf size count (List.replicate (count * size - row'.length) false ++ row') := by
    rw [grouped, grouped] at h
    apply List.ext_getElem
    · rw [length_rowsOf, length_rowsOf]
    · intro i hi hi'
      apply binaryValue_injective
      · rw [hrows row rfl _ (List.getElem_mem hi), hrows row' hlength.symm _ (List.getElem_mem hi')]
      · have hget := congrArg (fun l => l[i]?) h
        simp only [List.getElem?_map, List.getElem?_eq_getElem hi, List.getElem?_eq_getElem hi',
          Option.map_some, Option.some.injEq] at hget
        exact hget
  have hflat := congrArg List.flatten hpieces
  rw [flatten_rowsOf (hfull row rfl), flatten_rowsOf (hfull row' hlength.symm), hlength] at hflat
  exact List.append_cancel_left hflat

end OpenAsip
