import Mathlib.Algebra.Order.Ring.Nat
import OpenAsip.ImageWriters

namespace OpenAsip
set_option autoImplicit true

namespace PIG

def digits (row : List Bool) : Text := row.map bitChar

def quoted (row : List Bool) : Text := ['"'] ++ digits row ++ ['"']

/-- The files of the formats with the given rows. -/
def asciiLayout (rows : List (List Bool)) : Text := separated ['\n'] digits rows

def arrayLayout (rows : List (List Bool)) : Text := separated [',', '\n'] quoted rows

def coeLayout (rows : List (List Bool)) : Text :=
  coeHeader ++ (separated [',', '\n'] digits rows ++ [';', '\n'])

def mifLayout (rowLength : Nat) (rows : List (List Bool)) : Text :=
  mifHeader rowLength rows.length ++
    (numbered (fun address row => mifLine address (digits row)) 0 rows ++
      (Mif.contentEnd ++ ['\n']))

def hexRow (rowLength : Nat) (row : List Bool) : Text :=
  (grouped 4 ((rowLength + 3) / 4) row).map Nat.digitChar

def hexLayout (rowLength : Nat) (rows : List (List Bool)) : Text :=
  rows.flatMap fun row => hexRow rowLength row ++ ['\n']

def rowBytes (rowLength : Nat) : Nat := zeroBytes rowLength + (rowLength + 7) / 8

def bin2nLayout (rowLength : Nat) (rows : List (List Bool)) : List Nat :=
  rows.flatMap fun row => (grouped 8 (rowBytes rowLength) row).reverse

/-- The bits in rows of one length, the last of which is filled up with zeros. A file of no bits may
have a row of zeros. -/
structure IsImage (bits : List Bool) (rowLength : Nat) (rows : List (List Bool)) : Prop where
  length_eq : ∀ row ∈ rows, row.length = rowLength
  flatten_eq : ∃ zeros, rows.flatten = bits ++ List.replicate zeros false ∧
    (zeros < rowLength ∨ bits = [] ∧ zeros = rowLength)

/-- The call returns and has written the file of rows that hold the bits, which are the only rows of
that file. -/
def Writes (layout : List (List Bool) → List α) (written : Outcome (List α)) (bits : List Bool)
    (rowLength : Nat) : Prop :=
  ∃ rows, IsImage bits rowLength rows ∧ written = .ok (layout rows) ∧
    ∀ rows', (∀ row ∈ rows', row.length = rowLength) → layout rows' = layout rows → rows' = rows

structure AllWrite (bits : List Bool) (rowLength : Nat) : Prop where
  ascii : Writes asciiLayout (asciiImage bits rowLength) bits rowLength
  array : Writes arrayLayout (arrayImage bits rowLength) bits rowLength
  mif : Writes (mifLayout rowLength) (mifImage bits rowLength) bits rowLength
  coe : Writes coeLayout (coeImage bits rowLength) bits rowLength
  hex : Writes (hexLayout rowLength) (hexImage bits rowLength) bits rowLength
  bin2n : Writes (bin2nLayout rowLength) (bin2nImage bits rowLength) bits rowLength

/-- The rows are whole, the number of bits is an `unsigned int` and that of the rows an `int`, which
the quotient in single precision is exactly. A row of hexadecimal digits has less than `2 ^ 31`
bits, and a file of no bits has as many digits as a row. -/
structure WholeRows (size rowLength : Nat) : Prop where
  dvd : rowLength ∣ size
  size_lt : size < 2 ^ 32
  rows_lt : size / rowLength < 2 ^ 31
  mif : size ≠ 0 → mifWordCount size rowLength = size / rowLength
  hex : size ≠ 0 → 4 * ((rowLength + 3) / 4) < 2 ^ 31
  empty : size = 0 → max 1 (rowLength / 4) = (rowLength + 3) / 4

theorem digits_injective : Function.Injective digits := by
  apply List.map_injective_iff.2
  intro a b h
  cases a with
  | false =>
    cases b with
    | false => rfl
    | true => cases h
  | true =>
    cases b with
    | false => cases h
    | true => rfl

theorem length_digits (row : List Bool) : (digits row).length = row.length := List.length_map ..

theorem digits_ne_nil (hpos : 0 < rowLength) (h : row.length = rowLength) : digits row ≠ [] := by
  intro hnil
  have hlength := length_digits row
  rw [hnil, List.length_nil] at hlength
  omega

theorem asciiLayout_injective (hpos : 0 < rowLength) {rows rows' : List (List Bool)}
    (h : ∀ row ∈ rows, row.length = rowLength) (h' : ∀ row ∈ rows', row.length = rowLength)
    (heq : asciiLayout rows = asciiLayout rows') : rows = rows' := by
  apply separated_injective (P := fun row => row.length = rowLength) _ _ _ h h' heq
  · intro a b ha hb
    rw [length_digits, length_digits, ha, hb]
  · intro a ha
    exact digits_ne_nil hpos ha
  · intro a b _ _ hab
    exact digits_injective hab

theorem quoted_injective : Function.Injective quoted := by
  intro a b h
  apply digits_injective
  exact List.append_cancel_left (List.append_cancel_right h)

theorem arrayLayout_injective {rows rows' : List (List Bool)}
    (h : ∀ row ∈ rows, row.length = rowLength) (h' : ∀ row ∈ rows', row.length = rowLength)
    (heq : arrayLayout rows = arrayLayout rows') : rows = rows' := by
  apply separated_injective (P := fun row => row.length = rowLength) _ _ _ h h' heq
  · intro a b ha hb
    simp only [quoted, List.length_append, length_digits, ha, hb]
  · intro a _ hnil
    simp [quoted] at hnil
  · intro a b _ _ hab
    exact quoted_injective hab

theorem coeLayout_injective (hpos : 0 < rowLength) {rows rows' : List (List Bool)}
    (h : ∀ row ∈ rows, row.length = rowLength) (h' : ∀ row ∈ rows', row.length = rowLength)
    (heq : coeLayout rows = coeLayout rows') : rows = rows' := by
  have hrows := List.append_cancel_right (List.append_cancel_left heq)
  apply separated_injective (P := fun row => row.length = rowLength) _ _ _ h h' hrows
  · intro a b ha hb
    rw [length_digits, length_digits, ha, hb]
  · intro a ha
    exact digits_ne_nil hpos ha
  · intro a b _ _ hab
    exact digits_injective hab

theorem digitChar_injective : ∀ a < 16, ∀ b < 16, Nat.digitChar a = Nat.digitChar b → a = b := by
  decide

theorem grouped_lt (size count : Nat) (row : List Bool) (h : n ∈ grouped size count row) :
    n < 2 ^ size := by
  obtain ⟨piece, hpiece, rfl⟩ := List.mem_map.1 h
  obtain ⟨i, _, rfl⟩ := List.mem_map.1 hpiece
  exact Nat.lt_of_lt_of_le (binaryValue_lt _)
    (Nat.pow_le_pow_right (by decide) (List.length_take_le ..))

theorem hexRow_injective {row row' : List Bool} (h : row.length = rowLength)
    (h' : row'.length = rowLength) (heq : hexRow rowLength row = hexRow rowLength row') :
    row = row' := by
  apply grouped_injective (h.trans h'.symm) (by omega : row.length ≤ (rowLength + 3) / 4 * 4)
  apply List.ext_getElem
  · rw [length_grouped, length_grouped]
  · intro i hi hi'
    have hget := congrArg (fun l => l[i]?) heq
    simp only [hexRow, List.getElem?_map, List.getElem?_eq_getElem hi,
      List.getElem?_eq_getElem hi', Option.map_some, Option.some.injEq] at hget
    exact digitChar_injective _ (grouped_lt 4 _ row (List.getElem_mem hi)) _
      (grouped_lt 4 _ row' (List.getElem_mem hi')) hget

theorem length_hexRow (rowLength : Nat) (row : List Bool) :
    (hexRow rowLength row).length = (rowLength + 3) / 4 := by
  rw [hexRow, List.length_map, length_grouped]

theorem hexLayout_injective {rows rows' : List (List Bool)}
    (h : ∀ row ∈ rows, row.length = rowLength) (h' : ∀ row ∈ rows', row.length = rowLength)
    (heq : hexLayout rowLength rows = hexLayout rowLength rows') : rows = rows' := by
  rw [hexLayout, hexLayout, ← numbered_eq_flatMap _ 0, ← numbered_eq_flatMap _ 0] at heq
  apply numbered_injective (P := fun row => row.length = rowLength) _ _ _ h h' heq
  · intro _ a b _ _
    rw [List.length_append, List.length_append, length_hexRow, length_hexRow]
  · intro _ a _ hnil
    simp at hnil
  · intro _ a b ha hb hab
    exact hexRow_injective ha hb (List.append_cancel_right hab)

theorem bin2nLayout_injective (hpos : 0 < rowLength) {rows rows' : List (List Bool)}
    (h : ∀ row ∈ rows, row.length = rowLength) (h' : ∀ row ∈ rows', row.length = rowLength)
    (heq : bin2nLayout rowLength rows = bin2nLayout rowLength rows') : rows = rows' := by
  have hbytes : rowLength ≤ rowBytes rowLength * 8 := by
    rw [rowBytes]
    omega
  rw [bin2nLayout, bin2nLayout, ← numbered_eq_flatMap _ 0, ← numbered_eq_flatMap _ 0] at heq
  apply numbered_injective (P := fun row => row.length = rowLength) _ _ _ h h' heq
  · intro _ a b _ _
    rw [List.length_reverse, List.length_reverse, length_grouped, length_grouped]
  · intro _ a _ hnil
    have hlength := length_grouped 8 (rowBytes rowLength) a
    rw [List.reverse_eq_nil_iff.1 hnil, List.length_nil] at hlength
    omega
  · intro _ a b ha hb hab
    exact grouped_injective (ha.trans hb.symm) (ha ▸ hbytes) (List.reverse_injective hab)

/-- A digit is no end of a line. -/
theorem count_toDigits (n : Nat) : (Nat.toDigits 10 n).count '\n' = 0 := by
  rw [List.count_eq_zero]
  intro hmem
  have hdigit := Nat.isDigit_of_mem_toDigits (by decide) (by decide) hmem
  exact absurd hdigit (by decide)

theorem count_digits (row : List Bool) : (digits row).count '\n' = 0 := by
  rw [List.count_eq_zero]
  intro hmem
  obtain ⟨b, _, hb⟩ := List.mem_map.1 hmem
  cases b with
  | false => exact absurd hb (by decide)
  | true => exact absurd hb (by decide)

open Mif in
theorem count_texts : comment.count '\n' = 0 ∧ width.count '\n' = 0 ∧ depth.count '\n' = 0 ∧
    aRadix.count '\n' = 0 ∧ dRadix.count '\n' = 0 ∧ contentBegin.count '\n' = 0 ∧
    contentEnd.count '\n' = 0 ∧ indent.count '\n' = 0 := by
  decide +kernel

theorem count_mifHeader (rowLength depth : Nat) : (mifHeader rowLength depth).count '\n' = 7 := by
  obtain ⟨hcomment, hwidth, hdepth, haRadix, hdRadix, hbegin, _, _⟩ := count_texts
  simp only [mifHeader, List.count_append, count_toDigits, hcomment, hwidth, hdepth, haRadix,
    hdRadix, hbegin]
  rfl

theorem count_mifLine (address : Nat) (row : List Bool) :
    (mifLine address (digits row)).count '\n' = 1 := by
  obtain ⟨_, _, _, _, _, _, _, hindent⟩ := count_texts
  simp only [mifLine, List.count_append, count_toDigits, count_digits, hindent]
  rfl

theorem count_mifLines (start : Nat) (rows : List (List Bool)) :
    (numbered (fun address row => mifLine address (digits row)) start rows).count '\n' =
      rows.length := by
  induction rows generalizing start with
  | nil => rfl
  | cons row rows ih =>
    rw [numbered, List.count_append, count_mifLine, ih, List.length_cons, Nat.add_comm]

theorem count_mifLayout (rowLength : Nat) (rows : List (List Bool)) :
    (mifLayout rowLength rows).count '\n' = rows.length + 8 := by
  obtain ⟨_, _, _, _, _, _, hend, _⟩ := count_texts
  simp only [mifLayout, List.count_append, count_mifHeader, count_mifLines, hend]
  rw [List.count_singleton_self]
  omega

theorem mifLayout_injective {rows rows' : List (List Bool)}
    (h : ∀ row ∈ rows, row.length = rowLength) (h' : ∀ row ∈ rows', row.length = rowLength)
    (heq : mifLayout rowLength rows = mifLayout rowLength rows') : rows = rows' := by
  have hlength : rows.length = rows'.length := by
    have hcount := congrArg (List.count '\n') heq
    rw [count_mifLayout, count_mifLayout] at hcount
    exact Nat.add_right_cancel hcount
  rw [mifLayout, mifLayout, hlength] at heq
  have hrows := List.append_cancel_right (List.append_cancel_left heq)
  apply numbered_injective (P := fun row => row.length = rowLength) _ _ _ h h' hrows
  · intro i a b ha hb
    simp only [mifLine, List.length_append, length_digits, ha, hb]
  · intro i a _ hnil
    simp [mifLine] at hnil
  · intro i a b _ _ hab
    exact digits_injective (List.append_cancel_left (List.append_cancel_right hab))

/-- The first row of what is written from a column on, when there are more bits than columns. -/
theorem asciiRows_long {bits : List Bool} (h : rowLength - column < bits.length)
    (hcolumn : column < rowLength) : asciiRows rowLength bits column =
      digits (bits.take (rowLength - column)) ++
        '\n' :: asciiRows rowLength (bits.drop (rowLength - column)) 0 := by
  induction bits generalizing column with
  | nil => cases h
  | cons b bits ih =>
    cases bits with
    | nil =>
      rw [List.length_singleton] at h
      omega
    | cons next rest =>
      rw [asciiRows]
      by_cases hend : column + 1 = rowLength
      · have hone : rowLength - column = 1 := by omega
        rw [if_pos hend, hone]
        rfl
      · have hmore : rowLength - column = rowLength - (column + 1) + 1 := by omega
        rw [List.length_cons] at h
        rw [if_neg hend, ih (by omega) (by omega), hmore]
        rfl

/-- The last row. -/
theorem asciiRows_short {bits : List Bool} (hne : bits ≠ [])
    (h : bits.length ≤ rowLength - column) (hcolumn : column < rowLength) :
    asciiRows rowLength bits column =
      digits (bits ++ List.replicate (rowLength - column - bits.length) false) := by
  induction bits generalizing column with
  | nil => exact (hne rfl).elim
  | cons b bits ih =>
    cases bits with
    | nil =>
      rw [asciiRows, digits, List.length_singleton, List.cons_append, List.map_cons,
        List.nil_append, List.map_replicate, Nat.sub_sub]
      rfl
    | cons next rest =>
      rw [List.length_cons] at h ⊢
      have hroom : column + 1 < rowLength := by
        rw [List.length_cons] at h
        omega
      rw [asciiRows, if_neg (by omega), ih (List.cons_ne_nil _ _) (by omega) hroom]
      have hpad : rowLength - (column + 1) - (next :: rest).length =
          rowLength - column - ((next :: rest).length + 1) := by omega
      rw [hpad]
      rfl

/-- The loop writes the rows of the bits. -/
theorem asciiRows_eq (hpos : 0 < rowLength) (bits : List Bool) (hne : bits ≠ []) :
    ∃ rows, rows ≠ [] ∧ IsImage bits rowLength rows ∧
      asciiRows rowLength bits 0 = asciiLayout rows := by
  induction hn : bits.length using Nat.strongRecOn generalizing bits with
  | ind n ih =>
    by_cases h : bits.length ≤ rowLength
    · have hfull : (bits ++ List.replicate (rowLength - bits.length) false).length =
          rowLength := by
        rw [List.length_append, List.length_replicate]
        omega
      refine ⟨[bits ++ List.replicate (rowLength - bits.length) false], ?_, ?_, ?_⟩
      · exact List.cons_ne_nil _ _
      · constructor
        · intro row hrow
          rw [List.mem_singleton.1 hrow]
          exact hfull
        · have hlength := List.length_pos_of_ne_nil hne
          exact ⟨rowLength - bits.length, List.flatten_singleton, .inl (by omega)⟩
      · rw [asciiRows_short hne h hpos]
        exact (List.append_nil _).symm
    · have hdrop : (bits.drop rowLength).length < n := by
        rw [List.length_drop]
        omega
      have hne' : bits.drop rowLength ≠ [] := by
        intro hnil
        rw [List.drop_eq_nil_iff] at hnil
        exact h hnil
      obtain ⟨rows, hrows, himage, hwritten⟩ := ih _ hdrop _ hne' rfl
      obtain ⟨zeros, hflatten, hzeros⟩ := himage.flatten_eq
      refine ⟨bits.take rowLength :: rows, List.cons_ne_nil _ _, ?_, ?_⟩
      · constructor
        · intro row hrow
          rcases List.mem_cons.1 hrow with rfl | hrow
          · rw [List.length_take]
            omega
          · exact himage.length_eq row hrow
        · refine ⟨zeros, ?_, .inl (hzeros.resolve_right fun hnil => hne' hnil.1)⟩
          rw [List.flatten_cons, hflatten, ← List.append_assoc, List.take_append_drop]
      · rw [asciiRows_long (by omega) hpos, Nat.sub_zero, hwritten]
        cases rows with
        | nil => exact (hrows rfl).elim
        | cons row rows => rfl

theorem ascii_writes (hpos : 0 < rowLength) (bits : List Bool) :
    Writes asciiLayout (asciiImage bits rowLength) bits rowLength := by
  by_cases hne : bits = []
  · subst hne
    have himage : IsImage [] rowLength [] := ⟨List.forall_mem_nil _, 0, rfl, .inl hpos⟩
    refine ⟨[], himage, rfl, ?_⟩
    intro rows' hrows' heq
    exact asciiLayout_injective hpos hrows' himage.length_eq heq
  · obtain ⟨rows, _, himage, hwritten⟩ := asciiRows_eq hpos bits hne
    refine ⟨rows, himage, congrArg Except.ok hwritten, ?_⟩
    intro rows' hrows' heq
    exact asciiLayout_injective hpos hrows' himage.length_eq heq

/-- The bits that are written, which are at least one row. -/
def filled (bits : List Bool) (rowLength : Nat) : List Bool :=
  bits ++ List.replicate (if bits = [] then rowLength else 0) false

theorem length_filled {bits : List Bool} (hdvd : rowLength ∣ bits.length) :
    (filled bits rowLength).length = max 1 (bits.length / rowLength) * rowLength := by
  rw [filled, List.length_append, List.length_replicate]
  split
  · rename_i hnil
    rw [hnil, List.length_nil, Nat.zero_div, Nat.zero_add, Nat.max_eq_left (Nat.zero_le 1),
      Nat.one_mul]
  · rename_i hne
    have hlength := List.length_pos_of_ne_nil hne
    have hmul := Nat.div_mul_cancel hdvd
    have hcount : 0 < bits.length / rowLength := by
      refine Nat.pos_of_ne_zero fun hzero => ?_
      rw [hzero, Nat.zero_mul] at hmul
      omega
    rw [Nat.max_eq_right hcount, hmul]
    rfl

theorem filled_isImage {bits : List Bool} (hpos : 0 < rowLength) (hdvd : rowLength ∣ bits.length) :
    IsImage bits rowLength
      (rowsOf rowLength (max 1 (bits.length / rowLength)) (filled bits rowLength)) := by
  have hlength := length_filled hdvd
  constructor
  · intro row hrow
    exact length_of_mem_rowsOf (Nat.le_of_eq hlength.symm) hrow
  · refine ⟨_, flatten_rowsOf hlength, ?_⟩
    split
    · rename_i hnil
      exact .inr ⟨hnil, rfl⟩
    · exact .inl hpos

theorem map_range_filled {bits t : List Bool} (ht : t = bits ++ List.replicate zeros false)
    (hend : next + length ≤ t.length) :
    (List.range' next length).map (fun index => bitChar (bits[index]?.getD false)) =
      digits ((t.drop next).take length) := by
  apply List.ext_getElem
  · rw [List.length_map, List.length_range', length_digits, List.length_take, List.length_drop]
    omega
  · intro i hi hi'
    rw [List.length_map, List.length_range'] at hi
    have hin : next + i < t.length := by omega
    have hbit : bits[next + i]?.getD false = t[next + i] := by
      subst ht
      rw [List.getElem_append]
      split
      · rename_i hbit
        rw [List.getElem?_eq_getElem hbit]
        rfl
      · rename_i hbit
        rw [List.getElem?_eq_none (Nat.not_lt.1 hbit), List.getElem_replicate]
        rfl
    simp only [digits, List.getElem_map, List.getElem_range', List.getElem_take,
      List.getElem_drop, Nat.one_mul, hbit]

/-- A row inside of the bits, or at their end when it is filled up. -/
theorem writeSequence_ok {bits t : List Bool} (ht : t = bits ++ List.replicate zeros false)
    (hpos : 0 < length) (hend : next + length ≤ t.length) (hlt : next + length < 2 ^ 32)
    (hpad : padEnd = true ∨ next + length ≤ bits.length) :
    writeSequence bits next length padEnd =
      .ok (digits ((t.drop next).take length), next + length) := by
  have hlast : (next + length + 2 ^ 32 - 1) % 2 ^ 32 = next + length - 1 := by omega
  have hnext : next + length - 1 + 1 = next + length := by omega
  have hcheck : ¬ (bits.length ≤ next + length - 1 ∧ padEnd = false) := by
    rintro ⟨hle, hfalse⟩
    rcases hpad with htrue | hin
    · rw [hfalse] at htrue
      cases htrue
    · omega
  simp only [writeSequence, hlast, hnext, Nat.add_sub_cancel_left, map_range_filled ht hend]
  rw [if_neg hcheck, if_neg (by omega)]

theorem writeRows_ok {write : Nat → Outcome (List α × Nat)} (line : Nat → List α → List α)
    {piece : List Bool → List α} {t : List Bool}
    (h : ∀ i, start ≤ i → i < start + count → write (i * rowLength) =
      .ok (piece ((t.drop (i * rowLength)).take rowLength), (i + 1) * rowLength)) :
    writeRows write line count start (start * rowLength) =
      .ok (numbered (fun address row => line address (piece row)) start
        ((List.range' start count).map fun i => (t.drop (i * rowLength)).take rowLength),
        (start + count) * rowLength) := by
  induction count generalizing start with
  | zero => rfl
  | succ count ih =>
    have hrest := @ih (start + 1) fun i hge hlt => h i (by omega) (by omega)
    rw [writeRows, h start (Nat.le_refl _) (by omega)]
    change (writeRows write line count (start + 1) ((start + 1) * rowLength) >>= fun x => _) = _
    rw [hrest, List.range'_succ, List.map_cons, numbered, Nat.add_right_comm, ← Nat.add_assoc]
    rfl

theorem writeRows_zero {write : Nat → Outcome (List α × Nat)} (line : Nat → List α → List α)
    {piece : List Bool → List α} {t : List Bool}
    (h : ∀ i < count, write (i * rowLength) =
      .ok (piece ((t.drop (i * rowLength)).take rowLength), (i + 1) * rowLength)) :
    writeRows write line count 0 0 =
      .ok (numbered (fun address row => line address (piece row)) 0 (rowsOf rowLength count t),
        count * rowLength) := by
  have hrows : writeRows write line count 0 (0 * rowLength) =
      .ok (numbered (fun address row => line address (piece row)) 0
        ((List.range' 0 count).map fun i => (t.drop (i * rowLength)).take rowLength),
        (0 + count) * rowLength) :=
    writeRows_ok line fun i _ hlt => h i (by omega)
  rw [Nat.zero_mul, Nat.zero_add, ← List.range_eq_range'] at hrows
  exact hrows

theorem roundedQuotient_mul (a : Nat) (hb : 0 < b) : roundedQuotient (a * b) b = a := by
  rw [roundedQuotient, Nat.mul_mod_left, if_neg (by omega), Nat.mul_div_cancel a hb]

/-- A quotient that is an integer of the precision is not rounded. -/
theorem ceilQuotient_mul (hy : 0 < y) (hk : k < 2 ^ (precision + 1)) :
    ceilQuotient precision (k * y) y = k := by
  rcases Nat.eq_zero_or_pos k with rfl | hpos
  · rw [Nat.zero_mul, ceilQuotient, if_pos hy, if_pos rfl]
  · have hle : y ≤ k * y := Nat.le_mul_of_pos_left y hpos
    have hexp : k.log2 ≤ precision :=
      Nat.lt_succ_iff.1 ((Nat.log2_lt (Nat.ne_of_gt hpos)).2 hk)
    have hsplit : 2 ^ precision = 2 ^ (precision - k.log2) * 2 ^ k.log2 := by
      rw [← Nat.pow_add, Nat.sub_add_cancel hexp]
    have hprod : k * y * 2 ^ precision =
        k * 2 ^ (precision - k.log2) * (y * 2 ^ k.log2) := by
      rw [hsplit, Nat.mul_mul_mul_comm]
    have hpow : 0 < 2 ^ precision := Nat.two_pow_pos precision
    rw [ceilQuotient, if_neg (Nat.not_lt.2 hle)]
    simp only [Nat.mul_div_cancel k hy]
    rw [hprod, roundedQuotient_mul _ (Nat.mul_pos hy (Nat.two_pow_pos _)), Nat.mul_assoc,
      ← hsplit, Nat.add_sub_assoc hpow, Nat.mul_comm k, Nat.mul_add_div hpow,
      Nat.div_eq_of_lt (by omega), Nat.add_zero]

theorem lineCount_eq (hpos : 0 < rowLength) (hdvd : rowLength ∣ size) (hlt : size < 2 ^ 32) :
    lineCount size rowLength = toCInt (size / rowLength) := by
  have hdouble : toDouble size = size := toDouble_of_lt (Nat.lt_trans hlt (by decide))
  have hcount : size / rowLength < 2 ^ (52 + 1) :=
    Nat.lt_of_le_of_lt (Nat.div_le_self ..) (Nat.lt_trans hlt (by decide))
  have hquotient := ceilQuotient_mul hpos hcount
  rw [Nat.div_mul_cancel hdvd] at hquotient
  rw [lineCount, hdouble, hquotient]

/-- The rows of all the writers but the first one and the last one. -/
def imageRows (bits : List Bool) (rowLength : Nat) : List (List Bool) :=
  rowsOf rowLength (max 1 (bits.length / rowLength)) (filled bits rowLength)

def firstRows (bits : List Bool) (rowLength : Nat) : List (List Bool) :=
  rowsOf rowLength (bits.length / rowLength - 1) (filled bits rowLength)

def lastRow (bits : List Bool) (rowLength : Nat) : List Bool :=
  ((filled bits rowLength).drop ((bits.length / rowLength - 1) * rowLength)).take rowLength

theorem imageRows_eq (bits : List Bool) (rowLength : Nat) :
    imageRows bits rowLength = firstRows bits rowLength ++ [lastRow bits rowLength] := by
  have hcount : max 1 (bits.length / rowLength) = bits.length / rowLength - 1 + 1 := by omega
  rw [imageRows, hcount, rowsOf_succ]
  rfl

theorem length_firstRows (bits : List Bool) (rowLength : Nat) :
    (firstRows bits rowLength).length = bits.length / rowLength - 1 := length_rowsOf ..

section Whole
variable {bits : List Bool} {rowLength : Nat}

theorem lines_ok (hpos : 0 < rowLength) (hdvd : rowLength ∣ bits.length)
    (hlt : bits.length < 2 ^ 32) (line : Nat → Text → Text) :
    writeRows (writeSequence bits · rowLength false) line (bits.length / rowLength - 1) 0 0 =
      .ok (numbered (fun address row => line address (digits row)) 0 (firstRows bits rowLength),
        (bits.length / rowLength - 1) * rowLength) := by
  apply writeRows_zero line
  intro i hi
  have hend : (i + 1) * rowLength ≤ bits.length / rowLength * rowLength :=
    Nat.mul_le_mul_right _ (by omega)
  rw [Nat.div_mul_cancel hdvd, Nat.succ_mul] at hend
  rw [Nat.succ_mul]
  apply writeSequence_ok rfl hpos _ (by omega) (.inr hend)
  rw [List.length_append]
  omega

theorem last_ok (hpos : 0 < rowLength) (hrow : rowLength < 2 ^ 31)
    (hdvd : rowLength ∣ bits.length) (hlt : bits.length < 2 ^ 32) :
    writeSequence bits ((bits.length / rowLength - 1) * rowLength) rowLength true =
      .ok (digits (lastRow bits rowLength),
        (bits.length / rowLength - 1) * rowLength + rowLength) := by
  have hcount : max 1 (bits.length / rowLength) = bits.length / rowLength - 1 + 1 := by omega
  have hlength := length_filled hdvd
  rw [hcount, Nat.succ_mul] at hlength
  have hmul := Nat.div_mul_cancel hdvd
  apply writeSequence_ok rfl hpos (Nat.le_of_eq hlength.symm) _ (.inl rfl)
  rcases Nat.eq_zero_or_pos (bits.length / rowLength) with hzero | hsome
  · rw [hzero, Nat.zero_sub, Nat.zero_mul]
    omega
  · rw [← Nat.succ_mul, Nat.succ_eq_add_one, Nat.sub_add_cancel hsome, hmul]
    exact hlt

theorem array_eq (hpos : 0 < rowLength) (hrow : rowLength < 2 ^ 31)
    (hdvd : rowLength ∣ bits.length) (hlt : bits.length < 2 ^ 32)
    (hcount : bits.length / rowLength < 2 ^ 31) :
    arrayImage bits rowLength = .ok (arrayLayout (imageRows bits rowLength)) := by
  have htext : numbered (fun _ row => ['"'] ++ digits row ++ ['"', ',', '\n']) 0
      (firstRows bits rowLength) ++ (['"'] ++ digits (lastRow bits rowLength) ++ ['"']) =
        arrayLayout (imageRows bits rowLength) := by
    rw [numbered_eq_flatMap, imageRows_eq, arrayLayout, separated_concat]
    congr 2
    funext row
    simp [quoted]
  rw [arrayImage, lineCount_eq hpos hdvd hlt, toCInt, if_pos hcount]
  change (writeRows _ _ (bits.length / rowLength - 1) 0 0 >>= fun x => _) = _
  rw [lines_ok hpos hdvd hlt]
  change (writeSequence bits _ rowLength true >>= fun x => _) = _
  rw [last_ok hpos hrow hdvd hlt, ← htext]
  rfl

theorem digits_lastRow (hzero : bits.length / rowLength = 0) (hdvd : rowLength ∣ bits.length) :
    lastRow bits rowLength = List.replicate rowLength false ∧ firstRows bits rowLength = [] := by
  have hnil : bits = [] := by
    have hmul := Nat.div_mul_cancel hdvd
    rw [hzero, Nat.zero_mul] at hmul
    exact List.eq_nil_of_length_eq_zero hmul.symm
  subst hnil
  constructor
  · simp [lastRow, filled]
  · simp [firstRows, rowsOf]

theorem coe_eq (hpos : 0 < rowLength) (hrow : rowLength < 2 ^ 31)
    (hdvd : rowLength ∣ bits.length) (hlt : bits.length < 2 ^ 32)
    (hcount : bits.length / rowLength < 2 ^ 31) :
    coeImage bits rowLength = .ok (coeLayout (imageRows bits rowLength)) := by
  rw [coeImage, lineCount_eq hpos hdvd hlt, toCInt, if_pos hcount]
  by_cases hzero : bits.length / rowLength = 0
  · obtain ⟨hlast, hfirst⟩ := digits_lastRow hzero hdvd
    have htext : coeHeader ++ (List.replicate rowLength '0' ++ [';', '\n']) =
        coeLayout (imageRows bits rowLength) := by
      rw [imageRows_eq, hfirst, hlast]
      simp [coeLayout, separated, digits, bitChar]
    rw [← htext, hzero]
    rfl
  · have htext : coeHeader ++ (numbered (fun _ row => digits row ++ [',', '\n']) 0
        (firstRows bits rowLength) ++ digits (lastRow bits rowLength) ++ [';', '\n']) =
          coeLayout (imageRows bits rowLength) := by
      rw [numbered_eq_flatMap, imageRows_eq, coeLayout, separated_concat]
    change (if bits.length / rowLength = 0 then _ else _) = _
    rw [if_neg hzero]
    change (writeRows _ _ (bits.length / rowLength - 1) 0 0 >>= fun x => _) = _
    rw [lines_ok hpos hdvd hlt]
    change (writeSequence bits _ rowLength true >>= fun x => _) = _
    rw [last_ok hpos hrow hdvd hlt, ← htext]
    rfl

theorem mif_eq (hpos : 0 < rowLength) (hrow : rowLength < 2 ^ 31)
    (hdvd : rowLength ∣ bits.length) (hlt : bits.length < 2 ^ 32)
    (hcount : bits.length / rowLength < 2 ^ 31)
    (hmif : mifWordCount bits.length rowLength = bits.length / rowLength) :
    mifImage bits rowLength = .ok (mifLayout rowLength (imageRows bits rowLength)) := by
  rw [mifImage, hmif, toCInt, if_pos hcount]
  by_cases hzero : bits.length / rowLength = 0
  · obtain ⟨hlast, hfirst⟩ := digits_lastRow hzero hdvd
    have htext : mifHeader rowLength 1 ++ (mifLine 0 (List.replicate rowLength '0') ++
        (Mif.contentEnd ++ ['\n'])) = mifLayout rowLength (imageRows bits rowLength) := by
      rw [imageRows_eq, hfirst, hlast]
      simp [mifLayout, numbered, digits, bitChar]
    rw [← htext, hzero]
    rfl
  · have htext : mifHeader rowLength (bits.length / rowLength) ++
        (numbered (fun address row => mifLine address (digits row)) 0 (firstRows bits rowLength) ++
          mifLine (bits.length / rowLength - 1) (digits (lastRow bits rowLength)) ++
            (Mif.contentEnd ++ ['\n'])) = mifLayout rowLength (imageRows bits rowLength) := by
      have hlength : (firstRows bits rowLength ++ [lastRow bits rowLength]).length =
          bits.length / rowLength := by
        rw [List.length_append, length_firstRows, List.length_singleton]
        omega
      rw [imageRows_eq, mifLayout, hlength, numbered_append, length_firstRows, Nat.zero_add]
      simp only [numbered, List.append_nil]
    change (if bits.length / rowLength = 0 then _ else _) = _
    rw [if_neg hzero]
    change (writeRows _ _ (bits.length / rowLength - 1) 0 0 >>= fun x => _) = _
    rw [lines_ok hpos hdvd hlt]
    change (writeSequence bits _ rowLength true >>= fun x => _) = _
    rw [last_ok hpos hrow hdvd hlt, ← htext]
    rfl

end Whole

end PIG

end OpenAsip
