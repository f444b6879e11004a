import Mathlib.Data.List.FinRange
import Mathlib.Data.List.Induction
import Mathlib.Data.List.Lex
import Mathlib.Data.List.OfFn
import OpenAsip.BitMatrix

namespace OpenAsip.BitMatrix
set_option autoImplicit true

/-- The matrix that the bits stand for. -/
abbrev NaiveMatrix (rows columns : Nat) := Fin rows → Fin columns → Bool

variable {rows columns : Nat}

namespace NaiveMatrix

/-- The elements as one string of bits, row after row. -/
def bitString (n : NaiveMatrix rows columns) : List (List Bool) :=
  List.ofFn fun row => List.ofFn (n row)

/-- The element that differs first decides. -/
def Less (n n' : NaiveMatrix rows columns) : Prop := n.bitString < n'.bitString

instance : DecidableRel (Less : NaiveMatrix rows columns → _) := fun n n' =>
  inferInstanceAs (Decidable (n.bitString < n'.bitString))

theorem bitString_injective :
    Function.Injective (bitString : NaiveMatrix rows columns → _) := by
  intro n n' h
  funext row
  exact List.ofFn_injective (congrFun (List.ofFn_injective h) row)

theorem less_isStrictTotalOrder :
    IsStrictTotalOrder (NaiveMatrix rows columns) Less where
  irrefl n := lt_irrefl n.bitString
  trans _ _ _ h h' := lt_trans h h'
  trichotomous _ _ h h' :=
    bitString_injective (le_antisymm (not_lt.1 h') (not_lt.1 h))

end NaiveMatrix

/-- The bits of a row are compared from the first column on. -/
theorem lessInRow_ok (m m' : BitMatrix rows columns) (hr : row < rows) {l : List Nat}
    (hl : ∀ column ∈ l, column < 32 * wordsPerRow columns) :
    m.lessInRow m' row l = .ok (if l.map (m.bit row) = l.map (m'.bit row) then none
      else some (decide (l.map (m.bit row) < l.map (m'.bit row)))) := by
  induction l with
  | nil => rfl
  | cons column l ih =>
    have hc := hl column List.mem_cons_self
    replace ih := ih fun c hc => hl c (List.mem_cons_of_mem column hc)
    rw [lessInRow, bitAt_ok m hr hc, bitAt_ok m' hr hc]
    change (if m.bit row column ≠ m'.bit row column then _ else _) = _
    rw [ih, List.map_cons, List.map_cons]
    cases m.bit row column with
    | false =>
      cases m'.bit row column with
      | false => simp
      | true => simp [List.cons_lt_cons_iff]
    | true =>
      cases m'.bit row column with
      | false => simp [List.cons_lt_cons_iff]
      | true => simp

/-- The bits of the columns row after row. -/
def rowBits (m : BitMatrix rows columns) (row : Nat) : List Bool :=
  (List.range columns).map (m.bit row)

theorem lessInRows_ok (m m' : BitMatrix rows columns) (hc : columns ≤ 32 * wordsPerRow columns)
    {l : List Nat} (hl : ∀ row ∈ l, row < rows) :
    m.lessInRows m' l = .ok (decide (l.map m.rowBits < l.map m'.rowBits)) := by
  have hcolumns : ∀ column ∈ List.range columns, column < 32 * wordsPerRow columns := by
    intro column hcolumn
    exact Nat.lt_of_lt_of_le (List.mem_range.1 hcolumn) hc
  induction l with
  | nil => rfl
  | cons row l ih =>
    have hr := hl row List.mem_cons_self
    replace ih := ih fun r hr => hl r (List.mem_cons_of_mem row hr)
    have hrow : m.lessInRow m' row (List.range columns) = .ok (if m.rowBits row = m'.rowBits row
        then none else some (decide (m.rowBits row < m'.rowBits row))) :=
      lessInRow_ok m m' hr hcolumns
    rw [lessInRows, hrow, List.map_cons, List.map_cons]
    by_cases heq : m.rowBits row = m'.rowBits row
    · rw [if_pos heq, heq]
      change m.lessInRows m' l = _
      rw [ih]
      simp
    · rw [if_neg heq]
      change Except.ok (decide (m.rowBits row < m'.rowBits row)) = _
      simp [List.cons_lt_cons_iff, heq]

/-- The matrices are compared as lists of rows. -/
theorem lessThan_ok (m m' : BitMatrix rows columns) (hc : columns ≤ 32 * wordsPerRow columns) :
    m.lessThan m' = .ok (decide ((List.range rows).map m.rowBits <
      (List.range rows).map m'.rowBits)) :=
  lessInRows_ok m m' hc fun _ hr => List.mem_range.1 hr

inductive Call (rows columns : Nat) where
  | setBit (i : Nat) (column : Fin columns) (row : Fin rows) (value : Bool)
  | setAllToZero (i : Nat)
  | setAllToOne (i : Nat)
  | orWith (i another : Nat)
  | copy (i another : Nat)
  | shiftLeft (i : Nat)
deriving DecidableEq

/-- The calls are those for matrices of one size, each of which has a number. A copy gets the number
of the matrix it replaces. -/
def call (matrices : Nat → BitMatrix rows columns) :
    Call rows columns → Outcome (Nat → BitMatrix rows columns)
  | .setBit i column row value => do
    let m ← (matrices i).setBit column row value
    .ok (Function.update matrices i m)
  | .setAllToZero i => .ok (Function.update matrices i (matrices i).setAllToZero)
  | .setAllToOne i => .ok (Function.update matrices i (matrices i).setAllToOne)
  | .orWith i another => .ok (Function.update matrices i ((matrices i).orWith (matrices another)))
  | .copy i another => .ok (Function.update matrices i (matrices another).copy)
  | .shiftLeft i => .ok (Function.update matrices i (matrices i).shiftLeft)

/-- The number of the words of a matrix is an `int`. -/
def run (initialValue : Nat → Bool) (calls : List (Call rows columns)) :
    Outcome (Nat → BitMatrix rows columns) :=
  if 2 ^ 31 ≤ rows * wordsPerRow columns then .error .undefined
  else calls.foldlM call fun i => create rows columns (initialValue i)

def NaiveMatrix.shiftLeft (n : NaiveMatrix rows columns) : NaiveMatrix rows columns :=
  fun row column => if h : column + 1 < columns then n row ⟨column + 1, h⟩ else false

def NaiveMatrix.call (matrices : Nat → NaiveMatrix rows columns) :
    Call rows columns → Nat → NaiveMatrix rows columns
  | .setBit i column row value => Function.update matrices i fun row' column' =>
    if row' = row ∧ column' = column then value else matrices i row' column'
  | .setAllToZero i => Function.update matrices i fun _ _ => false
  | .setAllToOne i => Function.update matrices i fun _ _ => true
  | .orWith i another => Function.update matrices i fun row column =>
    matrices i row column || matrices another row column
  | .copy i another => Function.update matrices i (matrices another)
  | .shiftLeft i => Function.update matrices i (matrices i).shiftLeft

def naive (initialValue : Nat → Bool) (calls : List (Call rows columns)) :
    Nat → NaiveMatrix rows columns :=
  calls.foldl NaiveMatrix.call fun i _ _ => initialValue i

/-- Whether a call has set those bits of the words that no column has. -/
def fillCall (filled : Nat → Bool) : Call rows columns → Nat → Bool
  | .setBit _ _ _ _ => filled
  | .setAllToZero i => Function.update filled i false
  | .setAllToOne i => Function.update filled i true
  | .orWith i another => Function.update filled i (filled i || filled another)
  | .copy i another => Function.update filled i (filled another)
  | .shiftLeft _ => filled

def filled (initialValue : Nat → Bool) (calls : List (Call rows columns)) : Nat → Bool :=
  calls.foldl fillCall initialValue

/-- What two matrices have in common. -/
def NaiveMatrix.Common (n n' : NaiveMatrix rows columns) : Prop :=
  ∃ row column, n row column = true ∧ n' row column = true

structure Agrees (matrices : Nat → BitMatrix rows columns)
    (naive : Nat → NaiveMatrix rows columns) : Prop where
  bitAt : ∀ i (row : Fin rows) (column : Fin columns),
    (matrices i).bitAt column row = .ok (naive i row column)
  conflictsWith : ∀ i j, (matrices i).conflictsWith (matrices j) = true ↔ (naive i).Common (naive j)
  lessThan : ∀ i j, (matrices i).lessThan (matrices j) = .ok (decide ((naive i).Less (naive j)))

/-- In every state of a run the matrices are the naive ones, of which the comparison is a strict
total order. -/
def Implements (initialValue : Nat → Bool) (calls : List (Call rows columns)) : Prop :=
  IsStrictTotalOrder (NaiveMatrix rows columns) NaiveMatrix.Less ∧
  ∀ before, before <+: calls → ∃ matrices, run initialValue before = .ok matrices ∧
    Agrees matrices (naive initialValue before)

/-- There are bits that no column has. -/
def Padded (rows columns : Nat) : Prop := 0 < rows ∧ columns < 32 * wordsPerRow columns

/-- Matrices whose bits beyond the columns are set are not shifted, and any two of them have an
element in common. -/
structure Sound (initialValue : Nat → Bool) (calls : List (Call rows columns)) : Prop where
  size : rows * wordsPerRow columns < 2 ^ 31
  columns_le : 0 < rows → columns ≤ 32 * wordsPerRow columns
  shiftLeft : Padded rows columns → ∀ before i after, calls = before ++ .shiftLeft i :: after →
    filled initialValue before i = false
  common : Padded rows columns → ∀ before, before <+: calls → ∀ i j,
    filled initialValue before i = true → filled initialValue before j = true →
      (naive initialValue before i).Common (naive initialValue before j)

/-- The bits of the columns are the elements, and the others are all the same. -/
structure Represents (m : BitMatrix rows columns) (n : NaiveMatrix rows columns) (fill : Bool) :
    Prop where
  bit : ∀ (row : Fin rows) (column : Fin columns), m.bit row column = n row column
  padding : ∀ (row : Fin rows) column, columns ≤ column → column < 32 * wordsPerRow columns →
    m.bit row column = fill

variable {m m' : BitMatrix rows columns} {n n' : NaiveMatrix rows columns}

theorem Represents.update {matrices : Nat → BitMatrix rows columns}
    {naive : Nat → NaiveMatrix rows columns} {filled : Nat → Bool}
    (h : ∀ i, Represents (matrices i) (naive i) (filled i)) (hm : Represents m n fill) (k : Nat) :
    ∀ i, Represents (Function.update matrices k m i) (Function.update naive k n i)
      (Function.update filled k fill i) := by
  intro i
  by_cases hi : i = k
  · subst hi
    rw [Function.update_self, Function.update_self, Function.update_self]
    exact hm
  · rw [Function.update_of_ne hi, Function.update_of_ne hi, Function.update_of_ne hi]
    exact h i

theorem create_represents (hle : 0 < rows → columns ≤ 32 * wordsPerRow columns) (b : Bool) :
    Represents (create rows columns b) (fun _ _ => b) b where
  bit row column :=
    bit_create b row.2 (Nat.lt_of_lt_of_le column.2 (hle (Nat.zero_lt_of_lt row.2)))
  padding row _ _ hc := bit_create b row.2 hc

theorem Represents.setBit (h : Represents m n fill)
    (hle : 0 < rows → columns ≤ 32 * wordsPerRow columns) (column : Fin columns) (row : Fin rows)
    (value : Bool) : ∃ m', m.setBit column row value = .ok m' ∧
      Represents m' (fun row' column' => if row' = row ∧ column' = column then value
        else n row' column') fill := by
  have hc : column < 32 * wordsPerRow columns :=
    Nat.lt_of_lt_of_le column.2 (hle (Nat.zero_lt_of_lt row.2))
  obtain ⟨m', hm', hbit⟩ := m.setBit_ok row.2 hc value
  refine ⟨m', hm', ?_⟩
  constructor
  · intro row' column'
    rw [hbit row' row'.2 column', h.bit]
    simp only [Fin.ext_iff]
  · intro row' column' hge hlt
    rw [hbit row' row'.2 column', if_neg (by omega)]
    exact h.padding row' column' hge hlt

theorem Represents.setAllToZero (m : BitMatrix rows columns) :
    Represents m.setAllToZero (fun _ _ => false) false where
  bit row column := bit_setAllToZero m row.2 column
  padding row column _ _ := bit_setAllToZero m row.2 column

theorem Represents.setAllToOne (m : BitMatrix rows columns)
    (hle : 0 < rows → columns ≤ 32 * wordsPerRow columns) :
    Represents m.setAllToOne (fun _ _ => true) true where
  bit row column :=
    bit_setAllToOne m row.2 (Nat.lt_of_lt_of_le column.2 (hle (Nat.zero_lt_of_lt row.2)))
  padding row _ _ hc := bit_setAllToOne m row.2 hc

theorem Represents.orWith (h : Represents m n fill) (h' : Represents m' n' fill') :
    Represents (m.orWith m') (fun row column => n row column || n' row column) (fill || fill') := by
  constructor
  · intro row column
    rw [bit_orWith m m' row.2, h.bit, h'.bit]
  · intro row column hge hlt
    rw [bit_orWith m m' row.2, h.padding row column hge hlt, h'.padding row column hge hlt]

/-- The bit that comes into the last column is one that no column has. -/
theorem Represents.shiftLeft (h : Represents m n fill)
    (hfill : Padded rows columns → fill = false) : Represents m.shiftLeft n.shiftLeft fill := by
  constructor
  · intro row column
    rw [bit_shiftLeft m row.2, NaiveMatrix.shiftLeft]
    split
    · rename_i hnext
      exact h.bit row ⟨column + 1, hnext⟩
    · rename_i hlast
      by_cases hlt : column.1 + 1 < 32 * wordsPerRow columns
      · rw [h.padding row (column + 1) (Nat.not_lt.1 hlast) hlt]
        exact hfill ⟨Nat.zero_lt_of_lt row.2, by omega⟩
      · exact bit_of_ge m row (Nat.not_lt.1 hlt)
  · intro row column hge hlt
    have hpadded : Padded rows columns := ⟨Nat.zero_lt_of_lt row.2, by omega⟩
    rw [bit_shiftLeft m row.2, hfill hpadded]
    by_cases hlt' : column + 1 < 32 * wordsPerRow columns
    · rw [h.padding row (column + 1) (by omega) hlt', hfill hpadded]
    · exact bit_of_ge m row (Nat.not_lt.1 hlt')

/-- A call keeps the matrices those of the naive ones unless it shifts one whose bits beyond the
columns are set. -/
theorem call_represents {matrices : Nat → BitMatrix rows columns}
    {naive : Nat → NaiveMatrix rows columns} {filled : Nat → Bool}
    (h : ∀ i, Represents (matrices i) (naive i) (filled i))
    (hle : 0 < rows → columns ≤ 32 * wordsPerRow columns) (c : Call rows columns)
    (hc : Padded rows columns → ∀ i, c = .shiftLeft i → filled i = false) :
    ∃ matrices', call matrices c = .ok matrices' ∧
      ∀ i, Represents (matrices' i) (NaiveMatrix.call naive c i) (fillCall filled c i) := by
  cases c with
  | setBit i column row value =>
    obtain ⟨m', hm', hrep⟩ := (h i).setBit hle column row value
    refine ⟨Function.update matrices i m', ?_, ?_⟩
    · rw [call, hm']
      rfl
    · have hall := Represents.update h hrep i
      rwa [Function.update_eq_self] at hall
  | setAllToZero i => exact ⟨_, rfl, .update h (.setAllToZero (matrices i)) i⟩
  | setAllToOne i => exact ⟨_, rfl, .update h (.setAllToOne (matrices i) hle) i⟩
  | orWith i another => exact ⟨_, rfl, .update h ((h i).orWith (h another)) i⟩
  | copy i another =>
    refine ⟨_, rfl, ?_⟩
    rw [copy_eq]
    exact .update h (h another) i
  | shiftLeft i =>
    refine ⟨_, rfl, ?_⟩
    have hall := Represents.update h ((h i).shiftLeft fun hp => hc hp i rfl) i
    rwa [Function.update_eq_self] at hall

theorem Represents.bitAt (h : Represents m n fill)
    (hle : 0 < rows → columns ≤ 32 * wordsPerRow columns) (row : Fin rows) (column : Fin columns) :
    m.bitAt column row = .ok (n row column) := by
  rw [bitAt_ok m row.2 (Nat.lt_of_lt_of_le column.2 (hle (Nat.zero_lt_of_lt row.2))), h.bit]

/-- Two matrices conflict when they have an element in common or when the bits beyond the columns
are set in both. -/
theorem Represents.conflictsWith (h : Represents m n fill) (h' : Represents m' n' fill') :
    m.conflictsWith m' = true ↔
      n.Common n' ∨ Padded rows columns ∧ fill = true ∧ fill' = true := by
  rw [conflictsWith_iff]
  constructor
  · rintro ⟨row, hr, column, hb, hb'⟩
    by_cases hc : column < columns
    · refine .inl ⟨⟨row, hr⟩, ⟨column, hc⟩, ?_⟩
      rw [← h.bit ⟨row, hr⟩ ⟨column, hc⟩, ← h'.bit ⟨row, hr⟩ ⟨column, hc⟩]
      exact ⟨hb, hb'⟩
    · have hlt : column < 32 * wordsPerRow columns := by
        refine Nat.lt_of_not_le fun hge => ?_
        rw [bit_of_ge m row hge] at hb
        cases hb
      rw [h.padding ⟨row, hr⟩ column (Nat.not_lt.1 hc) hlt] at hb
      rw [h'.padding ⟨row, hr⟩ column (Nat.not_lt.1 hc) hlt] at hb'
      exact .inr ⟨⟨Nat.zero_lt_of_lt hr, by omega⟩, hb, hb'⟩
  · rintro (⟨row, column, hb, hb'⟩ | ⟨⟨hr, hlt⟩, hfill, hfill'⟩)
    · refine ⟨row, row.2, column, ?_⟩
      rw [h.bit, h'.bit]
      exact ⟨hb, hb'⟩
    · refine ⟨0, hr, columns, ?_⟩
      rw [h.padding ⟨0, hr⟩ columns (Nat.le_refl _) hlt,
        h'.padding ⟨0, hr⟩ columns (Nat.le_refl _) hlt]
      exact ⟨hfill, hfill'⟩

theorem Represents.rows_eq (h : Represents m n fill) :
    (List.range rows).map m.rowBits = n.bitString := by
  rw [NaiveMatrix.bitString, List.ofFn_eq_map, ← List.map_coe_finRange_eq_range, List.map_map]
  congr 1
  funext row
  rw [List.ofFn_eq_map, Function.comp, rowBits, ← List.map_coe_finRange_eq_range, List.map_map]
  congr 1
  funext column
  exact h.bit row column

theorem Represents.lessThan (h : Represents m n fill) (h' : Represents m' n' fill')
    (hle : 0 < rows → columns ≤ 32 * wordsPerRow columns) :
    m.lessThan m' = .ok (decide (n.Less n')) := by
  rcases Nat.eq_zero_or_pos rows with rfl | hpos
  · rfl
  · rw [lessThan_ok m m' (hle hpos), h.rows_eq, h'.rows_eq]
    rfl

theorem agrees_iff {matrices : Nat → BitMatrix rows columns}
    {naive : Nat → NaiveMatrix rows columns} {filled : Nat → Bool}
    (h : ∀ i, Represents (matrices i) (naive i) (filled i))
    (hle : 0 < rows → columns ≤ 32 * wordsPerRow columns) :
    Agrees matrices naive ↔ (Padded rows columns → ∀ i j, filled i = true → filled j = true →
      (naive i).Common (naive j)) := by
  constructor
  · intro hag hp i j hi hj
    apply (hag.conflictsWith i j).1
    exact ((h i).conflictsWith (h j)).2 (.inr ⟨hp, hi, hj⟩)
  · intro hcommon
    constructor
    · intro i
      exact (h i).bitAt hle
    · intro i j
      rw [(h i).conflictsWith (h j), or_iff_left_of_imp]
      rintro ⟨hp, hi, hj⟩
      exact hcommon hp i j hi hj
    · intro i j
      exact (h i).lessThan (h j) hle

theorem run_concat (initialValue : Nat → Bool) (calls : List (Call rows columns))
    (c : Call rows columns) :
    run initialValue (calls ++ [c]) = run initialValue calls >>= fun matrices =>
      call matrices c := by
  rw [run, run]
  split
  · rfl
  · exact foldlM_concat ..

theorem naive_concat (initialValue : Nat → Bool) (calls : List (Call rows columns))
    (c : Call rows columns) : naive initialValue (calls ++ [c]) =
      NaiveMatrix.call (naive initialValue calls) c := by
  rw [naive, List.foldl_append]
  rfl

theorem filled_concat (initialValue : Nat → Bool) (calls : List (Call rows columns))
    (c : Call rows columns) :
    filled initialValue (calls ++ [c]) = fillCall (filled initialValue calls) c := by
  rw [filled, List.foldl_append]
  rfl

/-- As long as no matrix is shifted whose bits beyond the columns are set, the matrices are those of
the naive ones. -/
theorem run_naive {initialValue : Nat → Bool} {calls : List (Call rows columns)}
    (hsize : rows * wordsPerRow columns < 2 ^ 31)
    (hle : 0 < rows → columns ≤ 32 * wordsPerRow columns)
    (hshift : Padded rows columns → ∀ before i after, calls = before ++ .shiftLeft i :: after →
      filled initialValue before i = false) :
    ∃ matrices, run initialValue calls = .ok matrices ∧ ∀ i, Represents (matrices i)
      (naive initialValue calls i) (filled initialValue calls i) := by
  induction calls using List.reverseRecOn with
  | nil =>
    refine ⟨_, if_neg (Nat.not_le.2 hsize), ?_⟩
    intro i
    exact create_represents hle (initialValue i)
  | append_singleton calls c ih =>
    obtain ⟨matrices, hrun, hrep⟩ := ih fun hp before i after heq => by
      apply hshift hp before i (after ++ [c])
      rw [heq, List.append_assoc, List.cons_append]
    obtain ⟨matrices', hcall, hrep'⟩ := call_represents hrep hle c fun hp i hc =>
      hshift hp calls i [] (by rw [hc])
    refine ⟨matrices', ?_, ?_⟩
    · rw [run_concat, hrun]
      exact hcall
    · rw [naive_concat, filled_concat]
      exact hrep'

theorem columns_pos (h : Padded rows columns) : 0 < columns := by
  refine Nat.pos_of_ne_zero fun hzero => ?_
  subst hzero
  exact absurd h.2 (by decide)

/-- Shifting brings a set bit into the last column, where the element is false. -/
theorem Represents.not_agrees_shiftLeft {matrices : Nat → BitMatrix rows columns}
    {naive : Nat → NaiveMatrix rows columns} (h : Represents (matrices i) n true)
    (hp : Padded rows columns) (hle : columns ≤ 32 * wordsPerRow columns) :
    ¬ Agrees (Function.update matrices i (matrices i).shiftLeft)
      (NaiveMatrix.call naive (.shiftLeft i)) := by
  intro hag
  have hpos := columns_pos hp
  have hlast := hag.bitAt i ⟨0, hp.1⟩ ⟨columns - 1, by omega⟩
  have hnext : columns - 1 + 1 = columns := Nat.sub_add_cancel hpos
  rw [Function.update_self, bitAt_ok _ hp.1 (by dsimp only; omega), bit_shiftLeft _ hp.1] at hlast
  dsimp only at hlast
  rw [hnext, h.padding ⟨0, hp.1⟩ columns (Nat.le_refl _) hp.2, NaiveMatrix.call,
    Function.update_self, NaiveMatrix.shiftLeft, dif_neg (by dsimp only; omega)] at hlast
  cases hlast

theorem Implements.left {initialValue : Nat → Bool} {calls calls' : List (Call rows columns)}
    (h : Implements initialValue (calls ++ calls')) : Implements initialValue calls :=
  ⟨h.1, fun before hbefore => h.2 before (hbefore.trans (List.prefix_append calls calls'))⟩

theorem Implements.size {initialValue : Nat → Bool} {calls : List (Call rows columns)}
    (h : Implements initialValue calls) : rows * wordsPerRow columns < 2 ^ 31 := by
  obtain ⟨matrices, hrun, _⟩ := h.2 [] List.nil_prefix
  refine Nat.lt_of_not_le fun hsize => ?_
  rw [run, if_pos hsize] at hrun
  cases hrun

/-- The last element of a matrix with lost columns cannot be read. -/
theorem Implements.columns_le {initialValue : Nat → Bool} {calls : List (Call rows columns)}
    (h : Implements initialValue calls) (hpos : 0 < rows) :
    columns ≤ 32 * wordsPerRow columns := by
  obtain ⟨matrices, _, hag⟩ := h.2 [] List.nil_prefix
  refine Nat.le_of_not_lt fun hlost => ?_
  have hlast := hag.bitAt 0 ⟨rows - 1, by omega⟩ ⟨columns - 1, by omega⟩
  rw [bitAt_undefined _ (by dsimp only; omega) (by dsimp only; omega)] at hlast
  cases hlast

theorem Implements.shiftLeft {initialValue : Nat → Bool} {calls : List (Call rows columns)}
    (h : Implements initialValue calls) (hp : Padded rows columns) :
    ∀ before i after, calls = before ++ .shiftLeft i :: after →
      filled initialValue before i = false := by
  induction calls using List.reverseRecOn with
  | nil =>
    intro before i after heq
    cases before with
    | nil => cases heq
    | cons c before => cases heq
  | append_singleton calls c ih =>
    intro before i after heq
    replace ih := ih h.left
    induction after using List.reverseRecOn with
    | nil =>
      obtain ⟨rfl, hc⟩ := List.append_inj' heq rfl
      cases hc
      obtain ⟨matrices, hrun, hrep⟩ := run_naive h.size h.columns_le fun _ => ih
      obtain ⟨matrices', hrun', hag⟩ := h.2 _ (List.prefix_refl _)
      rw [run_concat, hrun] at hrun'
      cases hrun'
      rw [naive_concat] at hag
      refine Bool.eq_false_iff.2 fun hfill => ?_
      have hi := hrep i
      rw [hfill] at hi
      exact hi.not_agrees_shiftLeft hp (h.columns_le hp.1) hag
    | append_singleton after c' _ =>
      rw [← List.cons_append, ← List.append_assoc] at heq
      exact ih before i after (List.append_inj' heq rfl).1

/-- The matrices are the naive ones in every state exactly when no column is lost, no matrix is
shifted whose bits beyond the columns are set, and any two such matrices have an element in
common. -/
theorem implements_iff (initialValue : Nat → Bool) (calls : List (Call rows columns)) :
    Implements initialValue calls ↔ Sound initialValue calls := by
  constructor
  · intro h
    refine ⟨h.size, h.columns_le, h.shiftLeft, ?_⟩
    rintro hp before ⟨after, rfl⟩
    obtain ⟨matrices, hrun, hrep⟩ := run_naive h.size h.columns_le h.left.shiftLeft
    obtain ⟨matrices', hrun', hag⟩ := h.2 before (List.prefix_append before after)
    rw [hrun] at hrun'
    cases hrun'
    exact (agrees_iff hrep h.columns_le).1 hag hp
  · intro h
    refine ⟨NaiveMatrix.less_isStrictTotalOrder, ?_⟩
    rintro before ⟨after, rfl⟩
    have hshift : Padded rows columns → ∀ before' i after',
        before = before' ++ .shiftLeft i :: after' → filled initialValue before' i = false := by
      intro hp before' i after' heq
      apply h.shiftLeft hp before' i (after' ++ after)
      rw [heq, List.append_assoc, List.cons_append]
    obtain ⟨matrices, hrun, hrep⟩ := run_naive h.size h.columns_le hshift
    refine ⟨matrices, hrun, (agrees_iff hrep h.columns_le).2 fun hp => ?_⟩
    exact h.common hp before (List.prefix_append before after)

/-- Shifting a matrix of ones brings another one into its last column. -/
theorem not_implements_shiftLeft :
    ¬ Implements (fun _ => true) [(Call.shiftLeft 0 : Call 1 5)] := by
  intro h
  obtain ⟨matrices, hrun, hag⟩ := h.2 _ (List.prefix_refl _)
  have hrun' : run (fun _ => true) [(Call.shiftLeft 0 : Call 1 5)] =
      .ok (Function.update (fun _ => create 1 5 true) 0 (create 1 5 true).shiftLeft) := rfl
  rw [hrun'] at hrun
  cases hrun
  have hlast := hag.bitAt 0 0 4
  revert hlast
  decide

end OpenAsip.BitMatrix
