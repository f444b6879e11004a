import Mathlib.Algebra.Ring.Nat
import OpenAsip.Outcomes

namespace OpenAsip
set_option autoImplicit true

/-- The nearest single precision number, on a tie the one with an even significand. -/
def toFloat (n : Nat) : Nat :=
  if n < 2 ^ 24 then n
  else
    let unit := 2 ^ (n.log2 - 23)
    let significand := n / unit
    if 2 * (n % unit) < unit ∨ 2 * (n % unit) = unit ∧ significand % 2 = 0 then significand * unit
    else (significand + 1) * unit

/-- `ceil(columns / 32.0f)`. Dividing a single precision number by 32 is exact. -/
def wordsPerRow (columns : Nat) : Nat := (toFloat columns + 31) / 32

/-- A matrix of bits in words of 32 bits, row after row. -/
structure BitMatrix (rows columns : Nat) where
  matrix : Vector (BitVec 32) (rows * wordsPerRow columns)
deriving DecidableEq

namespace BitMatrix
variable {rows columns : Nat}

def create (rows columns : Nat) (initialValue : Bool) : BitMatrix rows columns :=
  ⟨Vector.replicate _ (if initialValue then ~~~0#32 else 0#32)⟩

def bitAt (m : BitMatrix rows columns) (column row : Nat) : Outcome Bool :=
  match m.matrix[row * wordsPerRow columns + column / 32]? with
  | some word => .ok (word &&& 1#32 <<< (column % 32) != 0#32)
  | none => .error .undefined

def setBit (m : BitMatrix rows columns) (column row : Nat) (value : Bool) :
    Outcome (BitMatrix rows columns) :=
  let pos := row * wordsPerRow columns + column / 32
  if h : pos < rows * wordsPerRow columns then
    let mask := 1#32 <<< (column % 32)
    .ok ⟨m.matrix.set pos (if value then m.matrix[pos] ||| mask else m.matrix[pos] &&& ~~~mask) h⟩
  else .error .undefined

def orWith (m m' : BitMatrix rows columns) : BitMatrix rows columns :=
  ⟨Vector.zipWith (· ||| ·) m.matrix m'.matrix⟩

def conflictsWith (m m' : BitMatrix rows columns) : Bool :=
  (Vector.zipWith (· &&& ·) m.matrix m'.matrix).any (· != 0#32)

def setAllToZero (m : BitMatrix rows columns) : BitMatrix rows columns :=
  ⟨m.matrix.map fun _ => 0#32⟩

def setAllToOne (m : BitMatrix rows columns) : BitMatrix rows columns :=
  ⟨m.matrix.map fun _ => ~~~0#32⟩

/-- The copy constructor. -/
def copy (another : BitMatrix rows columns) : BitMatrix rows columns :=
  ⟨Vector.ofFn fun i => another.matrix[i]⟩

/-- The columns of words are shifted from the left, so that the word a bit comes from is still the
old one. -/
def shiftLeft (m : BitMatrix rows columns) : BitMatrix rows columns :=
  ⟨Vector.ofFn fun i : Fin (rows * wordsPerRow columns) =>
    if i % wordsPerRow columns + 1 < wordsPerRow columns then
      m.matrix[i] >>> 1 ||| m.matrix[i.1 + 1]?.getD 0#32 <<< 31
    else m.matrix[i] >>> 1⟩

/-- The bit of a column, which is 0 beyond the words of the row. -/
def bit (m : BitMatrix rows columns) (row column : Nat) : Bool :=
  decide (column < 32 * wordsPerRow columns) &&
    (m.matrix[row * wordsPerRow columns + column / 32]?.getD 0#32).getLsbD (column % 32)

/-- The comparison by `operator<` finds two matrices equal when all bits of their columns are. -/
def equals (m m' : BitMatrix rows columns) : Bool :=
  (List.range rows).all fun row => (List.range columns).all fun column =>
    m.bit row column == m'.bit row column

/-- The inner loop of `operator<`, which returns at the first element in which the rows differ. -/
def lessInRow (m m' : BitMatrix rows columns) (row : Nat) : List Nat → Outcome (Option Bool)
  | [] => .ok none
  | column :: rest => do
    let left ← m.bitAt column row
    let right ← m'.bitAt column row
    if left ≠ right then .ok (some (decide (left.toNat < right.toNat)))
    else lessInRow m m' row rest

def lessInRows (m m' : BitMatrix rows columns) : List Nat → Outcome Bool
  | [] => .ok false
  | row :: rest => do
    match ← lessInRow m m' row (List.range columns) with
    | some less => .ok less
    | none => lessInRows m m' rest

/-- `operator<`. -/
def lessThan (m m' : BitMatrix rows columns) : Outcome Bool := lessInRows m m' (List.range rows)

theorem index_lt {w q : Nat} (hr : row < rows) (hq : q < w) : row * w + q < rows * w :=
  calc row * w + q < row * w + w := Nat.add_lt_add_left hq _
    _ = (row + 1) * w := (Nat.succ_mul row w).symm
    _ ≤ rows * w := Nat.mul_le_mul_right w hr

theorem index_inj {w q q' : Nat} (hq : q < w) (hq' : q' < w) (h : row * w + q = row' * w + q') :
    row = row' ∧ q = q' := by
  have hpos : 0 < w := Nat.zero_lt_of_lt hq
  have hr : row = row' := by
    have hd := congrArg (· / w) h
    simpa only [Nat.mul_comm _ w, Nat.mul_add_div hpos, Nat.div_eq_of_lt hq, Nat.div_eq_of_lt hq',
      Nat.add_zero] using hd
  subst hr
  exact ⟨rfl, Nat.add_left_cancel h⟩

theorem word_lt {w : Nat} (hc : column < 32 * w) : column / 32 < w := by omega

theorem bit_of_ge (m : BitMatrix rows columns) (row : Nat) (h : 32 * wordsPerRow columns ≤ column) :
    m.bit row column = false := by
  rw [bit, decide_eq_false (Nat.not_lt.2 h), Bool.false_and]

/-- In the words of a row the bit is the one of the word. -/
theorem bit_eq (m : BitMatrix rows columns) (hc : column < 32 * wordsPerRow columns)
    (hi : row * wordsPerRow columns + column / 32 < rows * wordsPerRow columns) :
    m.bit row column = m.matrix[row * wordsPerRow columns + column / 32].getLsbD (column % 32) := by
  rw [bit, decide_eq_true hc, Bool.true_and, Vector.getElem?_eq_getElem hi, Option.getD_some]

theorem and_mask_ne_zero (word : BitVec 32) (hk : k < 32) :
    (word &&& 1#32 <<< k != 0#32) = word.getLsbD k := by
  have htwo : BitVec.twoPow 32 k ≠ 0#32 := by
    intro h
    have hb := congrArg (BitVec.getLsbD · k) h
    simp [hk] at hb
  rw [← BitVec.twoPow_eq, BitVec.and_twoPow]
  cases word.getLsbD k with
  | false => rfl
  | true => exact bne_iff_ne.2 htwo

theorem getLsbD_or_mask (word : BitVec 32) (hk : k < 32) :
    (word ||| 1#32 <<< k).getLsbD i = if i = k then true else word.getLsbD i := by
  rw [← BitVec.twoPow_eq, BitVec.getLsbD_or, BitVec.getLsbD_twoPow]
  by_cases h : i = k
  · simp [h, hk]
  · simp [h, Ne.symm h]

theorem getLsbD_and_mask (word : BitVec 32) (hk : k < 32) (hi : i < 32) :
    (word &&& ~~~(1#32 <<< k)).getLsbD i = if i = k then false else word.getLsbD i := by
  rw [← BitVec.twoPow_eq, BitVec.getLsbD_and, BitVec.getLsbD_not, BitVec.getLsbD_twoPow]
  by_cases h : i = k
  · simp [h, hk]
  · simp [h, Ne.symm h, hi]

theorem bitAt_ok (m : BitMatrix rows columns) (hr : row < rows)
    (hc : column < 32 * wordsPerRow columns) : m.bitAt column row = .ok (m.bit row column) := by
  have hi := index_lt hr (word_lt hc)
  rw [bitAt, Vector.getElem?_eq_getElem hi, bit_eq m hc hi]
  dsimp only
  rw [and_mask_ne_zero _ (Nat.mod_lt _ (by decide))]

/-- The last row has no word for a column that the rounding has lost. -/
theorem bitAt_undefined (m : BitMatrix rows columns) (hr : rows ≤ row + 1)
    (hc : 32 * wordsPerRow columns ≤ column) : m.bitAt column row = .error .undefined := by
  have hle : rows * wordsPerRow columns ≤ (row + 1) * wordsPerRow columns :=
    Nat.mul_le_mul_right _ hr
  rw [Nat.succ_mul] at hle
  rw [bitAt, Vector.getElem?_eq_none (by omega)]

theorem setBit_ok (m : BitMatrix rows columns) (hr : row < rows)
    (hc : column < 32 * wordsPerRow columns) (value : Bool) :
    ∃ m', m.setBit column row value = .ok m' ∧ ∀ row' < rows, ∀ column',
      m'.bit row' column' = if row' = row ∧ column' = column then value else m.bit row' column' := by
  have hk : column % 32 < 32 := Nat.mod_lt _ (by decide)
  rw [setBit]
  dsimp only
  rw [dif_pos (index_lt hr (word_lt hc))]
  refine ⟨_, rfl, fun row' hr' column' => ?_⟩
  by_cases hc' : column' < 32 * wordsPerRow columns
  · have hk' : column' % 32 < 32 := Nat.mod_lt _ (by decide)
    have hi' := index_lt hr' (word_lt hc')
    rw [bit_eq _ hc' hi', bit_eq m hc' hi', Vector.getElem_set]
    by_cases hpos : row * wordsPerRow columns + column / 32 =
        row' * wordsPerRow columns + column' / 32
    · obtain ⟨hrow, hword⟩ := index_inj (word_lt hc) (word_lt hc') hpos
      subst hrow
      have hcol : column' % 32 = column % 32 ↔ column' = column := by omega
      rw [if_pos hpos]
      cases value with
      | true =>
        rw [if_pos rfl, getLsbD_or_mask _ hk]
        simp only [hcol, hpos, true_and]
      | false =>
        rw [if_neg Bool.false_ne_true, getLsbD_and_mask _ hk hk']
        simp only [hcol, hpos, true_and]
    · rw [if_neg hpos, if_neg]
      rintro ⟨rfl, rfl⟩
      exact hpos rfl
  · rw [bit_of_ge _ _ (Nat.not_lt.1 hc'), bit_of_ge _ _ (Nat.not_lt.1 hc'), if_neg]
    rintro ⟨-, rfl⟩
    exact hc' hc

theorem setBit_undefined (m : BitMatrix rows columns) (hr : rows ≤ row + 1)
    (hc : 32 * wordsPerRow columns ≤ column) (value : Bool) :
    m.setBit column row value = .error .undefined := by
  have hle : rows * wordsPerRow columns ≤ (row + 1) * wordsPerRow columns :=
    Nat.mul_le_mul_right _ hr
  rw [Nat.succ_mul] at hle
  rw [setBit]
  dsimp only
  rw [dif_neg (by omega)]

theorem bit_create_false (hr : row < rows) (column : Nat) :
    (create rows columns false).bit row column = false := by
  by_cases hc : column < 32 * wordsPerRow columns
  · rw [bit_eq _ hc (index_lt hr (word_lt hc))]
    simp [create]
  · exact bit_of_ge _ _ (Nat.not_lt.1 hc)

theorem bit_setAllToZero (m : BitMatrix rows columns) (hr : row < rows) (column : Nat) :
    m.setAllToZero.bit row column = false := by
  by_cases hc : column < 32 * wordsPerRow columns
  · rw [bit_eq _ hc (index_lt hr (word_lt hc))]
    simp [setAllToZero]
  · exact bit_of_ge _ _ (Nat.not_lt.1 hc)

theorem getLsbD_ones (hk : k < 32) : (~~~0#32).getLsbD k = true := by
  rw [BitVec.getLsbD_not, BitVec.getLsbD_zero, decide_eq_true hk]
  rfl

/-- The words are filled, also those bits that no column of the matrix has. -/
theorem bit_setAllToOne (m : BitMatrix rows columns) (hr : row < rows)
    (hc : column < 32 * wordsPerRow columns) : m.setAllToOne.bit row column = true := by
  rw [bit_eq _ hc (index_lt hr (word_lt hc))]
  simp only [setAllToOne, Vector.getElem_map]
  exact getLsbD_ones (Nat.mod_lt _ (by decide))

theorem bit_create (initialValue : Bool) (hr : row < rows)
    (hc : column < 32 * wordsPerRow columns) :
    (create rows columns initialValue).bit row column = initialValue := by
  cases initialValue with
  | false => exact bit_create_false hr column
  | true =>
    rw [bit_eq _ hc (index_lt hr (word_lt hc))]
    simp only [create, Vector.getElem_replicate, if_true]
    exact getLsbD_ones (Nat.mod_lt _ (by decide))

theorem copy_eq (m : BitMatrix rows columns) : m.copy = m := by
  rw [copy]
  congr 1
  exact Vector.ofFn_getElem

theorem bit_orWith (m m' : BitMatrix rows columns) (hr : row < rows) (column : Nat) :
    (m.orWith m').bit row column = (m.bit row column || m'.bit row column) := by
  by_cases hc : column < 32 * wordsPerRow columns
  · have hi := index_lt hr (word_lt hc)
    rw [bit_eq _ hc hi, bit_eq _ hc hi, bit_eq _ hc hi]
    simp [orWith]
  · rw [bit_of_ge _ _ (Nat.not_lt.1 hc), bit_of_ge _ _ (Nat.not_lt.1 hc),
      bit_of_ge _ _ (Nat.not_lt.1 hc), Bool.or_self]

theorem bit_shiftLeft (m : BitMatrix rows columns) (hr : row < rows) (column : Nat) :
    m.shiftLeft.bit row column = m.bit row (column + 1) := by
  by_cases hc : column < 32 * wordsPerRow columns
  · have hw : column / 32 < wordsPerRow columns := word_lt hc
    have hmod : (row * wordsPerRow columns + column / 32) % wordsPerRow columns = column / 32 := by
      rw [Nat.mul_comm, Nat.mul_add_mod, Nat.mod_eq_of_lt hw]
    rw [bit_eq _ hc (index_lt hr (word_lt hc))]
    simp only [shiftLeft, Vector.getElem_ofFn, hmod]
    by_cases hk : column % 32 < 31
    · have hc' : column + 1 < 32 * wordsPerRow columns := by omega
      have hword : (column + 1) / 32 = column / 32 := by omega
      have hbit : (column + 1) % 32 = 1 + column % 32 := by omega
      rw [bit_eq m hc' (index_lt hr (word_lt hc'))]
      simp only [hword, hbit]
      split
      · rw [BitVec.getLsbD_or, BitVec.getLsbD_shiftLeft, decide_eq_true hk]
        simp
      · simp
    · have hbit : column % 32 = 31 := by omega
      split
      · rename_i hnext
        have hc' : column + 1 < 32 * wordsPerRow columns := by omega
        have hword : (column + 1) / 32 = column / 32 + 1 := by omega
        have hbit' : (column + 1) % 32 = 0 := by omega
        rw [bit_eq m hc' (index_lt hr (word_lt hc'))]
        simp only [hword, hbit, hbit', BitVec.getLsbD_or, BitVec.getLsbD_ushiftRight,
          BitVec.getLsbD_shiftLeft]
        rw [Nat.add_assoc, Vector.getElem?_eq_getElem (index_lt hr hnext)]
        simp
      · rename_i hnext
        rw [bit_of_ge m row (by omega), hbit]
        simp
  · rw [bit_of_ge _ _ (Nat.not_lt.1 hc), bit_of_ge _ _ (by omega)]

theorem bit_word (m : BitMatrix rows columns) {i k : Nat} (hi : i < rows * wordsPerRow columns)
    (hk : k < 32) : m.bit (i / wordsPerRow columns) (32 * (i % wordsPerRow columns) + k) =
      m.matrix[i].getLsbD k := by
  have hpos : 0 < wordsPerRow columns :=
    Nat.pos_of_ne_zero fun h => by rw [h, Nat.mul_zero] at hi; cases hi
  have hlt := Nat.mod_lt i hpos
  have hword : (32 * (i % wordsPerRow columns) + k) / 32 = i % wordsPerRow columns := by omega
  have hbit : (32 * (i % wordsPerRow columns) + k) % 32 = k := by omega
  rw [bit, hword, hbit, Nat.div_add_mod', Vector.getElem?_eq_getElem hi, decide_eq_true (by omega)]
  rfl

theorem exists_getLsbD (word : BitVec 32) (h : word ≠ 0#32) : ∃ k < 32, word.getLsbD k = true := by
  rw [← not_forall_not]
  intro hall
  refine h (BitVec.eq_of_getLsbD_eq fun k hk => ?_)
  rw [BitVec.getLsbD_zero]
  exact Bool.eq_false_iff.2 fun hb => hall k ⟨hk, hb⟩

theorem conflictsWith_iff (m m' : BitMatrix rows columns) : m.conflictsWith m' = true ↔
    ∃ row < rows, ∃ column, m.bit row column = true ∧ m'.bit row column = true := by
  rw [conflictsWith, Vector.any_eq_true]
  constructor
  · rintro ⟨i, hi, hne⟩
    rw [Vector.getElem_zipWith, bne_iff_ne] at hne
    obtain ⟨k, hk, hb⟩ := exists_getLsbD _ hne
    rw [BitVec.getLsbD_and, Bool.and_eq_true] at hb
    refine ⟨i / wordsPerRow columns, Nat.div_lt_of_lt_mul (by rwa [Nat.mul_comm]),
      32 * (i % wordsPerRow columns) + k, ?_⟩
    rw [bit_word m hi hk, bit_word m' hi hk]
    exact hb
  · rintro ⟨row, hr, column, hb, hb'⟩
    have hc : column < 32 * wordsPerRow columns := by
      refine Nat.lt_of_not_le fun hle => ?_
      rw [bit_of_ge m row hle] at hb
      cases hb
    rw [bit_eq m hc (index_lt hr (word_lt hc))] at hb
    rw [bit_eq m' hc (index_lt hr (word_lt hc))] at hb'
    refine ⟨row * wordsPerRow columns + column / 32, index_lt hr (word_lt hc), ?_⟩
    rw [Vector.getElem_zipWith, bne_iff_ne]
    intro h
    have hbit := congrArg (BitVec.getLsbD · (column % 32)) h
    simp only [BitVec.getLsbD_and, hb, hb', BitVec.getLsbD_zero] at hbit
    cases hbit

theorem equals_iff (m m' : BitMatrix rows columns) : m.equals m' = true ↔
    ∀ row < rows, ∀ column < columns, m.bit row column = m'.bit row column := by
  simp only [equals, List.all_eq_true, List.mem_range, beq_iff_eq]

end BitMatrix

/-- No column is lost as long as the number of columns is a single precision number. -/
theorem le_wordsPerRow (h : columns < 2 ^ 24) : columns ≤ 32 * wordsPerRow columns := by
  rw [wordsPerRow, toFloat, if_pos h]
  omega

end OpenAsip
