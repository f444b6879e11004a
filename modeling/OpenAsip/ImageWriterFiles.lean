import OpenAsip.ImageWriterRows

namespace OpenAsip
set_option autoImplicit true

namespace PIG

theorem writeHexSequence_ok {bits : List Bool} (hpos : 0 < length)
    (hend : next + length ≤ bits.length) (hlt : next + length < 2 ^ 32)
    (hrow : 4 * ((length + 3) / 4) < 2 ^ 31) :
    writeHexSequence bits next length false =
      .ok (hexRow length ((bits.drop next).take length), next + length) := by
  have hlast : (next + length + 2 ^ 32 - 1) % 2 ^ 32 = next + length - 1 := by omega
  have hcount : next + length - 1 + 1 - next = length := by omega
  have hcheck : ¬ (bits.length ≤ next + length - 1 ∧ true) := fun h => by omega
  have htake : ((bits.drop next).take length).length = length := by
    rw [List.length_take, List.length_drop]
    omega
  have hpad : (List.replicate (4 * ((length + 3) / 4) - length) false ++
      (bits.drop next).take length).length = 4 * ((length + 3) / 4) := by
    rw [List.length_append, List.length_replicate, htake]
    omega
  have hzeros : (length + 3) / 4 * 4 - ((bits.drop next).take length).length =
      4 * ((length + 3) / 4) - length := by
    rw [htake, Nat.mul_comm]
  simp only [writeHexSequence, hlast, hcount, hpad]
  rw [if_neg (by omega), if_neg (by omega), if_neg (by omega), if_neg (by omega),
    Nat.mul_div_cancel_left _ (by decide), Nat.mod_eq_of_lt hlt, hexRow, grouped, hzeros]

/-- A first row that is written has not too many bits. -/
theorem writeHexSequence_lt (h : writeHexSequence bits next length padEnd = .ok written) :
    4 * ((length + 3) / 4) < 2 ^ 31 := by
  simp only [writeHexSequence] at h
  split at h
  · cases h
  · split at h
    · cases h
    · split at h
      · cases h
      · rename_i hlt
        exact Nat.not_le.1 hlt

section Whole
variable {bits : List Bool} {rowLength : Nat}

theorem length_emptyRow (rowLength : Nat) :
    (List.leftpad (rowLength / 4) '0' ['0']).length = max 1 (rowLength / 4) := by
  rw [List.length_leftpad, List.length_singleton, Nat.max_comm]

theorem emptyRow_eq (h : max 1 (rowLength / 4) = (rowLength + 3) / 4) :
    List.leftpad (rowLength / 4) '0' ['0'] = hexRow rowLength (List.replicate rowLength false) := by
  have hrow : hexRow rowLength (List.replicate rowLength false) =
      List.replicate ((rowLength + 3) / 4) '0' := by
    rw [hexRow, grouped_replicate (by omega), List.map_replicate]
    rfl
  rw [hrow, List.eq_replicate_iff]
  refine ⟨(length_emptyRow rowLength).trans h, ?_⟩
  intro c hc
  rcases List.mem_append.1 hc with hzero | hlast
  · exact List.eq_of_mem_replicate hzero
  · exact List.mem_singleton.1 hlast

theorem hex_eq (hpos : 0 < rowLength) (h : WholeRows bits.length rowLength) :
    hexImage bits rowLength = .ok (hexLayout rowLength (imageRows bits rowLength)) := by
  have hmul := Nat.div_mul_cancel h.dvd
  rw [hexImage, lineCount_eq hpos h.dvd h.size_lt, toCInt, if_pos h.rows_lt]
  change (if bits.length / rowLength = 0 then _ else _) = _
  by_cases hzero : bits.length / rowLength = 0
  · obtain ⟨hlast, hfirst⟩ := digits_lastRow hzero h.dvd
    rw [hzero, Nat.zero_mul] at hmul
    rw [if_pos hzero, emptyRow_eq (h.empty hmul.symm), imageRows_eq, hfirst, hlast]
    exact congrArg Except.ok (List.append_nil _).symm
  · have hsome : bits.length ≠ 0 := by
      intro hnone
      rw [hnone, Nat.zero_div] at hzero
      exact hzero rfl
    have hall : bits ++ List.replicate 0 false = filled bits rowLength := by
      rw [filled, if_neg (by rintro rfl; exact hsome rfl)]
    have hrows : imageRows bits rowLength = rowsOf rowLength (bits.length / rowLength) bits := by
      rw [imageRows, Nat.max_eq_right (Nat.pos_of_ne_zero hzero), ← hall]
      exact congrArg _ (List.append_nil bits)
    have hlines : writeRows (writeHexSequence bits · rowLength false) (fun _ row => row ++ ['\n'])
        (bits.length / rowLength) 0 0 =
          .ok (numbered (fun _ row => hexRow rowLength row ++ ['\n']) 0
            (rowsOf rowLength (bits.length / rowLength) bits),
            bits.length / rowLength * rowLength) := by
      apply writeRows_zero fun _ row => row ++ ['\n']
      intro i hi
      have hend : (i + 1) * rowLength ≤ bits.length / rowLength * rowLength :=
        Nat.mul_le_mul_right _ hi
      rw [hmul, Nat.succ_mul] at hend
      have hlt := h.size_lt
      rw [Nat.succ_mul]
      exact writeHexSequence_ok hpos hend (Nat.lt_of_le_of_lt hend hlt) (h.hex hsome)
    rw [if_neg hzero, hlines, hrows, hexLayout, ← numbered_eq_flatMap _ 0]
    rfl

end Whole

/-- The byte of some bits, which are at most eight and all of which are there. -/
theorem character_ok {bits : List Bool} (hpos : 0 < length) (hle : length ≤ 8)
    (hend : start + length ≤ bits.length) :
    character bits start length = .ok (binaryValue ((bits.drop start).take length)) := by
  have hin : start < bits.length := by omega
  have hfold : ∀ k, k + 1 ≤ length →
      (List.range' 1 k).foldl
        (fun character i => 2 * character % 2 ^ 8 + (bits[start + i]?.getD false).toNat)
        bits[start].toNat = binaryValue ((bits.drop start).take (k + 1)) := by
    intro k hk
    induction k with
    | zero =>
      rw [List.take_one, List.head?_drop, List.getElem?_eq_getElem hin]
      exact (Nat.zero_add _).symm
    | succ k ih =>
      have hnext : start + (k + 1) < bits.length := by omega
      have hvalue := binaryValue_lt ((bits.drop start).take (k + 1))
      have hsize : 2 ^ ((bits.drop start).take (k + 1)).length ≤ 2 ^ 7 :=
        Nat.pow_le_pow_right (by decide) ((List.length_take_le ..).trans (by omega))
      have htake : (bits.drop start).take (k + 1 + 1) =
          (bits.drop start).take (k + 1) ++ [bits[start + (k + 1)]] := by
        rw [List.take_add_one, List.getElem?_drop, List.getElem?_eq_getElem hnext]
        rfl
      rw [List.range'_concat, List.foldl_append, ih (by omega), htake, binaryValue_concat]
      simp only [List.foldl_cons, List.foldl_nil, Nat.one_mul, Nat.add_comm 1,
        List.getElem?_eq_getElem hnext, Option.getD_some]
      rw [Nat.mod_eq_of_lt (by omega)]
  have hfirst : (if (bits[start] && decide (0 < length)) = true then 1 else 0) =
      bits[start].toNat := by
    rw [decide_eq_true hpos, Bool.and_true]
    cases bits[start] with
    | false => rfl
    | true => rfl
  have hall := hfold (length - 1) (by omega)
  rw [Nat.sub_add_cancel hpos] at hall
  simp only [character, List.getElem?_eq_getElem hin, hfirst, hall]

theorem fullBytes_ok {bits : List Bool} (hend : start + 8 * count ≤ bits.length) :
    (List.range count).mapM (fun i => character bits (start + 8 * i) 8) =
      .ok ((rowsOf 8 count (bits.drop start)).map binaryValue) := by
  rw [rowsOf, List.map_map]
  apply Except.mapM_eq
  intro i hi
  have hlt := List.mem_range.1 hi
  rw [character_ok (by decide) (by decide) (by omega), Function.comp, List.drop_drop,
    Nat.mul_comm i]

theorem bin2nSequence_ok {bits : List Bool} (hpos : 0 < length)
    (hend : next + length ≤ bits.length) :
    bin2nSequence bits next length = .ok
      ((grouped 8 (rowBytes length) ((bits.drop next).take length)).reverse, next + length) := by
  have hlast : next + length - 1 + 1 = next + length := by omega
  have hcount : (next + length - 1 + 8 - (next + length % 8)) / 8 = length / 8 := by omega
  have htake : ((bits.drop next).take length).length = length := by
    rw [List.length_take, List.length_drop]
    omega
  have hfull : (List.range (length / 8)).mapM
      (fun i => character bits (next + length % 8 + 8 * i) 8) =
        .ok ((rowsOf 8 (length / 8) (bits.drop (next + length % 8))).map binaryValue) :=
    fullBytes_ok (by omega)
  have hdrop : (((bits.drop next).take length).drop (length % 8)).length = length / 8 * 8 := by
    rw [List.length_drop, htake]
    omega
  have hrest : (rowsOf 8 (length / 8) (bits.drop (next + length % 8))).map binaryValue =
      grouped 8 (length / 8) (((bits.drop next).take length).drop (length % 8)) := by
    have hwhole : length - length % 8 = length / 8 * 8 := by omega
    rw [grouped_whole hdrop, List.drop_take, hwhole, List.drop_drop, rowsOf_take]
    rw [List.length_drop]
    omega
  rw [hrest] at hfull
  simp only [bin2nSequence, hlast, hcount, hfull]
  rw [if_neg (Nat.ne_of_gt hpos)]
  by_cases hpartial : length % 8 = 0
  · have hbytes : (length + 7) / 8 = length / 8 := by omega
    rw [if_neg (fun h => h hpartial), rowBytes, hbytes, grouped_add (by omega), hpartial]
    simp only [List.drop_zero]
    exact congrArg (fun l => Except.ok (List.reverse l, _))
      (congrArg (· ++ _) (List.append_nil _))
  · have hbytes : (length + 7) / 8 = length / 8 + 1 := by omega
    have hchar : character bits next (length % 8) =
        .ok (binaryValue ((bits.drop next).take (length % 8))) :=
      character_ok (Nat.pos_of_ne_zero hpartial) (by omega) (by omega)
    have hhead : ((bits.drop next).take length).take (length % 8) =
        (bits.drop next).take (length % 8) := by
      rw [List.take_take, Nat.min_eq_left (Nat.mod_le ..)]
    have hparts : grouped 8 (length / 8 + 1) ((bits.drop next).take length) =
        binaryValue (((bits.drop next).take length).take (length % 8)) ::
          grouped 8 (length / 8) (((bits.drop next).take length).drop (length % 8)) :=
      grouped_partial (by omega) (by omega)
    rw [if_pos hpartial, hchar, rowBytes, hbytes, grouped_add (by omega), hparts, hhead]
    exact congrArg (fun l => Except.ok (List.reverse l, _)) (List.append_assoc ..)

/-- The file has the whole rows among the bits that an `unsigned int` counts. -/
theorem bin2n_eq (hpos : 0 < rowLength) (bits : List Bool) :
    bin2nImage bits rowLength = .ok (bin2nLayout rowLength
      (rowsOf rowLength (bits.length % 2 ^ 32 / rowLength) bits)) := by
  have hlines : writeRows (bin2nSequence bits · rowLength) (fun _ row => row)
      (bits.length % 2 ^ 32 / rowLength) 0 0 =
        .ok (numbered (fun _ row => (grouped 8 (rowBytes rowLength) row).reverse) 0
          (rowsOf rowLength (bits.length % 2 ^ 32 / rowLength) bits),
          bits.length % 2 ^ 32 / rowLength * rowLength) := by
    apply writeRows_zero fun _ row => row
    intro i hi
    have hend : (i + 1) * rowLength ≤ bits.length := calc
      (i + 1) * rowLength ≤ bits.length % 2 ^ 32 / rowLength * rowLength :=
        Nat.mul_le_mul_right _ hi
      _ ≤ bits.length % 2 ^ 32 := Nat.div_mul_le_self ..
      _ ≤ bits.length := Nat.mod_le ..
    rw [Nat.succ_mul] at hend ⊢
    exact bin2nSequence_ok hpos hend
  rw [bin2nImage, hlines, bin2nLayout, ← numbered_eq_flatMap _ 0]
  rfl

theorem IsImage.length_rows {bits : List Bool} (h : IsImage bits rowLength rows) :
    ∃ zeros, rows.length * rowLength = bits.length + zeros ∧
      (zeros < rowLength ∨ bits = [] ∧ zeros = rowLength) := by
  obtain ⟨zeros, hflatten, hzeros⟩ := h.flatten_eq
  refine ⟨zeros, ?_, hzeros⟩
  have hlength := congrArg List.length hflatten
  rw [List.length_append, List.length_replicate, List.length_flatten,
    List.map_eq_replicate_iff.2 h.length_eq, List.sum_replicate_nat] at hlength
  exact hlength

/-- The writer of the bytes has all the bits only if they are whole rows. -/
theorem bin2n_whole (hpos : 0 < rowLength) {bits : List Bool}
    (h : Writes (bin2nLayout rowLength) (bin2nImage bits rowLength) bits rowLength) :
    rowLength ∣ bits.length ∧ bits.length < 2 ^ 32 := by
  obtain ⟨rows, himage, hwritten, honly⟩ := h
  have hle : bits.length % 2 ^ 32 / rowLength * rowLength ≤ bits.length :=
    (Nat.div_mul_le_self ..).trans (Nat.mod_le ..)
  rw [bin2n_eq hpos] at hwritten
  have hrows := honly _ (fun row hrow => length_of_mem_rowsOf hle hrow) (Except.ok.inj hwritten)
  obtain ⟨zeros, hlength, _⟩ := himage.length_rows
  rw [← hrows, length_rowsOf] at hlength
  have heq : bits.length % 2 ^ 32 / rowLength * rowLength = bits.length := by omega
  constructor
  · exact ⟨_, heq.symm.trans (Nat.mul_comm ..)⟩
  · have hmod := Nat.div_mul_le_self (bits.length % 2 ^ 32) rowLength
    have hlt := Nat.mod_lt bits.length (Nat.two_pow_pos 32)
    omega

theorem toCInt_lt (h : toCInt x = .ok y) : x < 2 ^ 31 := by
  rw [toCInt] at h
  split at h
  · rename_i hlt
    exact hlt
  · cases h

theorem array_rows (hpos : 0 < rowLength) (hdvd : rowLength ∣ bits.length)
    (hlt : bits.length < 2 ^ 32) (h : arrayImage bits rowLength = .ok text) :
    bits.length / rowLength < 2 ^ 31 := by
  rw [arrayImage, lineCount_eq hpos hdvd hlt] at h
  obtain ⟨count, hcount, _⟩ := Except.bind_ok h
  exact toCInt_lt hcount

/-- What is written is always digits. -/
theorem writeSequence_digits (h : writeSequence bits next length padEnd = .ok (row, next')) :
    ∃ piece, row = digits piece := by
  simp only [writeSequence] at h
  split at h
  · cases h
  · split at h
    · cases h
    · cases h
      refine ⟨(List.range' next ((next + length + 2 ^ 32 - 1) % 2 ^ 32 + 1 - next)).map
        fun index => bits[index]?.getD false, ?_⟩
      rw [digits, List.map_map]
      rfl

theorem writeRows_digits (h : writeRows (writeSequence bits · rowLength padEnd) line count start
    next = .ok (text, next')) : ∃ rows : List (List Bool), rows.length = count ∧
      text = numbered (fun address row => line address (digits row)) start rows := by
  induction count generalizing start next next' text with
  | zero =>
    cases h
    exact ⟨[], rfl, rfl⟩
  | succ count ih =>
    rw [writeRows] at h
    obtain ⟨⟨row, rowEnd⟩, hrow, h⟩ := Except.bind_ok h
    obtain ⟨⟨rest, restEnd⟩, hrest, h⟩ := Except.bind_ok h
    obtain ⟨piece, rfl⟩ := writeSequence_digits hrow
    obtain ⟨rows, hcount, rfl⟩ := ih hrest
    cases h
    exact ⟨piece :: rows, congrArg (· + 1) hcount, rfl⟩

theorem mif_depth (h : mifImage bits rowLength = .ok text) :
    ∃ rows : List (List Bool), text = mifLayout rowLength rows ∧
      rows.length = max 1 (mifWordCount bits.length rowLength) := by
  rw [mifImage] at h
  obtain ⟨count, hcount, h⟩ := Except.bind_ok h
  rw [toCInt, if_pos (toCInt_lt hcount)] at hcount
  cases hcount
  by_cases hzero : mifWordCount bits.length rowLength = 0
  · rw [if_pos hzero] at h
    cases h
    refine ⟨[List.replicate rowLength false], ?_, ?_⟩
    · simp [mifLayout, numbered, digits, bitChar]
    · rw [hzero]
      rfl
  · rw [if_neg hzero] at h
    obtain ⟨⟨lines, linesEnd⟩, hlines, h⟩ := Except.bind_ok h
    obtain ⟨⟨last, lastEnd⟩, hlast, h⟩ := Except.bind_ok h
    obtain ⟨rows, hrows, rfl⟩ := writeRows_digits hlines
    obtain ⟨piece, rfl⟩ := writeSequence_digits hlast
    cases h
    have hlength : (rows ++ [piece]).length = mifWordCount bits.length rowLength := by
      rw [List.length_append, hrows, List.length_singleton]
      omega
    refine ⟨rows ++ [piece], ?_, ?_⟩
    · rw [mifLayout, hlength, numbered_append, hrows, Nat.zero_add]
      simp only [numbered, List.append_nil]
    · rw [hlength, Nat.max_eq_right (Nat.pos_of_ne_zero hzero)]

theorem toFloat_pos (hpos : 0 < n) : 0 < toFloat n := by
  rw [toFloat]
  split
  · exact hpos
  · have hunit : 0 < 2 ^ (n.log2 - 23) := Nat.two_pow_pos _
    have hle : 2 ^ (n.log2 - 23) ≤ n :=
      (Nat.pow_le_pow_right (by decide) (Nat.sub_le ..)).trans (Nat.log2_self_le hpos.ne')
    have hsignificand := Nat.div_pos hle hunit
    dsimp only
    split
    · exact Nat.mul_pos hsignificand hunit
    · exact Nat.mul_pos (Nat.succ_pos _) hunit

theorem ceilQuotient_self (hpos : 0 < x) : ceilQuotient precision x x = 1 := by
  have h : ceilQuotient precision (1 * x) x = 1 :=
    ceilQuotient_mul hpos (Nat.one_lt_two_pow (Nat.succ_ne_zero _))
  rw [Nat.one_mul] at h
  exact h

theorem mifWordCount_zero (hpos : 0 < rowLength) : mifWordCount 0 rowLength = 0 := by
  have hzero : toFloat 0 = 0 := rfl
  rw [mifWordCount, hzero, ceilQuotient, if_pos (toFloat_pos hpos), if_pos rfl]

theorem mif_count (hpos : 0 < rowLength) {bits : List Bool} (hdvd : rowLength ∣ bits.length)
    (hsome : bits.length ≠ 0)
    (h : Writes (mifLayout rowLength) (mifImage bits rowLength) bits rowLength) :
    mifWordCount bits.length rowLength = bits.length / rowLength := by
  obtain ⟨rows, himage, hwritten, _⟩ := h
  obtain ⟨rows', htext, hdepth⟩ := mif_depth hwritten
  have hcount := congrArg (List.count '\n') htext
  rw [count_mifLayout, count_mifLayout] at hcount
  obtain ⟨zeros, hlength, hzeros⟩ := himage.length_rows
  have hfew : zeros < rowLength := by
    rcases hzeros with hfew | ⟨rfl, _⟩
    · exact hfew
    · exact (hsome rfl).elim
  have hnone : zeros = 0 := by
    have hboth : rowLength ∣ bits.length + zeros := ⟨_, hlength.symm.trans (Nat.mul_comm ..)⟩
    exact Nat.eq_zero_of_dvd_of_lt ((Nat.dvd_add_right hdvd).1 hboth) hfew
  have hrows : rows.length = bits.length / rowLength := by
    rw [← Nat.mul_div_cancel rows.length hpos, hlength, hnone, Nat.add_zero]
  by_cases hzero : mifWordCount bits.length rowLength = 0
  · have hone : rows.length = 1 := by
      rw [hzero] at hdepth
      omega
    have hrow : bits.length = rowLength := by
      rw [hone, hnone] at hlength
      omega
    rw [hrow, mifWordCount, ceilQuotient_self (toFloat_pos hpos), Nat.div_self hpos]
  · omega

theorem hex_row (hpos : 0 < rowLength) {bits : List Bool} (hdvd : rowLength ∣ bits.length)
    (hlt : bits.length < 2 ^ 32) (hsome : bits.length ≠ 0)
    (h : hexImage bits rowLength = .ok text) : 4 * ((rowLength + 3) / 4) < 2 ^ 31 := by
  rw [hexImage, lineCount_eq hpos hdvd hlt] at h
  obtain ⟨count, hcount, h⟩ := Except.bind_ok h
  rw [toCInt, if_pos (toCInt_lt hcount)] at hcount
  cases hcount
  have hrows : 0 < bits.length / rowLength :=
    Nat.div_pos (Nat.le_of_dvd (Nat.pos_of_ne_zero hsome) hdvd) hpos
  rw [if_neg (Nat.ne_of_gt hrows), ← Nat.sub_add_cancel hrows, writeRows] at h
  obtain ⟨_, hlines, _⟩ := Except.bind_ok h
  obtain ⟨_, hfirst, _⟩ := Except.bind_ok hlines
  exact writeHexSequence_lt hfirst

theorem hex_emptyRow (h : Writes (hexLayout rowLength) (hexImage [] rowLength) [] rowLength)
    (hpos : 0 < rowLength) : max 1 (rowLength / 4) = (rowLength + 3) / 4 := by
  obtain ⟨rows, himage, hwritten, _⟩ := h
  have hcount : lineCount ([] : List Bool).length rowLength = .ok 0 := by
    change lineCount 0 rowLength = _
    rw [lineCount_eq hpos (Nat.dvd_zero _) (by decide), Nat.zero_div]
    rfl
  rw [hexImage, hcount] at hwritten
  have htext := congrArg List.length (Except.ok.inj hwritten)
  rw [List.length_append, length_emptyRow] at htext
  obtain ⟨zeros, hlength, hzeros⟩ := himage.length_rows
  cases rows with
  | nil => cases htext
  | cons row rows =>
    cases rows with
    | nil =>
      rw [hexLayout, List.flatMap_singleton, List.length_append, length_hexRow] at htext
      exact Nat.add_right_cancel htext
    | cons second rows =>
      have hmany : 2 * rowLength ≤ (row :: second :: rows).length * rowLength :=
        Nat.mul_le_mul_right _ (by simp)
      rw [hlength, List.length_nil] at hmany
      omega

theorem writes_of_eq {layout : List (List Bool) → List α} {bits : List Bool}
    (hpos : 0 < rowLength) (hdvd : rowLength ∣ bits.length)
    (hinj : ∀ rows rows' : List (List Bool), (∀ row ∈ rows, row.length = rowLength) →
      (∀ row ∈ rows', row.length = rowLength) → layout rows = layout rows' → rows = rows')
    (h : written = .ok (layout (imageRows bits rowLength))) :
    Writes layout written bits rowLength := by
  have himage := filled_isImage hpos hdvd
  refine ⟨_, himage, h, ?_⟩
  intro rows' hrows' heq
  exact hinj rows' _ hrows' himage.length_eq heq

theorem bin2n_writes {bits : List Bool} (hpos : 0 < rowLength)
    (h : WholeRows bits.length rowLength) :
    Writes (bin2nLayout rowLength) (bin2nImage bits rowLength) bits rowLength := by
  have hmul := Nat.div_mul_cancel h.dvd
  have hrow : ∀ row ∈ rowsOf rowLength (bits.length / rowLength) bits, row.length = rowLength :=
    fun row hrow => length_of_mem_rowsOf (Nat.le_of_eq hmul) hrow
  refine ⟨rowsOf rowLength (bits.length / rowLength) bits, ⟨hrow, 0, ?_, .inl hpos⟩, ?_, ?_⟩
  · rw [flatten_rowsOf hmul.symm]
    exact (List.append_nil bits).symm
  · rw [bin2n_eq hpos, Nat.mod_eq_of_lt h.size_lt]
  · intro rows' hrows' heq
    exact bin2nLayout_injective hpos hrows' hrow heq

/-- All the writers are right for exactly the bits that are whole rows. -/
theorem allWrite_iff (bits : List Bool) (hpos : 0 < rowLength) (hrow : rowLength < 2 ^ 31) :
    AllWrite bits rowLength ↔ WholeRows bits.length rowLength := by
  constructor
  · intro h
    obtain ⟨hdvd, hlt⟩ := bin2n_whole hpos h.bin2n
    obtain ⟨_, _, harray, _⟩ := h.array
    obtain ⟨_, _, hhex, _⟩ := h.hex
    constructor
    · exact hdvd
    · exact hlt
    · exact array_rows hpos hdvd hlt harray
    · intro hsome
      exact mif_count hpos hdvd hsome h.mif
    · intro hsome
      exact hex_row hpos hdvd hlt hsome hhex
    · intro hnone
      have hnil := List.eq_nil_of_length_eq_zero hnone
      subst hnil
      exact hex_emptyRow h.hex hpos
  · intro h
    have hmif : mifWordCount bits.length rowLength = bits.length / rowLength := by
      by_cases hsome : bits.length = 0
      · rw [hsome, Nat.zero_div]
        exact mifWordCount_zero hpos
      · exact h.mif hsome
    constructor
    · exact ascii_writes hpos bits
    · exact writes_of_eq hpos h.dvd (fun _ _ => arrayLayout_injective)
        (array_eq hpos hrow h.dvd h.size_lt h.rows_lt)
    · exact writes_of_eq hpos h.dvd (fun _ _ => mifLayout_injective)
        (mif_eq hpos hrow h.dvd h.size_lt h.rows_lt hmif)
    · exact writes_of_eq hpos h.dvd (fun _ _ => coeLayout_injective hpos)
        (coe_eq hpos hrow h.dvd h.size_lt h.rows_lt)
    · exact writes_of_eq hpos h.dvd (fun _ _ => hexLayout_injective) (hex_eq hpos h)
    · exact bin2n_writes hpos h

theorem allWrite_twoRows : AllWrite [true, false, true, true] 2 := by
  apply (allWrite_iff _ (by decide) (by decide)).2
  constructor
  · decide
  · decide
  · decide
  · intro _
    decide +kernel
  · intro _
    decide
  · intro hnone
    cases hnone

/-- The last row of three bits is not filled up by the writer of hexadecimal digits. -/
theorem hexImage_partialRow :
    hexImage [true, false, true] 2 = .error (.exception .outOfRange) := by
  decide +kernel

theorem not_allWrite_partialRow : ¬ AllWrite [true, false, true] 2 := by
  intro h
  obtain ⟨_, _, hwritten, _⟩ := h.hex
  rw [hexImage_partialRow] at hwritten
  cases hwritten

end PIG

end OpenAsip
