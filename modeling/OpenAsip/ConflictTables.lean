import OpenAsip.ConflictDetectors

namespace OpenAsip
set_option autoImplicit true

namespace ConflictDetection

theorem vectorAt_ok {l : List α} (h : i < l.length) : vectorAt l i = .ok l[i] := by
  rw [vectorAt, List.getElem?_eq_getElem h]

theorem setRow_ok (m : BitMatrix rows columns) (hr : row < rows)
    (hc : columns ≤ 32 * wordsPerRow columns) (value : Nat → Bool) :
    ∃ m', setRow m row value = .ok m' ∧ ∀ row' < rows, ∀ column',
      m'.bit row' column' =
        if row' = row ∧ column' < columns then value column' else m.bit row' column' := by
  refine foldlM_range_ok (fun k (m' : BitMatrix rows columns) => ∀ row' < rows, ∀ column', m'.bit row' column' =
    if row' = row ∧ column' < k then value column' else m.bit row' column') (fun k hk s hs => ?_) ?_
  · obtain ⟨m', he, hbit⟩ := s.setBit_ok hr (Nat.lt_of_lt_of_le hk hc) (value k)
    refine ⟨m', he, fun row' hr' column' => ?_⟩
    rw [hbit row' hr', hs row' hr']
    by_cases hrow : row' = row
    · by_cases hcol : column' = k
      · simp [hrow, hcol]
      · have hlt : column' < k + 1 ↔ column' < k := by omega
        simp [hrow, hcol, hlt]
    · simp [hrow]
  · intro row' _ column'
    simp

/-- Rows of which the bits are set one after the other. -/
theorem setRows_ok {f : BitMatrix rows columns → Nat → Outcome (BitMatrix rows columns)}
    (offset : Nat) (value : Nat → Nat → Bool)
    (hf : ∀ p < k, ∀ m, f m p = setRow m (offset + p) (value p))
    (m : BitMatrix rows columns) (hk : offset + k ≤ rows)
    (hc : 0 < k → columns ≤ 32 * wordsPerRow columns) :
    ∃ m', (List.range k).foldlM f m = .ok m' ∧ ∀ row < rows, ∀ column, m'.bit row column =
      if offset ≤ row ∧ row < offset + k ∧ column < columns then value (row - offset) column
      else m.bit row column := by
  refine foldlM_range_ok (fun k (m' : BitMatrix rows columns) => ∀ row < rows, ∀ column, m'.bit row column =
    if offset ≤ row ∧ row < offset + k ∧ column < columns then value (row - offset) column
    else m.bit row column) (fun p hp s hs => ?_) ?_
  · have hr : offset + p < rows := by omega
    obtain ⟨m', he, hbit⟩ := setRow_ok s hr (hc (Nat.zero_lt_of_lt hp)) (value p)
    refine ⟨m', by rw [hf p hp, he], fun row hr column => ?_⟩
    rw [hbit row hr, hs row hr]
    by_cases hrow : row = offset + p
    · subst hrow
      have hnot : ¬ offset + p < offset + p := Nat.lt_irrefl _
      have hlt : offset + p < offset + (p + 1) := by omega
      simp only [hnot, hlt, true_and, false_and, and_false, if_false, Nat.le_add_right,
        Nat.add_sub_cancel_left]
    · have hlt : row < offset + (p + 1) ↔ row < offset + p := by omega
      simp only [hrow, hlt, false_and, if_false]
  · intro row _ column
    rw [if_neg (by omega)]

section Tables
variable {fu : FunctionUnit}

theorem le_foldl_latency (l : List HWOperation) (n : Nat) :
    n ≤ l.foldl (fun m op => if op.latency > m then op.latency else m) n ∧
      ∀ op ∈ l, op.latency ≤ l.foldl (fun m op => if op.latency > m then op.latency else m) n := by
  induction l generalizing n with
  | nil => exact ⟨Nat.le_refl n, nofun⟩
  | cons op l ih =>
    obtain ⟨hle, hall⟩ := ih (if op.latency > n then op.latency else n)
    have hn : n ≤ if op.latency > n then op.latency else n := by split <;> omega
    have hop : op.latency ≤ if op.latency > n then op.latency else n := by split <;> omega
    rw [List.foldl_cons, List.forall_mem_cons]
    exact ⟨Nat.le_trans hn hle, Nat.le_trans hop hle, hall⟩

theorem latency_le (h : op ∈ fu.operations) : op.latency ≤ fu.maxLatency :=
  (le_foldl_latency fu.operations 0).2 op h

/-- The resource of a row is in use. -/
def usedRow (fu : FunctionUnit) (op : HWOperation) (row cycle : Nat) : Bool :=
  if row < fu.operationPorts.length then op.isPortUsed (fu.operationPorts.getD row "") cycle
  else op.isResourceUsed (fu.pipelineElements.getD (row - fu.operationPorts.length) "") cycle

theorem usedRow_of_latency_le (h : op.latency ≤ cycle) (row : Nat) :
    usedRow fu op row cycle = false := by
  have hnone : op.pipeline[cycle]? = none := List.getElem?_eq_none h
  simp only [usedRow, HWOperation.isPortUsed, HWOperation.isPortRead, HWOperation.isPortWritten,
    HWOperation.isResourceUsed, hnone, Bool.or_self, ite_self]

theorem reservationTable_ok
    (hc : 0 < fu.resourceCount → fu.maxLatency ≤ 32 * wordsPerRow fu.maxLatency) (hop : op ∈ fu.operations) : ∃ m, reservationTable fu op = .ok m ∧
      ∀ row < fu.resourceCount, ∀ cycle, m.bit row cycle = usedRow fu op row cycle := by
  have hports (p : Nat) (_ : p < fu.operationPorts.length) (m : fu.ReservationTable) :
      setRow m p (op.isPortUsed (fu.operationPorts.getD p "")) =
        setRow m (0 + p) (op.isPortUsed (fu.operationPorts.getD p "")) := by
    rw [Nat.zero_add]
  obtain ⟨m, hm, hbit⟩ := setRows_ok 0 (fun p => op.isPortUsed (fu.operationPorts.getD p "")) hports
    (BitMatrix.create fu.resourceCount fu.maxLatency false)
    (by rw [FunctionUnit.resourceCount]; omega) (fun hpos => hc (Nat.add_pos_left hpos _))
  obtain ⟨m', hm', hbit'⟩ := setRows_ok fu.operationPorts.length
    (fun r => op.isResourceUsed (fu.pipelineElements.getD r ""))
    (fun r (_ : r < fu.pipelineElements.length) m => rfl) m (Nat.le_refl _)
    (fun hpos => hc (Nat.add_pos_right _ hpos))
  refine ⟨m', ?_, fun row hr cycle => ?_⟩
  · rw [reservationTable, hm]
    exact hm'
  · rw [hbit' row hr, hbit row hr, BitMatrix.bit_create_false hr]
    rw [FunctionUnit.resourceCount] at hr
    by_cases hcycle : cycle < fu.maxLatency
    · rw [usedRow]
      by_cases hport : row < fu.operationPorts.length
      · rw [if_neg (by omega), if_pos (by omega), if_pos hport, Nat.sub_zero]
      · rw [if_pos (by omega), if_neg hport]
    · have hlatency := latency_le hop
      rw [if_neg (by omega), if_neg (by omega), usedRow_of_latency_le (by omega)]

theorem bit_iterate_shiftLeft (m : BitMatrix rows columns) (hr : row < rows) (k column : Nat) :
    (BitMatrix.shiftLeft^[k] m).bit row column = m.bit row (column + k) := by
  induction k generalizing m with
  | zero => rfl
  | succ k ih =>
    rw [Function.iterate_succ_apply, ih, BitMatrix.bit_shiftLeft m hr, Nat.add_assoc]

/-- The resources of the rows that an operation uses. -/
def UsesRow (fu : FunctionUnit) (i : Fin fu.operationCount) (row cycle : Nat) : Prop :=
  row < fu.resourceCount ∧ usedRow fu (fu.operations.get i) row cycle = true

theorem conflictsWith_iff {m m' : fu.ReservationTable} {i j : Fin fu.operationCount}
    (hm : ∀ row < fu.resourceCount, ∀ cycle,
      m.bit row cycle = usedRow fu (fu.operations.get i) row cycle)
    (hm' : ∀ row < fu.resourceCount, ∀ cycle,
      m'.bit row cycle = usedRow fu (fu.operations.get j) row cycle) :
    conflictsWith m m' distance = true ↔ Reservations.Collides (UsesRow fu) i j distance := by
  rw [conflictsWith, BitMatrix.conflictsWith_iff]
  constructor
  · rintro ⟨row, hr, cycle, hj, hi⟩
    rw [bit_iterate_shiftLeft m hr, hm row hr] at hi
    rw [hm' row hr] at hj
    exact ⟨row, cycle, ⟨hr, hi⟩, hr, hj⟩
  · rintro ⟨row, cycle, ⟨hr, hi⟩, -, hj⟩
    refine ⟨row, hr, cycle, ?_, ?_⟩
    · rwa [hm' row hr]
    · rwa [bit_iterate_shiftLeft m hr, hm row hr]

theorem collides_lt {i j : Fin fu.operationCount}
    (h : Reservations.Collides (UsesRow fu) i j distance) : distance < fu.maxLatency := by
  obtain ⟨row, cycle, ⟨-, hi⟩, -⟩ := h
  have hlatency := latency_le (List.get_mem fu.operations i)
  refine Nat.lt_of_not_le fun hle => ?_
  rw [usedRow_of_latency_le (by omega)] at hi
  cases hi

/-- The tables of the operations, one bit for each use of a resource. -/
theorem reservationTables_ok
    (hc : 0 < fu.resourceCount → fu.maxLatency ≤ 32 * wordsPerRow fu.maxLatency) :
    ∃ tables, reservationTables fu = .ok tables ∧ ∃ h : tables.length = fu.operationCount,
      ∀ i : Fin fu.operationCount, ∀ row < fu.resourceCount, ∀ cycle,
        (tables.get (i.cast h.symm)).bit row cycle =
          usedRow fu (fu.operations.get i) row cycle := by
  obtain ⟨tables, he, hall⟩ :=
    Except.mapM_forall₂ fun op (hop : op ∈ fu.operations) => reservationTable_ok hc hop
  exact ⟨tables, he, hall.length_eq.symm, fun i => hall.get i.2 (hall.length_eq ▸ i.2)⟩

/-- The matrix of an operation: its bits say which operations collide with it how much later. -/
theorem collisionMatrix_ok (hc : fu.maxLatency ≤ 32 * wordsPerRow fu.maxLatency)
    {tables : List fu.ReservationTable} (hlen : tables.length = fu.operationCount)
    (htables : ∀ i : Fin fu.operationCount, ∀ row < fu.resourceCount, ∀ cycle,
      (tables.get (i.cast hlen.symm)).bit row cycle = usedRow fu (fu.operations.get i) row cycle)
    (i : Fin fu.operationCount) : ∃ m, collisionMatrix fu tables i = .ok m ∧
      ∀ (j : Fin fu.operationCount) (distance : Nat), m.bit j distance = true ↔
        Reservations.Collides (UsesRow fu) i j distance := by
  have hat : ∀ k (hk : k < fu.operationCount),
      vectorAt tables k = .ok (tables.get (Fin.cast hlen.symm ⟨k, hk⟩)) :=
    fun k hk => vectorAt_ok (hlen.symm ▸ hk)
  have hrow : ∀ row < fu.operationCount, ∀ m : fu.CollisionMatrix,
      (vectorAt tables row >>= fun other =>
        setRow m row (conflictsWith (tables.get (i.cast hlen.symm)) other)) =
      setRow m (0 + row) (conflictsWith (tables.get (i.cast hlen.symm))
        (tables.getD row (BitMatrix.create _ _ false))) := by
    intro row hr m
    rw [hat row hr, Nat.zero_add, List.getD_eq_getElem?_getD,
      List.getElem?_eq_getElem (hlen.symm ▸ hr)]
    rfl
  obtain ⟨m, he, hbit⟩ := setRows_ok 0 (fun row => conflictsWith (tables.get (i.cast hlen.symm))
    (tables.getD row (BitMatrix.create _ _ false))) hrow
    (BitMatrix.create fu.operationCount fu.maxLatency false) (Nat.le_of_eq (Nat.zero_add _))
    (fun _ => hc)
  refine ⟨m, ?_, fun j distance => ?_⟩
  · rw [collisionMatrix, hat i i.2]
    exact he
  · have hj : tables.getD j (BitMatrix.create _ _ false) = tables.get (j.cast hlen.symm) := by
      rw [List.getD_eq_getElem?_getD, List.getElem?_eq_getElem (hlen.symm ▸ j.2)]
      rfl
    have hiff := @conflictsWith_iff fu distance _ _ i j (htables i) (htables j)
    rw [hbit j j.2, Nat.zero_add, Nat.sub_zero, hj, BitMatrix.bit_create_false j.2]
    by_cases hd : distance < fu.maxLatency
    · rw [if_pos ⟨Nat.zero_le _, j.2, hd⟩]
      exact hiff
    · rw [if_neg fun h => hd h.2.2]
      exact ⟨nofun, fun h => absurd (collides_lt h) hd⟩

/-- A row of no bits at the end, for the pseudo no-operation. -/
theorem collisionMatrices_ok (hc : fu.maxLatency ≤ 32 * wordsPerRow fu.maxLatency) :
    ∃ matrices, collisionMatrices fu = .ok matrices ∧
      (∀ i : Fin fu.operationCount, ∃ m, vectorAt matrices i = .ok m ∧
        ∀ (j : Fin fu.operationCount) (distance : Nat), m.bit j distance = true ↔
          Reservations.Collides (UsesRow fu) i j distance) ∧
      vectorAt matrices fu.operationCount = .ok (BitMatrix.create _ _ false) := by
  obtain ⟨tables, ht, hlen, htables⟩ := reservationTables_ok fun _ => hc
  obtain ⟨matrices, he, hall⟩ := Except.mapM_forall₂ (l := List.range fu.operationCount)
    (P := fun i m => ∀ (hi : i < fu.operationCount) (j : Fin fu.operationCount) (distance : Nat),
      m.bit j distance = true ↔ Reservations.Collides (UsesRow fu) ⟨i, hi⟩ j distance)
    (f := collisionMatrix fu tables) fun i hi => by
      obtain ⟨m, hm, hbit⟩ := collisionMatrix_ok hc hlen htables ⟨i, List.mem_range.1 hi⟩
      exact ⟨m, hm, fun _ => hbit⟩
  have hlength : matrices.length = fu.operationCount := by
    rw [← hall.length_eq, List.length_range]
  refine ⟨matrices ++ [BitMatrix.create _ _ false], ?_, fun i => ?_, ?_⟩
  · rw [collisionMatrices, ht]
    dsimp only [bind, Except.bind]
    rw [he]
  · have hi : (i : Nat) < matrices.length := hlength.symm ▸ i.2
    refine ⟨matrices[i], ?_, ?_⟩
    · rw [vectorAt_ok (by rw [List.length_append]; omega), List.getElem_append_left hi]
      rfl
    · have hp := hall.get (i := i) (by rw [List.length_range]; exact i.2) hi
      rw [List.get_eq_getElem, List.getElem_range] at hp
      exact hp i.2
  · rw [vectorAt, List.getElem?_append_right (Nat.le_of_eq hlength), hlength, Nat.sub_self]
    rfl

end Tables
end ConflictDetection
end OpenAsip
