import OpenAsip.ConflictTables

namespace OpenAsip
set_option autoImplicit true

namespace ConflictDetection
open Reservations

section Simulations
variable {fu : FunctionUnit}

/-- The operations need a column of cycles, and the words of a row have room for all columns. -/
structure FunctionUnit.Fits (fu : FunctionUnit) : Prop where
  pos : 0 < fu.operationCount → 0 < fu.maxLatency
  columns : fu.maxLatency ≤ 32 * wordsPerRow fu.maxLatency

theorem FunctionUnit.Fits.words_pos (h : fu.Fits) (i : Fin fu.operationCount) :
    0 < wordsPerRow fu.maxLatency := by
  have hpos := h.pos (Nat.zero_lt_of_lt i.2)
  have hcolumns := h.columns
  omega

theorem FunctionUnit.Fits.of_no_operations (h : fu.operationCount = 0) : fu.Fits := by
  have hlatency : fu.maxLatency = 0 := by
    rw [FunctionUnit.maxLatency, List.eq_nil_of_length_eq_zero h]
    rfl
  exact ⟨fun hpos => absurd h (Nat.ne_of_gt hpos), by rw [hlatency]; exact Nat.zero_le _⟩

/-- Without a column of cycles a matrix has no words. -/
theorem FunctionUnit.bitAt_undefined (h : fu.maxLatency = 0) (m : fu.CollisionMatrix)
    (column row : Nat) : m.bitAt column row = .error .undefined := by
  have hsize : fu.operationCount * wordsPerRow fu.maxLatency = 0 := by
    rw [h]
    rfl
  rw [BitMatrix.bitAt, Vector.getElem?_eq_none (by omega)]

/-- The bits of the global table are the reserved resources. -/
structure ReservationTableDetector.Represents (d : ReservationTableDetector fu)
    (h : List (Fin fu.operationCount × Nat)) : Prop where
  tables : ∀ i : Fin fu.operationCount, ∃ m, vectorAt d.reservationTables i = .ok m ∧
    ∀ row < fu.resourceCount, ∀ cycle, m.bit row cycle = usedRow fu (fu.operations.get i) row cycle
  reserved : ∀ row < fu.resourceCount, ∀ cycle,
    d.globalReservationTable.bit row cycle = true ↔ Reserved (UsesRow fu) h row cycle

theorem ReservationTableDetector.create_represents
    (hc : 0 < fu.resourceCount → fu.maxLatency ≤ 32 * wordsPerRow fu.maxLatency) :
    ∃ d, create fu = .ok d ∧ d.Represents [] := by
  obtain ⟨tables, he, hlen, htables⟩ := reservationTables_ok hc
  refine ⟨⟨tables, BitMatrix.create _ _ false⟩, ?_, fun i => ?_, fun row hr cycle => ?_⟩
  · rw [create, he]
    rfl
  · exact ⟨_, vectorAt_ok (hlen.symm ▸ i.2), htables i⟩
  · rw [BitMatrix.bit_create_false hr]
    exact ⟨nofun, fun h => absurd h reserved_nil⟩

/-- The issued table and the global one conflict exactly when the operation is blocked. -/
theorem ReservationTableDetector.Represents.conflictsWith_iff {d : ReservationTableDetector fu}
    (h : d.Represents hist) {m : fu.ReservationTable} {i : Fin fu.operationCount}
    (hm : ∀ row < fu.resourceCount, ∀ cycle,
      m.bit row cycle = usedRow fu (fu.operations.get i) row cycle) :
    d.globalReservationTable.conflictsWith m = true ↔ Blocked (UsesRow fu) hist i 0 := by
  rw [BitMatrix.conflictsWith_iff, blocked_zero]
  constructor
  · rintro ⟨row, hr, cycle, hb, hi⟩
    rw [hm row hr] at hi
    exact ⟨row, cycle, (h.reserved row hr cycle).1 hb, hr, hi⟩
  · rintro ⟨row, cycle, hb, hr, hi⟩
    refine ⟨row, hr, cycle, (h.reserved row hr cycle).2 hb, ?_⟩
    rwa [hm row hr]

theorem ReservationTableDetector.simulates (fu : FunctionUnit) :
    Simulates (detector fu) (UsesRow fu) Represents Represents where
  accept d hist i h hb := by
    obtain ⟨m, he, hm⟩ := h.tables i
    refine ⟨{ d with globalReservationTable := d.globalReservationTable.orWith m }, ?_, h.tables,
      fun row hr cycle => ?_⟩
    · change issueOperationInline fu d i = _
      rw [issueOperationInline, he]
      dsimp only [bind, Except.bind]
      rw [if_neg (mt (h.conflictsWith_iff hm).1 hb)]
    · rw [BitMatrix.bit_orWith _ _ hr, Bool.or_eq_true, hm row hr, h.reserved row hr, reserved_cons,
        or_comm]
      exact or_congr_left ⟨fun hu => ⟨hr, hu⟩, And.right⟩
  reject d hist i h hb := by
    obtain ⟨m, he, hm⟩ := h.tables i
    refine ⟨d, ?_⟩
    change issueOperationInline fu d i = _
    rw [issueOperationInline, he]
    dsimp only [bind, Except.bind]
    rw [if_pos ((h.conflictsWith_iff hm).2 hb)]
  idle _ _ h := h
  advance d hist h := by
    refine ⟨_, rfl, h.tables, fun row hr cycle => ?_⟩
    rw [BitMatrix.bit_shiftLeft _ hr, h.reserved row hr, reserved_aged]

/-- The bits of the global matrix are the cycles in which an operation is blocked. -/
structure DCMDetector.Represents (d : DCMDetector fu) (h : List (Fin fu.operationCount × Nat)) :
    Prop where
  matrices : ∀ i : Fin fu.operationCount, ∃ m, vectorAt d.collisionMatrices i = .ok m ∧
    ∀ (j : Fin fu.operationCount) (distance : Nat),
      m.bit j distance = true ↔ Collides (UsesRow fu) i j distance
  blocked : ∀ (j : Fin fu.operationCount) (distance : Nat),
    d.globalCollisionMatrix.bit j distance = true ↔ Blocked (UsesRow fu) h j distance

theorem DCMDetector.create_represents (hfits : fu.Fits) :
    ∃ d, create fu = .ok d ∧ d.Represents [] := by
  obtain ⟨matrices, he, hmatrices, -⟩ := collisionMatrices_ok hfits.columns
  refine ⟨⟨matrices, BitMatrix.create _ _ false⟩, ?_, hmatrices, fun j distance => ?_⟩
  · rw [create, he]
    rfl
  · rw [BitMatrix.bit_create_false j.2]
    exact ⟨nofun, fun h => absurd h blocked_nil⟩

theorem DCMDetector.simulates (hfits : fu.Fits) :
    Simulates (detector fu) (UsesRow fu) Represents Represents where
  accept d hist i h hb := by
    obtain ⟨m, he, hm⟩ := h.matrices i
    have hbit : d.globalCollisionMatrix.bitAt 0 i = .ok false := by
      have hpos := hfits.words_pos i
      rw [BitMatrix.bitAt_ok _ i.2 (by omega)]
      exact congrArg _ (Bool.eq_false_iff.2 (mt (h.blocked i 0).1 hb))
    refine ⟨{ d with globalCollisionMatrix := d.globalCollisionMatrix.orWith m }, ?_, h.matrices,
      fun j distance => ?_⟩
    · change issueOperationInline fu d i = _
      rw [issueOperationInline, hbit]
      dsimp only [bind, Except.bind]
      rw [if_neg Bool.false_ne_true, he]
    · rw [BitMatrix.bit_orWith _ _ j.2, Bool.or_eq_true, hm, h.blocked, blocked_cons, or_comm]
  reject d hist i h hb := by
    have hbit : d.globalCollisionMatrix.bitAt 0 i = .ok true := by
      have hpos := hfits.words_pos i
      rw [BitMatrix.bitAt_ok _ i.2 (by omega)]
      exact congrArg _ ((h.blocked i 0).2 hb)
    refine ⟨d, ?_⟩
    change issueOperationInline fu d i = _
    rw [issueOperationInline, hbit]
    rfl
  idle _ _ h := h
  advance d hist h := by
    refine ⟨_, rfl, h.matrices, fun j distance => ?_⟩
    rw [BitMatrix.bit_shiftLeft _ j.2, h.blocked, blocked_aged]

end Simulations
end ConflictDetection
end OpenAsip
