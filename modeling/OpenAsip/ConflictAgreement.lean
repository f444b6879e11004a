import OpenAsip.FSABuild

namespace OpenAsip
set_option autoImplicit true

namespace ConflictDetection
open Reservations

/-- What operations share in a function unit. -/
inductive Resource where
  | port (name : String)
  | element (name : String)
deriving DecidableEq, Repr

def FunctionUnit.Uses (fu : FunctionUnit) (i : Fin fu.operationCount) : Resource → Nat → Prop
  | .port name, cycle =>
    name ∈ fu.operationPorts ∧ (fu.operations.get i).isPortUsed name cycle = true
  | .element name, cycle =>
    name ∈ fu.pipelineElements ∧ (fu.operations.get i).isResourceUsed name cycle = true

section Agreement
variable {fu : FunctionUnit}

theorem usedRow_port (h : row < fu.operationPorts.length) (op : HWOperation) (cycle : Nat) :
    usedRow fu op row cycle = op.isPortUsed fu.operationPorts[row] cycle := by
  rw [usedRow, if_pos h, List.getD_eq_getElem?_getD, List.getElem?_eq_getElem h]
  rfl

theorem usedRow_element (h : k < fu.pipelineElements.length) (op : HWOperation) (cycle : Nat) :
    usedRow fu op (fu.operationPorts.length + k) cycle =
      op.isResourceUsed fu.pipelineElements[k] cycle := by
  rw [usedRow, if_neg (by omega), Nat.add_sub_cancel_left, List.getD_eq_getElem?_getD,
    List.getElem?_eq_getElem h]
  rfl

/-- The rows of the tables are the ports and the elements of the unit. -/
theorem collides_iff {i j : Fin fu.operationCount} :
    Collides (UsesRow fu) i j distance ↔ Collides fu.Uses i j distance := by
  constructor
  · rintro ⟨row, cycle, ⟨hr, hi⟩, -, hj⟩
    by_cases hport : row < fu.operationPorts.length
    · rw [usedRow_port hport] at hi hj
      exact ⟨.port fu.operationPorts[row], cycle, ⟨List.getElem_mem hport, hi⟩,
        List.getElem_mem hport, hj⟩
    · obtain ⟨k, rfl⟩ := Nat.exists_eq_add_of_le (Nat.le_of_not_lt hport)
      have hk : k < fu.pipelineElements.length := Nat.lt_of_add_lt_add_left hr
      rw [usedRow_element hk] at hi hj
      exact ⟨.element fu.pipelineElements[k], cycle, ⟨List.getElem_mem hk, hi⟩,
        List.getElem_mem hk, hj⟩
  · rintro ⟨r, cycle, hi, hj⟩
    cases r with
    | port name =>
      obtain ⟨hmem, hi⟩ := hi
      obtain ⟨row, hrow, rfl⟩ := List.getElem_of_mem hmem
      have hr : row < fu.resourceCount := Nat.lt_add_right _ hrow
      exact ⟨row, cycle, ⟨hr, by rwa [usedRow_port hrow]⟩, hr, by rw [usedRow_port hrow]; exact hj.2⟩
    | element name =>
      obtain ⟨hmem, hi⟩ := hi
      obtain ⟨k, hk, rfl⟩ := List.getElem_of_mem hmem
      have hr : fu.operationPorts.length + k < fu.resourceCount := Nat.add_lt_add_left hk _
      exact ⟨_, cycle, ⟨hr, by rwa [usedRow_element hk]⟩, hr, by rw [usedRow_element hk]; exact hj.2⟩

/-- The answers of a detector that represents the accepted operations. -/
theorem answers_eq {d : Detector ε σ (Fin fu.operationCount)}
    (hd : Simulates d (UsesRow fu) ready issued) (hs : ready s [])
    (issues : List (Option (Fin fu.operationCount))) :
    d.answers s issues = .ok (conflictFree fu.Uses 0 [] issues) := by
  rw [hd.answers_eq hs, conflictFree_eq (List.forall_mem_nil _),
    expected_congr fun i j distance => collides_iff]
  rfl

end Agreement

section Runs
variable (fu : FunctionUnit) (issues : List (Option (Fin fu.operationCount)))

def ReservationTableDetector.run : Outcome (List Bool) := do
  let d ← create fu
  (detector fu).answers d issues

def DCMDetector.run : Outcome (List Bool) := do
  let d ← create fu
  (detector fu).answers d issues

def FSADetector.runLazy (skipIdle : Bool) : Outcome (List Bool) := do
  let d ← create fu
  (detector fu skipIdle).answers d issues

/-- A run after all states have been built, if that takes at most the given number of rounds. -/
def FSADetector.runEager (order : List Nat → Nat) (rounds : Nat) (skipIdle : Bool) :
    Outcome (Option (List Bool)) := do
  let d ← create fu
  match ← d.initializeAllStates order rounds with
  | some d =>
    let answers ← (detector fu skipIdle).answers d issues
    .ok (some answers)
  | none => .ok none

/-- All detectors accept exactly the operations that use no port and no element in a cycle in which
an operation accepted before uses it. -/
structure DetectorsAgree (fu : FunctionUnit) : Prop where
  reservationTable : ∀ issues,
    ReservationTableDetector.run fu issues = .ok (conflictFree fu.Uses 0 [] issues)
  dcm : ∀ issues, DCMDetector.run fu issues = .ok (conflictFree fu.Uses 0 [] issues)
  fsaLazy : ∀ skipIdle issues,
    FSADetector.runLazy fu issues skipIdle = .ok (conflictFree fu.Uses 0 [] issues)
  fsaEager : ∃ bound, ∀ order, ∀ rounds ≥ bound, ∀ skipIdle issues,
    FSADetector.runEager fu issues order rounds skipIdle =
      .ok (some (conflictFree fu.Uses 0 [] issues))

variable {fu}

theorem FunctionUnit.Fits.agree (h : fu.Fits) : DetectorsAgree fu := by
  refine ⟨fun issues => ?_, fun issues => ?_, fun skipIdle issues => ?_,
    FUFiniteStateAutomaton.stateBound fu, fun order rounds hr skipIdle issues => ?_⟩
  · obtain ⟨d, he, hd⟩ := ReservationTableDetector.create_represents fun _ => h.columns
    rw [ReservationTableDetector.run, he]
    exact answers_eq (ReservationTableDetector.simulates fu) hd issues
  · obtain ⟨d, he, hd⟩ := DCMDetector.create_represents h
    rw [DCMDetector.run, he]
    exact answers_eq (DCMDetector.simulates h) hd issues
  · obtain ⟨d, he, hd⟩ := FSADetector.create_ready h
    rw [FSADetector.runLazy, he]
    exact answers_eq (FSADetector.simulates h skipIdle) hd issues
  · obtain ⟨d, he, hd⟩ := FSADetector.create_ready h
    obtain ⟨d', he', hd'⟩ := hd.initializeAllStates h order hr
    rw [FSADetector.runEager, he]
    dsimp only [bind, Except.bind]
    rw [he']
    dsimp only
    rw [answers_eq (FSADetector.simulates h skipIdle) hd' issues]

/-- The last row of a table has no word for a column that the rounding has lost. -/
theorem reservationTable_columns {m : fu.ReservationTable} (hpos : 0 < fu.resourceCount)
    (h : reservationTable fu op = .ok m) :
    fu.maxLatency ≤ 32 * wordsPerRow fu.maxLatency := by
  have hrow : ∃ row value, fu.resourceCount ≤ row + 1 ∧
      ∃ m m' : fu.ReservationTable, setRow m row value = .ok m' := by
    obtain ⟨ports, hports, helements⟩ := Except.bind_ok h
    rcases Nat.eq_zero_or_pos fu.pipelineElements.length with hzero | helement
    · rw [FunctionUnit.resourceCount, hzero, Nat.add_zero] at hpos
      obtain ⟨t, t', ht⟩ := foldlM_ok_mem hports (List.mem_range.2 (Nat.sub_one_lt_of_lt hpos))
      exact ⟨_, _, by rw [FunctionUnit.resourceCount]; omega, t, t', ht⟩
    · obtain ⟨t, t', ht⟩ :=
        foldlM_ok_mem helements (List.mem_range.2 (Nat.sub_one_lt_of_lt helement))
      exact ⟨_, _, by rw [FunctionUnit.resourceCount]; omega, t, t', ht⟩
  obtain ⟨row, value, hlast, t, t', ht⟩ := hrow
  refine Nat.le_of_not_lt fun hlt => ?_
  obtain ⟨u, u', hu⟩ := foldlM_ok_mem ht (List.mem_range.2 hlt)
  rw [BitMatrix.setBit_undefined _ hlast (Nat.le_refl _)] at hu
  cases hu

/-- The words of a reservation table have a bit for every cycle. -/
def FunctionUnit.ColumnsFit (fu : FunctionUnit) : Prop :=
  0 < fu.operationCount → 0 < fu.resourceCount →
    fu.maxLatency ≤ 32 * wordsPerRow fu.maxLatency

theorem FunctionUnit.ColumnsFit.columns (h : fu.ColumnsFit) (hpos : 0 < fu.resourceCount) :
    fu.maxLatency ≤ 32 * wordsPerRow fu.maxLatency := by
  rcases Nat.eq_zero_or_pos fu.operationCount with hzero | hcount
  · exact (FunctionUnit.Fits.of_no_operations hzero).columns
  · exact h hcount hpos

theorem FunctionUnit.columnsFit_of_create {d : ReservationTableDetector fu}
    (h : ReservationTableDetector.create fu = .ok d) : fu.ColumnsFit := by
  intro hcount hpos
  obtain ⟨tables, htables, -⟩ := Except.bind_ok h
  obtain ⟨m, hm⟩ := Except.mapM_ok_mem htables (List.getElem_mem hcount)
  exact reservationTable_columns hpos hm

theorem ReservationTableDetector.run_eq (h : fu.ColumnsFit)
    (issues : List (Option (Fin fu.operationCount))) :
    run fu issues = .ok (expected fu.Uses [] issues) := by
  obtain ⟨d, he, hd⟩ := create_represents h.columns
  rw [run, he]
  change (detector fu).answers d issues = _
  rw [(simulates fu).answers_eq hd issues]
  exact congrArg _ (expected_congr (fun i j distance => collides_iff) issues)

/-- The last row of the matrix of the first operation has no word for the last columns. -/
theorem collisionMatrix_columns {tables : List fu.ReservationTable} (hpos : 0 < fu.operationCount)
    (h : collisionMatrix fu tables index = .ok m) :
    fu.maxLatency ≤ 32 * wordsPerRow fu.maxLatency := by
  obtain ⟨thisOperation, -, h⟩ := Except.bind_ok h
  obtain ⟨t, t', ht⟩ := foldlM_ok_mem h (List.mem_range.2 (Nat.sub_one_lt_of_lt hpos))
  obtain ⟨other, -, hrow⟩ := Except.bind_ok ht
  refine Nat.le_of_not_lt fun hlt => ?_
  obtain ⟨u, u', hu⟩ := foldlM_ok_mem hrow (List.mem_range.2 hlt)
  rw [BitMatrix.setBit_undefined _ (by omega) (Nat.le_refl _)] at hu
  cases hu

theorem collisionMatrices_columns (hpos : 0 < fu.operationCount)
    (h : collisionMatrices fu = .ok matrices) :
    fu.maxLatency ≤ 32 * wordsPerRow fu.maxLatency := by
  obtain ⟨tables, -, h⟩ := Except.bind_ok h
  obtain ⟨l, hl, -⟩ := Except.bind_ok h
  have hall := Except.mapM_ok hl
  obtain ⟨m, hm⟩ : ∃ m, collisionMatrix fu tables 0 = .ok m := by
    have hlen : l.length = fu.operationCount := by rw [← hall.length_eq, List.length_range]
    have hget := hall.get (i := 0) (by rwa [List.length_range]) (by rwa [hlen])
    rw [List.get_eq_getElem, List.getElem_range] at hget
    exact ⟨_, hget⟩
  exact collisionMatrix_columns hpos hm

/-- The detectors agree exactly on the units whose pipelines are not all empty and whose columns all
have a bit. -/
theorem detectorsAgree_iff (fu : FunctionUnit) : DetectorsAgree fu ↔ fu.Fits := by
  refine ⟨fun h => ?_, FunctionUnit.Fits.agree⟩
  rcases Nat.eq_zero_or_pos fu.operationCount with hzero | hpos
  · exact FunctionUnit.Fits.of_no_operations hzero
  · have hrun := h.dcm [some ⟨0, hpos⟩]
    obtain ⟨d, hd, hanswers⟩ := Except.bind_ok hrun
    obtain ⟨matrices, hmatrices, -⟩ := Except.bind_ok hd
    refine ⟨fun _ => Nat.pos_of_ne_zero fun hlatency => ?_, collisionMatrices_columns hpos hmatrices⟩
    obtain ⟨⟨b, d'⟩, hissue, -⟩ := Except.bind_ok hanswers
    obtain ⟨b, hbit, -⟩ := Except.bind_ok hissue
    rw [FunctionUnit.bitAt_undefined hlatency] at hbit
    cases hbit

/-- A unit with one operation of which the pipeline is empty. -/
def emptyPipeline : FunctionUnit where
  operationPorts := ["trigger"]
  pipelineElements := []
  operations := [⟨"OP", fun operand => if operand = 1 then some "trigger" else none, []⟩]

theorem emptyPipeline_not_agree : ¬ DetectorsAgree emptyPipeline := by
  rw [detectorsAgree_iff]
  intro h
  exact absurd (h.pos (by decide)) (by decide)

end Runs
end ConflictDetection
end OpenAsip
