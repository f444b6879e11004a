import OpenAsip.ConflictAgreement

namespace OpenAsip
set_option autoImplicit true

namespace ConflictDetection
open Reservations

def FunctionUnit.needsConflictDetection (fu : FunctionUnit) : Bool :=
  match fu.operations with
  | [] => false
  | operation :: l =>
    if l.any fun other => operation.latency ≠ other.latency then true
    else if fu.pipelineElements.length = 0 then false
    else true

variable {fu : FunctionUnit}

theorem FunctionUnit.elements_of_not_needed (h : fu.needsConflictDetection = false)
    (hcount : 0 < fu.operationCount) : fu.pipelineElements = [] := by
  rw [needsConflictDetection] at h
  split at h
  · rename_i hnil
    rw [operationCount, hnil] at hcount
    cases hcount
  · split at h
    · cases h
    · split at h
      · rename_i hzero
        exact List.eq_nil_of_length_eq_zero hzero
      · cases h

/-- All operations use a port in the same cycle after their issue. -/
def FunctionUnit.PortsInOneCycle (fu : FunctionUnit) : Prop :=
  ∀ port ∈ fu.operationPorts, ∀ op ∈ fu.operations, ∀ op' ∈ fu.operations, ∀ cycle cycle',
    op.isPortUsed port cycle = true → op'.isPortUsed port cycle' = true → cycle = cycle'

/-- Two uses of a port in different cycles collide when the later use belongs to the earlier issue. -/
theorem portsInOneCycle_iff (helements : 0 < fu.operationCount → fu.pipelineElements = []) :
    fu.PortsInOneCycle ↔ ∀ (i j : Fin fu.operationCount) (distance : Nat), 1 ≤ distance →
      ¬ Collides fu.Uses i j distance := by
  constructor
  · rintro h i j distance hdistance ⟨r, cycle, hi, hj⟩
    cases r with
    | port name =>
      have hsame := h name hi.1 _ (List.get_mem _ i) _ (List.get_mem _ j) _ _ hi.2 hj.2
      omega
    | element name =>
      have hmem := hi.1
      rw [helements (Nat.zero_lt_of_lt i.2)] at hmem
      cases hmem
  · intro h port hport op hop op' hop' cycle cycle' huse huse'
    obtain ⟨i, rfl⟩ := List.get_of_mem hop
    obtain ⟨j, rfl⟩ := List.get_of_mem hop'
    rcases Nat.lt_trichotomy cycle cycle' with hlt | heq | hlt
    · exfalso
      apply h j i (cycle' - cycle) (by omega)
      refine ⟨.port port, cycle, ⟨hport, ?_⟩, hport, huse⟩
      rwa [Nat.add_sub_cancel' (Nat.le_of_lt hlt)]
    · exact heq
    · exfalso
      apply h i j (cycle - cycle') (by omega)
      refine ⟨.port port, cycle', ⟨hport, ?_⟩, hport, huse'⟩
      rwa [Nat.add_sub_cancel' (Nat.le_of_lt hlt)]

/-- A unit without need for conflict detection never rejects an issue exactly when its operations
use each port in one cycle only. -/
theorem not_needed_accepts_iff (h : fu.needsConflictDetection = false) :
    (∀ issues, ∃ answers, ReservationTableDetector.run fu issues = .ok answers ∧
      false ∉ answers) ↔ fu.PortsInOneCycle ∧ fu.ColumnsFit := by
  rw [portsInOneCycle_iff (fu.elements_of_not_needed h), ← not_mem_expected_iff]
  constructor
  · intro haccept
    obtain ⟨answers, hrun, -⟩ := haccept []
    obtain ⟨d, hd, -⟩ := Except.bind_ok hrun
    have hcolumns := FunctionUnit.columnsFit_of_create hd
    refine ⟨fun issues => ?_, hcolumns⟩
    obtain ⟨answers, hrun, hfree⟩ := haccept issues
    rw [ReservationTableDetector.run_eq hcolumns] at hrun
    cases hrun
    exact hfree
  · rintro ⟨hfree, hcolumns⟩ issues
    exact ⟨_, ReservationTableDetector.run_eq hcolumns issues, hfree issues⟩

/-- Two operations of the same latency, of which one writes the result port a cycle earlier. -/
def writesInTwoCycles : FunctionUnit where
  operationPorts := ["trigger", "result", "second"]
  pipelineElements := []
  operations := [
    ⟨"slow", fun operand => ["trigger", "result"][operand - 1]?, [⟨[1], [], []⟩, ⟨[], [2], []⟩]⟩,
    ⟨"fast", fun operand => ["trigger", "result", "second"][operand - 1]?,
      [⟨[1], [2], []⟩, ⟨[], [3], []⟩]⟩]

theorem writesInTwoCycles_rejects :
    writesInTwoCycles.needsConflictDetection = false ∧
    ReservationTableDetector.run writesInTwoCycles
      [some ⟨0, by decide⟩, some ⟨1, by decide⟩] = .ok [true, false] := by
  decide +kernel

theorem writesInTwoCycles_accepts_iff :
    (∀ issues, ∃ answers, ReservationTableDetector.run writesInTwoCycles issues = .ok answers ∧
      false ∉ answers) ↔ writesInTwoCycles.PortsInOneCycle ∧ writesInTwoCycles.ColumnsFit :=
  not_needed_accepts_iff (by decide +kernel)

end ConflictDetection
end OpenAsip
