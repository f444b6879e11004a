import OpenAsip.ResourceVectorDetectors

namespace OpenAsip
set_option autoImplicit true

namespace ConflictDetection
open Reservations

variable {fu : BoundFunctionUnit}

/-- The composite vector has the resources that are reserved, one cycle later. -/
structure ResourceVectorDetector.Issued (d : ResourceVectorDetector)
    (h : List (Fin fu.toFunctionUnit.operationCount × Nat)) : Prop where
  vectors : Represents fu d.vectors
  reserved : ∀ r cycle, d.compositeVector.Uses r (cycle + 1) ↔ Reserved (NamedUses fu) h r cycle

namespace ResourceVectorDetector
variable {d : ResourceVectorDetector} {h : List (Fin fu.toFunctionUnit.operationCount × Nat)}
variable {i j : Fin fu.toFunctionUnit.operationCount}

theorem Issued.vector (hd : d.Issued h) (j : Fin fu.toFunctionUnit.operationCount) :
    ∃ v, d.vectors[(j : Nat)]? = some v ∧ ∀ r cycle, v.Uses r cycle ↔ NamedUses fu j r cycle := by
  have hlt : (j : Nat) < d.vectors.length := by
    rw [hd.vectors.length]
    exact j.2
  exact ⟨_, List.getElem?_eq_getElem hlt, hd.vectors.uses j _ (List.getElem?_eq_getElem hlt)⟩

theorem Issued.conflictsWith_iff {v : ResourceVector} (hd : d.Issued h)
    (hv : ∀ r cycle, v.Uses r cycle ↔ NamedUses fu j r cycle) :
    d.compositeVector.conflictsWith v 1 = true ↔ Seen (NamedUses fu) h j := by
  rw [ResourceVector.conflictsWith_iff]
  simp only [Found, CommonUse, Seen, hd.reserved, hv]

/-- The answer to an issue. -/
theorem Issued.issueOperation (hd : d.Issued h) (j : Fin fu.toFunctionUnit.operationCount) :
    (Seen (NamedUses fu) h j → d.issueOperation j = .ok (false, d)) ∧
      (¬ Seen (NamedUses fu) h j →
        ∃ d', d.issueOperation j = .ok (true, d') ∧ d'.Issued ((j, 0) :: h)) := by
  obtain ⟨v, hv, huses⟩ := hd.vector j
  rw [ResourceVectorDetector.issueOperation, hv]
  dsimp only
  constructor
  · intro hseen
    rw [if_pos ((hd.conflictsWith_iff huses).2 hseen)]
  · intro hseen
    rw [if_neg (mt (hd.conflictsWith_iff huses).1 hseen)]
    refine ⟨_, rfl, hd.vectors, fun r cycle => ?_⟩
    rw [ResourceVector.uses_mergeWith, hd.reserved, Nat.add_sub_cancel, huses, reserved_cons,
      or_comm]
    exact or_congr_left (and_iff_right (Nat.le_add_left 1 cycle))

theorem Issued.advanceCycle (hd : d.Issued h) :
    ∃ d', d.advanceCycle = .ok d' ∧ d'.Issued (aged h) := by
  refine ⟨_, rfl, hd.vectors, fun r cycle => ?_⟩
  rw [ResourceVector.uses_shiftLeft, hd.reserved, reserved_aged]

theorem create_issued (hbound : fu.OperandsBound) :
    ∃ d, create fu = .ok d ∧
      d.Issued ([] : List (Fin fu.toFunctionUnit.operationCount × Nat)) := by
  obtain ⟨vectors, he, hvectors⟩ := resourceVectors_ok hbound
  refine ⟨⟨vectors, ⟨[]⟩⟩, by rw [create, he]; rfl, hvectors, fun r cycle => ?_⟩
  exact ⟨fun huse => (ResourceVector.not_uses_nil huse).elim, fun hr => (reserved_nil hr).elim⟩

/-- Without gaps the detector answers by what is blocked. All operations before the one at hand were
issued in earlier cycles. -/
theorem simulates (hgap : ∀ (i j : Fin fu.toFunctionUnit.operationCount) (distance : Nat),
      1 ≤ distance → NoGap fu.toFunctionUnit.Uses i j distance) :
    Simulates (detector fu) (NamedUses fu) (fun d h => d.Issued h ∧ ∀ a ∈ h, 1 ≤ a.2)
      (fun d h => d.Issued h) where
  accept d h i hd hb := (hd.1.issueOperation i).2 fun hseen => hb hseen.blocked
  reject d h i hd hb := by
    refine ⟨d, (hd.1.issueOperation i).1 (hb.seen fun a ha => ?_)⟩
    exact noGap_namedUses.2 (hgap a.1 i a.2 (hd.2 a ha))
  idle d h hd := hd.1
  advance d h hd := by
    obtain ⟨d', he, hd'⟩ := hd.advanceCycle
    refine ⟨d', he, hd', fun a ha => ?_⟩
    obtain ⟨b, -, rfl⟩ := List.mem_map.1 ha
    exact Nat.le_add_left 1 b.2

theorem Issued.answers_idle (hd : d.Issued h) (k : Nat)
    (l : List (Option (Fin fu.toFunctionUnit.operationCount))) :
    ∃ d', (detector fu).answers d (List.replicate k none ++ l) = (detector fu).answers d' l ∧
      d'.Issued (aged^[k] h) := by
  induction k generalizing d h with
  | zero => exact ⟨d, rfl, hd⟩
  | succ k ih =>
    obtain ⟨d', he, hd'⟩ := hd.advanceCycle
    obtain ⟨d'', he', hd''⟩ := ih hd'
    refine ⟨d'', ?_, by rwa [Function.iterate_succ_apply]⟩
    rw [List.replicate_succ, List.cons_append, Detector.answers]
    change d.advanceCycle >>= _ = _
    rw [he]
    exact he'

end ResourceVectorDetector

/-- Both detectors answer the same to all issues. -/
def DetectorsAnswerSame (fu : BoundFunctionUnit) : Prop :=
  ∀ issues, ∃ answers, ReservationTableDetector.run fu.toFunctionUnit issues = .ok answers ∧
    ResourceVectorDetector.run fu issues = .ok answers

/-- The reservation tables have a bit for every cycle, the operands in use have ports, and no two
operations have a gap before the first resource that both use. -/
structure BoundFunctionUnit.Comparable (fu : BoundFunctionUnit) : Prop where
  columns : fu.toFunctionUnit.ColumnsFit
  bound : fu.OperandsBound
  noGap : ∀ (i j : Fin fu.toFunctionUnit.operationCount) (distance : Nat), 1 ≤ distance →
    NoGap fu.toFunctionUnit.Uses i j distance

theorem reservationTables_answers (h : fu.toFunctionUnit.ColumnsFit)
    (issues : List (Option (Fin fu.toFunctionUnit.operationCount))) :
    ReservationTableDetector.run fu.toFunctionUnit issues =
      .ok (expected (NamedUses fu) [] issues) := by
  rw [ReservationTableDetector.run_eq h]
  exact congrArg _ (expected_congr (fun i j distance => collides_namedUses.symm) issues)

theorem BoundFunctionUnit.Comparable.answerSame (h : fu.Comparable) : DetectorsAnswerSame fu := by
  intro issues
  obtain ⟨d, he, hd⟩ := ResourceVectorDetector.create_issued h.bound
  refine ⟨_, reservationTables_answers h.columns issues, ?_⟩
  rw [ResourceVectorDetector.run, he]
  exact (ResourceVectorDetector.simulates h.noGap).answers_eq ⟨hd, List.forall_mem_nil _⟩ issues

theorem operandsBound_of_ok (h : fu.resourceVectors = .ok vectors) : fu.OperandsBound := by
  intro op hop usage husage operand hoperand
  obtain ⟨v, hv⟩ := Except.mapM_ok_mem h hop
  obtain ⟨resources, hresources, -⟩ := Except.bind_ok hv
  obtain ⟨s, hs⟩ := Except.mapM_ok_mem hresources husage
  obtain ⟨ports, hports, -⟩ := Except.bind_ok hs
  obtain ⟨r, hr⟩ := Except.mapM_ok_mem hports hoperand
  cases hport : op.port operand with
  | none =>
    rw [BoundFunctionUnit.portResource, hport] at hr
    cases hr
  | some port => exact ⟨port, rfl⟩

/-- The answers to an operation that is issued some cycles after another one. -/
theorem ResourceVectorDetector.Issued.answers_pair {d : ResourceVectorDetector}
    {i j : Fin fu.toFunctionUnit.operationCount}
    (hd : d.Issued ([] : List (Fin fu.toFunctionUnit.operationCount × Nat))) (k : Nat) :
    ((detector fu).answers d (some i :: (List.replicate k none ++ [some j])) = .ok [true, false] ↔
      Found (NamedUses fu) i j (k + 1)) := by
  have hfree : ¬ Seen (NamedUses fu) [] i := fun hseen => blocked_nil hseen.blocked
  obtain ⟨d₁, he₁, hd₁⟩ := (hd.issueOperation i).2 hfree
  obtain ⟨d₂, he₂, hd₂⟩ := hd₁.advanceCycle
  obtain ⟨d₃, he₃, hd₃⟩ := hd₂.answers_idle k [some j]
  rw [iterate_aged_start] at hd₃
  have hissue : (detector fu).issue d i = .ok (true, d₁) := he₁
  have hadvance : (detector fu).advance d₁ = .ok d₂ := he₂
  rw [Detector.answers, hissue]
  dsimp only [bind, Except.bind]
  rw [if_pos rfl, hadvance]
  dsimp only
  rw [he₃, Detector.answers, ← seen_singleton]
  by_cases hseen : Seen (NamedUses fu) [(i, k + 1)] j
  · have hanswer : (detector fu).issue d₃ j = .ok (false, d₃) := (hd₃.issueOperation j).1 hseen
    rw [hanswer]
    exact ⟨fun _ => hseen, fun _ => rfl⟩
  · obtain ⟨d₄, he₄, -⟩ := (hd₃.issueOperation j).2 hseen
    have hanswer : (detector fu).issue d₃ j = .ok (true, d₄) := he₄
    rw [hanswer]
    refine ⟨fun h => ?_, fun h => (hseen h).elim⟩
    cases h

theorem DetectorsAnswerSame.comparable (h : DetectorsAnswerSame fu) : fu.Comparable := by
  obtain ⟨answers, hreservation, hvector⟩ := h []
  obtain ⟨d, hd, -⟩ := Except.bind_ok hreservation
  obtain ⟨d', hd', -⟩ := Except.bind_ok hvector
  obtain ⟨vectors, hvectors, -⟩ := Except.bind_ok hd'
  have hcolumns := FunctionUnit.columnsFit_of_create hd
  have hbound := operandsBound_of_ok hvectors
  refine ⟨hcolumns, hbound, fun i j distance hdistance => ?_⟩
  obtain ⟨k, rfl⟩ := Nat.exists_eq_add_of_le' hdistance
  rw [← noGap_namedUses, ← found_exact_iff, ← expected_pair]
  obtain ⟨answers, hreservation, hvector⟩ := h (some i :: (List.replicate k none ++ [some j]))
  rw [reservationTables_answers hcolumns] at hreservation
  cases hreservation
  obtain ⟨d', hd', hvector⟩ := Except.bind_ok hvector
  obtain ⟨d, hd, hissued⟩ := ResourceVectorDetector.create_issued hbound
  rw [hd'] at hd
  cases hd
  rw [← hissued.answers_pair, hvector, Except.ok.injEq]

/-- The comparison of two vectors is exact exactly where no gap comes before the first common use,
and the detectors answer the same exactly on the units without such gaps. -/
theorem resourceVectors_agree_iff (v other : ResourceVector) (cycle : Nat)
    (fu : BoundFunctionUnit) :
    ((v.conflictsWith other cycle = true ↔ Collides ResourceVector.Uses v other cycle) ↔
      NoGap ResourceVector.Uses v other cycle) ∧
    (DetectorsAnswerSame fu ↔ fu.Comparable) := by
  refine ⟨?_, DetectorsAnswerSame.comparable, BoundFunctionUnit.Comparable.answerSame⟩
  rw [ResourceVector.conflictsWith_iff, found_exact_iff]

/-- An operation that uses the element of its unit in two cycles and nothing in between. -/
def elementWithGap : BoundFunctionUnit where
  operationPorts := ["trigger"]
  pipelineElements := ["element"]
  operations := [⟨"op", [(1, "trigger")],
    [⟨[1], [], []⟩, ⟨[], [], ["element"]⟩, ⟨[], [], []⟩, ⟨[], [], ["element"]⟩]⟩]
  valid_names := by decide +kernel
  nodup_names := by decide
  nodup_operands := by decide
  nodup_ports := by decide
  mem_operationPorts := by decide
  mem_pipelineElements := by decide

def elementWithGap.issues : List (Option (Fin elementWithGap.toFunctionUnit.operationCount)) :=
  [some ⟨0, by decide⟩, none, some ⟨0, by decide⟩]

def elementWithGap.vector : ResourceVector :=
  ⟨[{"port:op.1"}, {"res:element"}, ∅, {"res:element"}]⟩

/-- The second issue needs the element in the cycle in which the first one uses it again, and the
vectors do not see it. -/
theorem elementWithGap_not_same :
    elementWithGap.resourceVectors = .ok [elementWithGap.vector] ∧
    elementWithGap.vector.conflictsWith elementWithGap.vector 2 = false ∧
    Collides ResourceVector.Uses elementWithGap.vector elementWithGap.vector 2 ∧
    ReservationTableDetector.run elementWithGap.toFunctionUnit elementWithGap.issues =
      .ok [true, false] ∧
    ResourceVectorDetector.run elementWithGap elementWithGap.issues = .ok [true, true] := by
  have hcollides : Collides ResourceVector.Uses elementWithGap.vector elementWithGap.vector 2 :=
    ⟨"res:element", 1, Finset.mem_singleton_self _, Finset.mem_singleton_self _⟩
  refine ⟨?_, ?_, hcollides, ?_⟩
  · decide +kernel
  · decide +kernel
  · decide +kernel

end ConflictDetection
end OpenAsip
