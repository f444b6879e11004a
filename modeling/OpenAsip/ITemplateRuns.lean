import OpenAsip.ITemplateUnassign

namespace OpenAsip
set_option autoImplicit true

namespace ITemplate

/-- The last address that a reference can stand for. -/
def Machine.lastAddress (m : Machine) : TerminalImmediate → Option Nat
  | .value _ => none
  | .instructionAddress => some m.instructionSpaceEnd
  | .basicBlockReference => some m.instructionSpaceEnd
  | .codeSymbolReference symbol =>
    some (if symbol = "_end" then m.dataSpaceEnd else m.instructionSpaceEnd)

section Runs
variable {ν : Type} {m : Machine} {program : Program ν} {ii : Nat} {s s' : State ν}
variable {t : InstructionTemplate} {imm : Immediate}

theorem transports_reference (h : m.lastAddress imm.value = some last) :
    m.transports t imm = decide (m.addressWidth imm.unit last ≤ t.supportedWidth imm.unit) := by
  rw [Machine.transports]
  cases hv : imm.value with
  | value v => rw [hv] at h; cases h
  | instructionAddress => rw [hv] at h; cases h; rfl
  | basicBlockReference => rw [hv] at h; cases h; rfl
  | codeSymbolReference symbol => rw [hv] at h; cases h; rfl

theorem toSLongWord_eq (h : n < 2 ^ 63) : MathTools.toSLongWord n = n := by
  have hn : n % 2 ^ 64 = n := Nat.mod_eq_of_lt (by omega)
  rw [MathTools.toSLongWord, hn, if_pos h]

/-- A width for the last address is one for the addresses before it. -/
theorem readBack_address (h : m.addressWidth unit last ≤ width) (hlast : last < 2 ^ 63)
    (ha : address ≤ last) : readBack (m.extensionMode unit) width address = address := by
  rw [Machine.addressWidth] at h
  cases hmode : m.extensionMode unit with
  | zero =>
    rw [hmode] at h
    dsimp only at h
    have hpos := MathTools.requiredBits_pos last
    have hw : 0 < width := by omega
    have hlt := (MathTools.requiredBits_le hw).1 h
    exact readBack_eq hw ⟨Int.natCast_nonneg _, by exact_mod_cast Nat.lt_of_le_of_lt ha hlt⟩
  | sign =>
    rw [hmode] at h
    dsimp only at h
    rw [toSLongWord_eq hlast] at h
    have hpos := MathTools.requiredBitsSigned_pos last
    have hw : 0 < width := by omega
    obtain ⟨-, hlt⟩ := (MathTools.requiredBitsSigned_le hw).1 h
    have hp : (0 : Int) < 2 ^ (width - 1) := by positivity
    exact readBack_eq hw ⟨by omega, by omega⟩

/-- In each cycle the template of the instruction fits its contents. -/
structure Consistent (m : Machine) (program : Program ν) (s : State ν) : Prop where
  moves : ∀ c ins, s.instructions c = some ins → ∀ mv ∈ ins.moves, ¬ ins.template.usesSlot mv.2
  units : ∀ c ins, s.instructions c = some ins →
    (ins.immediates.map fun n => (s.immediate n).unit).Nodup ∧
      ∀ n ∈ ins.immediates, ins.template.isOneOfDestinations (s.immediate n).unit
  values : ∀ c ins, s.instructions c = some ins → ∀ n ∈ ins.immediates, ∀ v,
    program.constant n = .value v → ∃ v', (s.immediate n).value = .value v' ∧
      readBack (m.extensionMode (s.immediate n).unit)
        (ins.template.supportedWidth (s.immediate n).unit)
        (number (m.extensionMode (s.immediate n).unit) v') =
          number (m.extensionMode (s.immediate n).unit) v
  references : ∀ c ins, s.instructions c = some ins → ∀ n ∈ ins.immediates, ∀ last,
    m.lastAddress (program.constant n) = some last → last < 2 ^ 63 →
      (s.immediate n).value = program.constant n ∧ ∀ address ≤ last,
        readBack (m.extensionMode (s.immediate n).unit)
          (ins.template.supportedWidth (s.immediate n).unit) address = address
  inUse : ∀ c, ∀ t ∈ m.templates,
    isInUse s t c ↔ ∃ ins, s.instructions c = some ins ∧ ins.template = t

theorem Fitting.consistent (h : Fitting m program s) : Consistent m program s := by
  refine ⟨fun c ins hi mv hmv => ?_, fun c ins hi => ?_, fun c ins hi n hn v hv => ?_,
    fun c ins hi n hn last hlast hsmall => ?_, fun c t ht => ?_⟩
  · have hs := h.sound c ins hi
    intro hslot
    refine (fits_iff.1 hs.fits).2.2.2 mv.2 (List.mem_map_of_mem hmv) (.inl ?_)
    exact List.mem_filter.2 ⟨hs.buses mv hmv, decide_eq_true hslot⟩
  · have hs := h.sound c ins hi
    exact ⟨hs.units_nodup, fun n hn =>
      ((fits_iff.1 hs.fits).2.2.1 _ (List.mem_map_of_mem hn)).1⟩
  · have htr := ((fits_iff.1 (h.sound c ins hi).fits).2.2.1 _ (List.mem_map_of_mem hn)).2
    obtain ⟨v', hv', he⟩ := (h.constant n).number v hv
    obtain ⟨hpos, hrange⟩ := number_inRange_of_transports hv' htr
    exact ⟨v', hv', (readBack_eq hpos hrange).trans he⟩
  · have htr := ((fits_iff.1 (h.sound c ins hi).fits).2.2.1 _ (List.mem_map_of_mem hn)).2
    have hsame : (s.immediate n).value = program.constant n := by
      refine (h.constant n).reference fun v hv => ?_
      rw [hv] at hlast
      cases hlast
    rw [transports_reference (hsame ▸ hlast), decide_eq_true_eq] at htr
    exact ⟨hsame, fun address ha => readBack_address htr hsmall ha⟩
  · rw [(h.marked c).inUse ht, Option.map_eq_some_iff]

variable [DecidableEq ν]

/-- What the brokers have tested before a call. The template resource of a move was found before the
write of its immediate had a place, that of the write before the move had one. -/
def Ready (m : Machine) (program : Program ν) (ii : Nat) (s : State ν) : Call ν → Prop
  | .assignMove cycle n bus write t =>
    program.isMove n = true ∧ s.cycle n = none ∧ bus ∈ m.buses ∧
      t ∈ findITemplates m s (instructionIndex ii cycle) [bus] [] ∧
        ∀ w ∈ write, findITemplates m s (instructionIndex ii w.immediateWriteCycle) []
          [⟨program.constant n, w.unit, 0⟩] ≠ []
  | .assignNode cycle n t =>
    program.isMove n = false ∧ s.cycle n = none ∧
      t ∈ findITemplates m s (instructionIndex ii cycle) [] [s.immediate n]
  | .unassign n => s.cycle n ≠ none
  | .instruction _ => m.templates ≠ []

/-- A template can carry a move together with its own immediate when they share a cycle, and
taking a node out leaves the template of its instruction the preferred one, unless the node wrote
its immediate into this instruction. -/
def Kept (m : Machine) (program : Program ν) (ii : Nat) (s : State ν) : Call ν → Prop
  | .assignMove cycle n bus write _ =>
    ∀ w ∈ write, instructionIndex ii w.immediateWriteCycle = instructionIndex ii cycle →
      findITemplates m s (instructionIndex ii cycle) [bus]
        [⟨program.constant n, w.unit, w.index⟩] ≠ []
  | .assignNode _ _ _ => True
  | .unassign n =>
    ∀ cycle ∈ s.cycle n, s.immediateCycles n = some (instructionIndex ii cycle) ∨
      KeepsTemplate m program s (instructionIndex ii cycle) n
  | .instruction _ => True

instance (m : Machine) (program : Program ν) (ii : Nat) (s : State ν) (call : Call ν) :
    Decidable (Ready m program ii s call) := by
  cases call <;> dsimp only [Ready] <;> infer_instance

instance (m : Machine) (program : Program ν) (ii : Nat) (s : State ν) (call : Call ν) :
    Decidable (Kept m program ii s call) := by
  cases call <;> dsimp only [Kept] <;> infer_instance

theorem Inv.step (h : Inv m program ii s) (hr : Ready m program ii s call)
    (hkept : Kept m program ii s call) :
    ∃ s', ITemplate.step m program ii s call = .ok s' ∧ Inv m program ii s' := by
  cases call with
  | assignMove cycle n bus write t =>
    obtain ⟨hk, hc, hb, ht, hw⟩ := hr
    refine h.assignMove hk hc hb ht fun w hw' => ?_
    split
    · rename_i hidx
      rw [hidx]
      exact hkept w hw' hidx
    · exact hw w hw'
  | assignNode cycle n t =>
    obtain ⟨hk, hc, ht⟩ := hr
    exact ⟨_, rfl, h.addImmediate hk hc ht⟩
  | unassign n =>
    obtain ⟨cycle, hc⟩ := Option.ne_none_iff_exists'.1 hr
    have hkeep := hkept cycle hc
    cases hk : program.isMove n with
    | true => exact h.unassign_move hk hc hkeep
    | false =>
      refine h.unassign_immediate hk hc (hkeep.resolve_left fun hw => ?_)
      rw [((h.tracked n).written _ hw).1] at hk
      cases hk
  | instruction cycle => exact h.instruction hr cycle

/-- Calls that keep the preferred templates go through, and every state they reach is consistent. -/
theorem runs_consistent (m : Machine) (program : Program ν) (ii : Nat) (calls : List (Call ν))
    (h : Along (step m program ii)
      (fun s call => Ready m program ii s call ∧ Kept m program ii s call)
      (State.initial program) calls) :
    ∃ s, calls.foldlM (step m program ii) (State.initial program) = .ok s ∧
      Consistent m program s := by
  obtain ⟨s, he, hinv⟩ := Along.run (Inv m program ii)
    (fun s call _ hs hc => hs.step hc.1 hc.2) (Inv.initial m program ii) h
  exact ⟨s, he, hinv.fitting.consistent⟩

end Runs

section Example

/-- Bus 0 is the slot of the template with an immediate. The names of the two templates decide which
of them is preferred. -/
def twoTemplates (withImmediate without : String) (h : withImmediate ≠ without) : Machine where
  buses := ["B0", "B1"]
  extensionMode _ := .sign
  templates := [⟨withImmediate, [⟨"B0", 8, "IU"⟩]⟩, ⟨without, []⟩]
  names_nodup := by simpa using h
  instructionSpaceEnd := 255
  dataSpaceEnd := 255

/-- Node 0 is a move of a constant, node 1 writes it into the immediate unit. -/
def twoNodes : Program (Fin 2) where
  isMove n := n = 0
  constant _ := .value ⟨100, 32⟩
  unit _ := "IU"
  index _ := 0

/-- A move in cycle 7 reads an immediate of cycle 5, and both are taken out of the loop of four
cycles again. -/
theorem runs_consistent_writtenMove : ∃ s,
    [.assignMove 7 0 "B1" (some ⟨5, "IU", 0⟩) ⟨"limm", [⟨"B0", 8, "IU"⟩]⟩,
      .assignNode 2 1 ⟨"limm", [⟨"B0", 8, "IU"⟩]⟩, .unassign 0, .unassign 1].foldlM
        (step (twoTemplates "limm" "no_limm" (by decide)) twoNodes 4)
        (State.initial twoNodes) = .ok s ∧
      Consistent (twoTemplates "limm" "no_limm" (by decide)) twoNodes s :=
  runs_consistent _ _ _ _ (by decide +kernel)

theorem Consistent.inUse_unique {s : State ν} (h : Consistent m program s) (ht : t ∈ m.templates)
    (hu : u ∈ m.templates) (htc : isInUse s t c) (huc : isInUse s u c) : t = u := by
  obtain ⟨ins, hi, he⟩ := (h.inUse c t ht).1 htc
  obtain ⟨ins', hi', he'⟩ := (h.inUse c u hu).1 huc
  rw [hi] at hi'
  cases hi'
  rw [← he, ← he']

/-- Taking an immediate out of its instruction selects the other template without freeing the one
that the instruction had. A move on the slot and its own immediate in one cycle fail an assertion. -/
theorem unassign_leaves_template :
    (∃ calls s, Along (step (twoTemplates "limm" "empty" (by decide)) twoNodes 0)
          (Ready (twoTemplates "limm" "empty" (by decide)) twoNodes 0)
          (State.initial twoNodes) calls ∧
        calls.foldlM (step (twoTemplates "limm" "empty" (by decide)) twoNodes 0)
          (State.initial twoNodes) = .ok s ∧
        ¬ Consistent (twoTemplates "limm" "empty" (by decide)) twoNodes s) ∧
      ∃ calls, Along (step (twoTemplates "limm" "empty" (by decide)) twoNodes 0)
          (Ready (twoTemplates "limm" "empty" (by decide)) twoNodes 0)
          (State.initial twoNodes) calls ∧
        calls.foldlM (step (twoTemplates "limm" "empty" (by decide)) twoNodes 0)
          (State.initial twoNodes) = .error .assertion := by
  refine ⟨⟨[.assignNode 0 1 ⟨"limm", [⟨"B0", 8, "IU"⟩]⟩, .unassign 1], _, by decide +kernel, rfl,
    fun h => ?_⟩, [.assignMove 3 0 "B0" (some ⟨3, "IU", 0⟩) ⟨"empty", []⟩], by decide +kernel, rfl⟩
  have hsame := h.inUse_unique (t := ⟨"limm", [⟨"B0", 8, "IU"⟩]⟩) (u := ⟨"empty", []⟩) (c := 0)
    (by decide) (by decide) (by decide +kernel) (by decide +kernel)
  exact absurd (congrArg InstructionTemplate.name hsame) (by decide)

end Example
end ITemplate
end OpenAsip
