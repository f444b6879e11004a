import OpenAsip.ITemplateSteps

namespace OpenAsip
set_option autoImplicit true

namespace ITemplate
open List (Perm)
open scoped List

section Removal
variable {ν : Type} {m : Machine} {program : Program ν} {s s' : State ν}
variable {t : InstructionTemplate} {imm : Immediate}

theorem findITemplates_congr (hm : movesAt s' c = movesAt s c) (hn : nodesAt s' c = nodesAt s c)
    (hi : s'.immediate = s.immediate) (buses : List String) (l : List Immediate) :
    findITemplates m s' c buses l = findITemplates m s c buses l := by
  rw [findITemplates, findITemplates, busesAt_eq, busesAt_eq, immediatesAt_eq, immediatesAt_eq, hm,
    hn, hi]

/-- The template of an instruction can carry what is left of it. -/
theorem Fitting.find_ne_nil (h : Fitting m program s) (hi : s.instructions c = some ins)
    (hm : movesAt s' c <+ ins.moves) (hn : nodesAt s' c <+ ins.immediates)
    (himm : s'.immediate = s.immediate) : findITemplates m s' c [] [] ≠ [] := by
  have hs := h.sound c ins hi
  have hfits : m.fits ins.template (busesAt s' c) (immediatesAt s' c) := by
    rw [busesAt_eq, immediatesAt_eq, himm]
    exact fits_sublist hs.fits (hm.map _) (hn.map _)
  exact List.ne_nil_of_mem (mem_findITemplates.2 ⟨hs.template, hfits⟩)

/-- A part of one instruction is taken out. -/
theorem Fitting.sublist (h : Fitting m program s) (hi : s.instructions c = some ins)
    (hm : moves <+ ins.moves) (hn : nodes <+ ins.immediates) :
    Fitting m program (s.setInstruction c ⟨ins.template, moves, nodes⟩) := by
  have hs := h.sound c ins hi
  have hmark := h.marked c
  rw [hi] at hmark
  exact h.replace rfl
    ⟨hs.template, fun mv hmv => hs.buses mv (hm.subset hmv), fits_sublist hs.fits (hm.map _) (hn.map _)⟩
    hmark (fun _ _ _ => rfl) (fun _ _ _ _ n _ => Alike.refl m _) h.constant

/-- Selecting the template again that the instruction has changes nothing. -/
theorem reselectTemplate_eq (hi : s.instructions c = some ins)
    (hmark : Marked m s c (some ins.template)) (ht : ins.template ∈ m.templates)
    (hfind : (findITemplates m s c [] []).head? = some ins.template) :
    reselectTemplate m s c = .ok s := by
  rw [reselectTemplate]
  cases hl : findITemplates m s c [] [] with
  | nil => rw [hl] at hfind; cases hfind
  | cons t l =>
    rw [hl, List.head?_cons] at hfind
    cases hfind
    have hset : setInstructionTemplate s c ins.template = s := by
      rw [setInstructionTemplate, hi]
      dsimp only [State.setInstruction]
      rw [Function.update_eq_self_iff.2 hi.symm]
    dsimp only
    rw [hset, hmark.assignResource_eq ht]

/-- A new template is selected in `r`, where a part of the instruction has been taken out and the
old template has been freed. -/
theorem Fitting.reselect (h : Fitting m program s) (hi : s.instructions c = some ins)
    {r : State ν} (hins : r.instructions =
      Function.update s.instructions c (some ⟨ins.template, moves, nodes⟩))
    (hm : moves <+ ins.moves) (hn : nodes <+ ins.immediates) (himm : r.immediate = s.immediate)
    (hmark : Marked m r c none)
    (hrec : ∀ c', c' ≠ c → ∀ name, r.resourceRecord name c' = s.resourceRecord name c') :
    ∃ s' t, reselectTemplate m r c = .ok s' ∧ Fitting m program s' ∧
      s'.instructions = Function.update s.instructions c (some ⟨t, moves, nodes⟩) ∧
      s'.immediate = s.immediate ∧ s'.cycle = r.cycle ∧ s'.immediateCycles = r.immediateCycles ∧
      (findITemplates m s' c [] []).head? = some t := by
  have hs := h.sound c ins hi
  have hmoves : movesAt r c = moves := by rw [movesAt_update hins, if_pos rfl]
  have hnodes : nodesAt r c = nodes := by rw [nodesAt_update hins, if_pos rfl]
  have hne : findITemplates m r c [] [] ≠ [] :=
    h.find_ne_nil hi (hmoves ▸ hm) (hnodes ▸ hn) himm
  rw [reselectTemplate]
  cases hl : findITemplates m r c [] [] with
  | nil => exact absurd hl hne
  | cons t l =>
    have hmem : t ∈ findITemplates m r c [] [] := by
      rw [hl]
      exact List.mem_cons_self
    obtain ⟨ht, hfits⟩ := mem_findITemplates.1 hmem
    have hset : (assignResource (setInstructionTemplate r c t) t c).instructions =
        Function.update s.instructions c (some ⟨t, moves, nodes⟩) := by
      rw [assignResource_instructions, setInstructionTemplate, hins, Function.update_self]
      simp only [State.setInstruction, hins, Function.update_idem]
    have heq := setInstructionTemplate_eq r c t
    have hi' : (assignResource (setInstructionTemplate r c t) t c).immediate = s.immediate := by
      rw [assignResource_immediate, heq, himm]
    refine ⟨_, t, rfl, ?_, hset, hi', by rw [assignResource_cycle, heq], ?_, ?_⟩
    · refine h.replace hset ⟨ht, fun mv hmv => hs.buses mv (hm.subset hmv), ?_⟩ ?_ ?_ ?_ ?_
      · rw [hi', ← himm, ← hmoves, ← hnodes, ← busesAt_eq, ← immediatesAt_eq]
        exact hfits
      · rw [heq]
        exact Marked.assignResource (hmark.congr fun _ => rfl) ht
      · intro c' hc name
        rw [assignResource_ne hc, heq]
        exact hrec c' hc name
      · intro _ _ _ _ n _
        rw [hi']
        exact Alike.refl m _
      · rw [hi']
        exact h.constant
    · rw [assignResource_immediateCycles, heq]
    · rw [findITemplates_congr _ _ (hi'.trans himm.symm), hl, List.head?_cons]
      · rw [movesAt_update hset, if_pos rfl, hmoves]
      · rw [nodesAt_update hset, if_pos rfl, hnodes]

/-- `unassignImmediate` frees the old template before it selects a new one. -/
theorem Fitting.unassignImmediate (h : Fitting m program s) (unit : String)
    (hi : s.instructions c = some ins) :
    ∃ s' t, ITemplate.unassignImmediate m s c unit = .ok s' ∧ Fitting m program s' ∧
      s'.instructions = Function.update s.instructions c (some ⟨t, ins.moves,
        ins.immediates.eraseP fun n => (s.immediate n).unit = unit⟩) ∧
      s'.immediate = s.immediate ∧ s'.cycle = s.cycle ∧ s'.immediateCycles = s.immediateCycles ∧
      (findITemplates m s' c [] []).head? = some t := by
  have hs := h.sound c ins hi
  have hmark := h.marked c
  rw [hi] at hmark
  have hrem : removeUnit (unassignResource s ins.template c) c unit =
      (unassignResource s ins.template c).setInstruction c ⟨ins.template, ins.moves,
        ins.immediates.eraseP fun n => (s.immediate n).unit = unit⟩ := by
    rw [removeUnit, unassignResource_instructions, hi, unassignResource_immediate]
  have hfree := (hmark.unassignResource hs.template)
  rw [ITemplate.unassignImmediate, hi]
  dsimp only
  rw [hrem]
  have hr := h.reselect hi (r := (unassignResource s ins.template c).setInstruction c ⟨ins.template,
    ins.moves, ins.immediates.eraseP fun n => (s.immediate n).unit = unit⟩)
    (by rw [State.setInstruction, unassignResource_instructions]) (List.Sublist.refl _)
    List.eraseP_sublist unassignResource_immediate (hfree.congr fun _ => rfl)
    fun c' hc name => unassignResource_ne hc name
  simpa only [State.setInstruction, unassignResource_cycle, unassignResource_immediateCycles] using hr

end Removal
end ITemplate
end OpenAsip
