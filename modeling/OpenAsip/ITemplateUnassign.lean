import OpenAsip.ITemplateWrites

namespace OpenAsip
set_option autoImplicit true

namespace ITemplate
open List (Perm)
open scoped List

theorem sameValue_refl (k : TerminalImmediate) : sameValue k k = true := by
  cases k with
  | value v => exact decide_eq_true rfl
  | instructionAddress => rfl
  | basicBlockReference => rfl
  | codeSymbolReference symbol => exact decide_eq_true rfl

/-- Where all images differ, an image finds its own element. -/
theorem eraseP_eq_erase [DecidableEq α] [DecidableEq β] {f : α → β} {l : List α}
    (hl : (l.map f).Nodup) (ha : a ∈ l) : l.eraseP (fun b => f b = f a) = l.erase a := by
  induction l with
  | nil => cases ha
  | cons b l ih =>
    rw [List.map_cons, List.nodup_cons] at hl
    by_cases hb : b = a
    · subst hb
      rw [List.erase_cons_head, List.eraseP_cons_of_pos (by simp)]
    · have ha' : a ∈ l := (List.mem_cons.1 ha).resolve_left fun h => hb h.symm
      have hne : f b ≠ f a := fun h => hl.1 (h ▸ List.mem_map_of_mem ha')
      rw [List.erase_cons_tail (by simpa using hb), List.eraseP_cons_of_neg (by simpa using hne),
        ih hl.2 ha']

section Unassign
variable {ν : Type} {m : Machine} {program : Program ν} {ii : Nat} {s s' : State ν}
variable {t : InstructionTemplate} {imm : Immediate}

/-- In a state that fits, reselecting the template that is there changes nothing. -/
theorem Fitting.reselect_same (h : Fitting m program s) (hi : s.instructions c = some ins)
    (hhead : (findITemplates m s c [] []).head? = some ins.template) :
    reselectTemplate m s c = .ok s := by
  have hmark := h.marked c
  rw [hi] at hmark
  exact reselectTemplate_eq hi hmark (h.sound c ins hi).template hhead

/-- A cycle gets its instruction. -/
theorem Inv.instruction (h : Inv m program ii s) (hm : m.templates ≠ []) (cycle : Nat) :
    ∃ s', ITemplate.instruction m ii s cycle = .ok s' ∧ Inv m program ii s' := by
  rw [ITemplate.instruction]
  cases hi : s.instructions (instructionIndex ii cycle) with
  | some ins => exact ⟨s, rfl, h⟩
  | none =>
    dsimp only
    cases hl : findITemplates m s (instructionIndex ii cycle) [] [] with
    | nil =>
      exfalso
      obtain ⟨t, ht⟩ := List.exists_mem_of_ne_nil _ hm
      have hf : t ∈ findITemplates m s (instructionIndex ii cycle) [] [] := by
        refine mem_findITemplates.2 ⟨ht, ?_⟩
        rw [busesAt_eq, immediatesAt_eq, movesAt_none hi, nodesAt_none hi]
        exact fits_iff.2 ⟨.inr (Nat.zero_le _), List.nodup_nil, List.forall_mem_nil _,
          List.forall_mem_nil _⟩
      rw [hl] at hf
      cases hf
    | cons t l =>
      obtain ⟨ht, hfits⟩ := mem_findITemplates.1 (hl ▸ List.mem_cons_self :
        t ∈ findITemplates m s (instructionIndex ii cycle) [] [])
      rw [busesAt_eq, immediatesAt_eq, movesAt_none hi, nodesAt_none hi] at hfits
      have hmark := h.fitting.marked (instructionIndex ii cycle)
      rw [hi] at hmark
      have hins : ((assignResource s t (instructionIndex ii cycle)).setInstruction
          (instructionIndex ii cycle) ⟨t, [], []⟩).instructions =
            Function.update s.instructions (instructionIndex ii cycle) (some ⟨t, [], []⟩) := by
        rw [State.setInstruction, assignResource_instructions]
      refine ⟨_, rfl, h.fitting.replace hins ⟨ht, List.forall_mem_nil _, hfits⟩
        ((hmark.assignResource ht).congr fun _ => rfl) (fun c hc name => assignResource_ne hc name)
        (fun _ _ _ _ k _ => ?_) (fun k => ?_), fun k => ?_⟩
      · rw [State.setInstruction, assignResource_immediate]
        exact Alike.refl m _
      · rw [State.setInstruction, assignResource_immediate]
        exact h.fitting.constant k
      · refine (h.tracked k).update hins (by rw [nodesAt_none hi]) ?_ ?_
        · rw [State.setInstruction, assignResource_cycle]
        · rw [State.setInstruction, assignResource_immediateCycles]

variable [DecidableEq ν]

theorem removeMove_eq (hi : s.instructions c = some ins) : removeMove s c n = s.setInstruction c
    ⟨ins.template, ins.moves.eraseP fun mv => mv.1 = n, ins.immediates⟩ := by
  rw [removeMove, hi]

theorem removeImmediate_eq (hi : s.instructions c = some ins) : removeImmediate s c n =
    s.setInstruction c ⟨ins.template, ins.moves, ins.immediates.erase n⟩ := by
  rw [removeImmediate, hi]

theorem Inv.removeMove (h : Inv m program ii s) (hi : s.instructions c = some ins) :
    Inv m program ii (removeMove s c n) := by
  rw [removeMove_eq hi]
  refine ⟨h.fitting.sublist hi List.eraseP_sublist (List.Sublist.refl _), fun k => ?_⟩
  exact (h.tracked k).update rfl (by rw [nodesAt_some hi]) rfl rfl

/-- A node that is in no instruction as an immediate is not placed any more. -/
theorem Inv.clear (h : Inv m program ii s) (hw : s.immediateCycles n = none)
    (hn : ∀ c, n ∉ nodesAt s c) : Inv m program ii (s.setCycle n none) := by
  refine ⟨h.fitting.setCycle n _, fun k => ?_⟩
  by_cases hk : k = n
  · subst hk
    refine ⟨fun cycle hc => ?_, fun c hc => ?_, fun c hc => absurd hc (hn c)⟩
    · rw [setCycle_self] at hc
      cases hc
    · rw [setCycle_immediateCycles, hw] at hc
      cases hc
  · refine ⟨fun cycle hc => ?_, fun c hc => ?_, fun c hc => ?_⟩
    · rw [setCycle_ne _ _ hk] at hc
      exact (h.tracked k).placed cycle hc
    · rw [setCycle_ne _ _ hk]
      exact (h.tracked k).written c hc
    · rw [setCycle_ne _ _ hk]
      exact (h.tracked k).holder c hc

/-- The immediate of a move is taken out of the instruction that it is written in. -/
theorem Inv.unassignImmediate (h : Inv m program ii s) (hw : s.immediateCycles n = some d) :
    isImmediateInTemplate s d (s.immediate n) = true ∧
      ∃ s' t ins, ITemplate.unassignImmediate m s d (s.immediate n).unit = .ok s' ∧
        Inv m program ii (s'.setImmediateCycle n none) ∧ (∀ c, n ∉ nodesAt s' c) ∧
        s'.instructions = Function.update s.instructions d (some ins) ∧ ins.template = t ∧
        s'.immediate = s.immediate ∧ s'.cycle = s.cycle ∧
        (findITemplates m s' d [] []).head? = some t := by
  obtain ⟨hk, hplaced, hn⟩ := (h.tracked n).written d hw
  obtain ⟨ins, hi, hmem⟩ := mem_nodesAt hn
  obtain ⟨s', t, he, hfit, hins, himm, hcycle, hwrite, hhead⟩ :=
    h.fitting.unassignImmediate (s.immediate n).unit hi
  have hsound := h.fitting.sound d ins hi
  rw [eraseP_eq_erase hsound.units_nodup hmem] at hins
  have hgone : ∀ c, n ∉ nodesAt s' c := by
    intro c hc
    rw [nodesAt_update hins] at hc
    split at hc
    · exact hsound.nodup.not_mem_erase hc
    · rename_i hne
      exact hne ((h.tracked n).unique hc hn)
  refine ⟨?_, s', t, _, he, ⟨hfit.setImmediateCycle n _, ?_⟩, hgone, hins, rfl, himm, hcycle, hhead⟩
  · rw [isImmediateInTemplate, immediatesAt_eq, List.any_map, List.any_eq_true]
    refine ⟨n, hn, ?_⟩
    simp only [Function.comp_apply, sameValue_refl, decide_true, Bool.and_self]
  · refine h.tracked.update (n := n) hins (fun k hne => ?_) (fun k _ => ?_) (fun k hne => ?_)
      ⟨fun cycle hc => ⟨?_, fun hf => ?_⟩, fun c hc => ?_, fun c hc => absurd hc (hgone c)⟩
    · rw [nodesAt_some hi, List.mem_erase_of_ne hne]
    · rw [setImmediateCycle_cycle, hcycle]
    · rw [setImmediateCycle_ne _ _ hne, hwrite]
    · rw [setImmediateCycle_cycle, hcycle] at hc
      obtain ⟨⟨ins', hi'⟩, -⟩ := (h.tracked n).placed cycle hc
      rw [setImmediateCycle_instructions, hins]
      by_cases hidx : instructionIndex ii cycle = d
      · exact ⟨_, by rw [hidx, Function.update_self]⟩
      · exact ⟨ins', by rw [Function.update_of_ne hidx, hi']⟩
    · rw [hk] at hf
      cases hf
    · rw [setImmediateCycle_self] at hc
      cases hc

/-- The broker would choose the template of the instruction again for what is left of it without the
node. -/
def KeepsTemplate (m : Machine) (program : Program ν) (s : State ν) (c : Nat) (n : ν) : Prop :=
  (findITemplates m (if program.isMove n then removeMove s c n else removeImmediate s c n) c
    [] []).head? = (s.instructions c).map Instruction.template

instance (m : Machine) (program : Program ν) (s : State ν) (c : Nat) (n : ν) :
    Decidable (KeepsTemplate m program s c n) :=
  inferInstanceAs (Decidable (_ = _))

theorem Inv.unassign_immediate (h : Inv m program ii s) (hk : program.isMove n = false)
    (hc : s.cycle n = some cycle)
    (hkeep : KeepsTemplate m program s (instructionIndex ii cycle) n) :
    ∃ s', unassign m program ii s n = .ok s' ∧ Inv m program ii s' := by
  obtain ⟨⟨ins, hi⟩, hmem⟩ := (h.tracked n).placed cycle hc
  have hn := hmem hk
  have hrem := removeImmediate_eq (n := n) hi
  have hfit := h.fitting.sublist hi (List.Sublist.refl _) (List.erase_sublist (a := n))
  have hgone : ∀ c, n ∉ nodesAt (removeImmediate s (instructionIndex ii cycle) n) c := by
    intro c hm
    rw [hrem, nodesAt_update rfl] at hm
    split at hm
    · exact (h.fitting.sound _ ins hi).nodup.not_mem_erase hm
    · rename_i hne
      exact hne ((h.tracked n).unique hm hn)
  rw [KeepsTemplate, hk, if_neg Bool.false_ne_true, hi] at hkeep
  rw [← hrem] at hfit
  have hat : (removeImmediate s (instructionIndex ii cycle) n).instructions
      (instructionIndex ii cycle) = some ⟨ins.template, ins.moves, ins.immediates.erase n⟩ := by
    rw [hrem, setInstruction_self]
  have hsame := hfit.reselect_same hat hkeep
  refine ⟨(removeImmediate s (instructionIndex ii cycle) n).setCycle n none, ?_,
    hfit.setCycle n _, ?_⟩
  · rw [unassign, hc]
    dsimp only
    rw [hk, if_neg Bool.false_ne_true, hsame]
    rfl
  · rw [hrem] at hgone ⊢
    refine h.tracked.update (n := n) rfl (fun k hne => ?_) (fun k hne => setCycle_ne _ _ hne)
      (fun k _ => rfl) ⟨fun cycle' hc' => ?_, fun c hw => ?_, fun c hm => absurd hm (hgone c)⟩
    · rw [nodesAt_some hi, List.mem_erase_of_ne hne]
    · rw [setCycle_self] at hc'
      cases hc'
    · rw [((h.tracked n).written c hw).1] at hk
      cases hk

/-- A move is taken out of its instruction, and the immediate it reads out of the one it is written
in. Only the second instruction gets its template anew. -/
theorem Inv.unassign_move (h : Inv m program ii s) (hk : program.isMove n = true)
    (hc : s.cycle n = some cycle)
    (hkeep : s.immediateCycles n = some (instructionIndex ii cycle) ∨
      KeepsTemplate m program s (instructionIndex ii cycle) n) :
    ∃ s', unassign m program ii s n = .ok s' ∧ Inv m program ii s' := by
  obtain ⟨⟨ins, hi⟩, -⟩ := (h.tracked n).placed cycle hc
  have hinv := h.removeMove (n := n) hi
  have hat : (ITemplate.removeMove s (instructionIndex ii cycle) n).instructions
      (instructionIndex ii cycle) =
        some ⟨ins.template, ins.moves.eraseP fun mv => mv.1 = n, ins.immediates⟩ := by
    rw [removeMove_eq hi, setInstruction_self]
  rw [KeepsTemplate, hk, if_pos rfl, hi] at hkeep
  have hwritten : (ITemplate.removeMove s (instructionIndex ii cycle) n).immediateCycles n =
      s.immediateCycles n := by
    rw [removeMove_eq hi]
    rfl
  have himm : (ITemplate.removeMove s (instructionIndex ii cycle) n).immediate = s.immediate := by
    rw [removeMove_eq hi]
    rfl
  rw [unassign, hc]
  dsimp only
  rw [hk, if_pos rfl]
  cases hw : s.immediateCycles n with
  | none =>
    rw [hw] at hkeep hwritten
    have hgone : ∀ c, n ∉ nodesAt (ITemplate.removeMove s (instructionIndex ii cycle) n) c := by
      intro c hm
      obtain hd | ⟨hf, -⟩ := (hinv.tracked n).holder c hm
      · rw [hwritten] at hd
        cases hd
      · rw [hk] at hf
        cases hf
    have hsame := hinv.fitting.reselect_same hat (hkeep.resolve_left nofun)
    refine ⟨_, ?_, hinv.clear hwritten hgone⟩
    dsimp only [bind, Except.bind]
    rw [hsame]
  | some d =>
    rw [hw] at hkeep hwritten
    obtain ⟨hthere, s', t, ins', he, hinv', hgone, hins, ht, himm', -, hhead⟩ :=
      hinv.unassignImmediate hwritten
    rw [himm] at hthere he
    have hsame : reselectTemplate m (s'.setImmediateCycle n none) (instructionIndex ii cycle) =
        .ok (s'.setImmediateCycle n none) := by
      by_cases hd : d = instructionIndex ii cycle
      · subst hd
        have hat' : (s'.setImmediateCycle n none).instructions (instructionIndex ii cycle) =
            some ins' := by
          rw [setImmediateCycle_instructions, hins, Function.update_self]
        refine hinv'.fitting.reselect_same hat' ?_
        rw [ht]
        exact hhead
      · have hne : instructionIndex ii cycle ≠ d := Ne.symm hd
        have hmoves : movesAt s' (instructionIndex ii cycle) =
            movesAt (ITemplate.removeMove s (instructionIndex ii cycle) n)
              (instructionIndex ii cycle) := by
          rw [movesAt_update hins, if_neg hne]
        have hnodes : nodesAt s' (instructionIndex ii cycle) =
            nodesAt (ITemplate.removeMove s (instructionIndex ii cycle) n)
              (instructionIndex ii cycle) := by
          rw [nodesAt_update hins, if_neg hne]
        refine hinv'.fitting.reselect_same (by rw [setImmediateCycle_instructions, hins,
          Function.update_of_ne hne, hat]) ?_
        have hfind := hkeep.resolve_left fun hd' => hd (by injection hd')
        rwa [← findITemplates_congr hmoves hnodes himm'] at hfind
    refine ⟨(s'.setImmediateCycle n none).setCycle n none, ?_,
      hinv'.clear (setImmediateCycle_self ..) hgone⟩
    dsimp only [bind, Except.bind]
    rw [hthere, if_pos rfl, he]
    dsimp only [Except.map]
    rw [hsame]

end Unassign
end ITemplate
end OpenAsip
