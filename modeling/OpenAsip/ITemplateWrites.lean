import OpenAsip.ITemplatePlaces

namespace OpenAsip
set_option autoImplicit true

namespace ITemplate
open List (Perm)
open scoped List

section Writes
variable {ν : Type} {m : Machine} {program : Program ν} {ii : Nat} {s s' : State ν}
variable {t : InstructionTemplate} {imm : Immediate}

/-- The register that is written does not matter to a template. -/
theorem findITemplates_index (m : Machine) (s : State ν) (c : Nat) (buses : List String)
    (v : TerminalImmediate) (unit : String) (index index' : Nat) :
    findITemplates m s c buses [⟨v, unit, index⟩] = findITemplates m s c buses [⟨v, unit, index'⟩] :=
  rfl

/-- A template that can carry more in one state can carry it in another one, where the move is
already there. -/
theorem mem_findITemplates_alike {buses : List String}
    (hb : busesAt s' c ~ buses ++ busesAt s c) (hn : nodesAt s' c = nodesAt s c)
    (ha : ∀ k, Alike m (s.immediate k) (s'.immediate k))
    (h : t ∈ findITemplates m s c buses [imm]) : t ∈ findITemplates m s' c [] [imm] := by
  obtain ⟨hmem, hfits⟩ := mem_findITemplates.1 h
  refine mem_findITemplates.2 ⟨hmem, ?_⟩
  -- the new immediate is put beside those of the nodes
  have hmap : ∀ f : ν → Immediate, [imm] ++ (nodesAt s c).map f =
      (none :: (nodesAt s c).map some).map fun o => Option.elim o imm f := by
    intro f
    rw [List.map_cons, List.map_map]
    rfl
  have halike : ∀ o ∈ none :: (nodesAt s c).map some,
      Alike m (Option.elim o imm s.immediate) (Option.elim o imm s'.immediate) := by
    intro o _
    cases o with
    | none => exact Alike.refl m imm
    | some k => exact ha k
  rw [immediatesAt_eq, hmap] at hfits
  rw [immediatesAt_eq, hn, hmap, fits_alike halike]
  exact (fits_perm hb (Perm.refl _)).trans hfits

/-- Templates are only found for an immediate whose unit is free. -/
theorem not_isImmediateInTemplate (h : t ∈ findITemplates m s c [] [imm]) :
    isImmediateInTemplate s c imm = false := by
  have hn := (fits_iff.1 (mem_findITemplates.1 h).2).2.1
  rw [List.singleton_append, List.map_cons, List.nodup_cons] at hn
  rw [isImmediateInTemplate, List.any_eq_false]
  intro i hi hsame
  simp only [Bool.and_eq_true, decide_eq_true_eq] at hsame
  exact hn.1 (hsame.2.1 ▸ List.mem_map_of_mem hi)

variable [DecidableEq ν]

/-- The second half of `assignImmediate`: in `r` the old template has been freed. -/
theorem Fitting.write (h : Fitting m program s) {r : State ν}
    (hins : r.instructions =
      Function.update s.instructions d (some ⟨t', movesAt s d, nodesAt s d⟩))
    (himm : r.immediate = s.immediate) (hmark : Marked m r d none)
    (hrec : ∀ c, c ≠ d → ∀ name, r.resourceRecord name c = s.resourceRecord name c)
    (ht : t ∈ findITemplates m s d [] [imm]) (hnew : ∀ c, n ∉ nodesAt s c)
    (hconst : Constant m (program.constant n) imm)
    (hs' : s' = ITemplate.addImmediate (setInstructionTemplate
      (assignResource (r.setImmediate n (atWidth m t imm)) t d) d t) d n) :
    Fitting m program s' ∧ s'.instructions =
        Function.update s.instructions d (some ⟨t, movesAt s d, nodesAt s d ++ [n]⟩) ∧
      s'.cycle = r.cycle ∧ s'.immediateCycles = r.immediateCycles := by
  obtain ⟨hmem, hfits⟩ := mem_findITemplates.1 ht
  have hat : Alike m imm (atWidth m t imm) :=
    alike_atWidth ((fits_iff.1 hfits).2.2.1 imm List.mem_cons_self).2
  have hset : (setInstructionTemplate (assignResource (r.setImmediate n (atWidth m t imm)) t d) d
      t).instructions = Function.update s.instructions d (some ⟨t, movesAt s d, nodesAt s d⟩) := by
    rw [setInstructionTemplate, assignResource_instructions]
    simp only [State.setImmediate, State.setInstruction, hins, Function.update_self,
      assignResource_instructions, Function.update_idem]
  have hins' : s'.instructions =
      Function.update s.instructions d (some ⟨t, movesAt s d, nodesAt s d ++ [n]⟩) := by
    rw [hs', ITemplate.addImmediate, hset, Function.update_self]
    simp only [State.setInstruction, hset, Function.update_idem]
  rw [addImmediate_eq, setInstructionTemplate_eq] at hs'
  have himm' : s'.immediate = Function.update s.immediate n (atWidth m t imm) := by
    rw [hs', assignResource_immediate, State.setImmediate, himm]
  have hrecord : s'.resourceRecord =
      (assignResource (r.setImmediate n (atWidth m t imm)) t d).resourceRecord := by
    rw [hs']
  have hother : ∀ k, k ≠ n → s'.immediate k = s.immediate k := by
    intro k hk
    rw [himm', Function.update_of_ne hk]
  refine ⟨h.replace hins' ⟨hmem, fun mv => h.buses mv, ?_⟩ ?_ ?_ ?_ ?_, hins', ?_, ?_⟩
  · have hf : m.fits t ((movesAt s d).map Prod.snd)
        ((nodesAt s d ++ [n]).map (Function.update s.immediate n imm)) := by
      have hold : (nodesAt s d).map (Function.update s.immediate n imm) =
          (nodesAt s d).map s.immediate := by
        refine List.map_congr_left fun k hk => Function.update_of_ne ?_ ..
        rintro rfl
        exact hnew d hk
      rw [List.map_append, hold, List.map_singleton, Function.update_self, ← busesAt_eq,
        ← immediatesAt_eq]
      exact (fits_perm (Perm.refl _) List.perm_append_comm).trans hfits
    rw [himm', fits_alike (f := Function.update s.immediate n imm)]
    · exact hf
    · intro k _
      by_cases hk : k = n
      · subst hk
        rwa [Function.update_self, Function.update_self]
      · rw [Function.update_of_ne hk, Function.update_of_ne hk]
        exact Alike.refl m _
  · have hfree : Marked m (r.setImmediate n (atWidth m t imm)) d none := hmark.congr fun _ => rfl
    exact (hfree.assignResource hmem).congr fun name => by rw [hrecord]
  · intro c hc name
    rw [hrecord, assignResource_ne hc]
    exact hrec c hc name
  · intro c ins hc hi k hk
    rw [hother k]
    · exact Alike.refl m _
    · rintro rfl
      exact hnew c (nodesAt_some hi ▸ hk)
  · intro k
    by_cases hk : k = n
    · subst hk
      rw [himm', Function.update_self]
      exact hconst.alike hat
    · rw [hother k hk]
      exact h.constant k
  · rw [hs', assignResource_cycle]
    rfl
  · rw [hs', assignResource_immediateCycles]
    rfl

theorem Fitting.assignImmediate (h : Fitting m program s)
    (ht : t ∈ findITemplates m s d [] [imm]) (hnew : ∀ c, n ∉ nodesAt s c)
    (hconst : Constant m (program.constant n) imm) :
    ∃ s' t', ITemplate.assignImmediate m s d n imm = .ok s' ∧ Fitting m program s' ∧
      s'.instructions =
        Function.update s.instructions d (some ⟨t', movesAt s d, nodesAt s d ++ [n]⟩) ∧
      s'.cycle = s.cycle ∧ s'.immediateCycles = s.immediateCycles := by
  have hmark := h.marked d
  rw [ITemplate.assignImmediate]
  cases hl : findITemplates m s d [] [imm] with
  | nil => rw [hl] at ht; cases ht
  | cons t' l =>
    have ht' : t' ∈ findITemplates m s d [] [imm] := hl ▸ List.mem_cons_self
    dsimp only
    refine ⟨_, t', rfl, ?_⟩
    cases hi : s.instructions d with
    | none =>
      rw [hi] at hmark
      exact h.write (r := s.setInstruction d ⟨t', [], []⟩)
        (by rw [movesAt_none hi, nodesAt_none hi]; rfl) rfl (hmark.congr fun _ => rfl)
        (fun _ _ _ => rfl) ht' hnew hconst rfl
    | some ins =>
      rw [hi] at hmark
      have hfree := hmark.unassignResource (h.sound d ins hi).template
      have hsame : (unassignResource s ins.template d).instructions = Function.update
          s.instructions d (some ⟨ins.template, movesAt s d, nodesAt s d⟩) := by
        rw [unassignResource_instructions, movesAt_some hi, nodesAt_some hi]
        exact (Function.update_eq_self_iff.2 hi.symm).symm
      have hw := h.write hsame unassignResource_immediate hfree
        (fun c hc name => unassignResource_ne hc name) ht' hnew hconst rfl
      rwa [unassignResource_cycle, unassignResource_immediateCycles] at hw

/-- The immediate that a move reads has been put into the instruction that writes it. -/
theorem Inv.assignImmediate (h : Inv m program ii s) (hk : program.isMove n = true)
    (hc : s.cycle n ≠ none) (hw : s.immediateCycles n = none)
    (ht : t ∈ findITemplates m s d [] [imm]) (hconst : Constant m (program.constant n) imm) :
    ∃ s', ITemplate.assignImmediate m s d n imm = .ok s' ∧
      Inv m program ii (s'.setImmediateCycle n (some d)) := by
  have hnew : ∀ c, n ∉ nodesAt s c := by
    intro c hn
    obtain hd | ⟨hf, -⟩ := (h.tracked n).holder c hn
    · rw [hw] at hd
      cases hd
    · rw [hk] at hf
      cases hf
  obtain ⟨s', t', he, hfit, hins, hcycle, hwrite⟩ :=
    h.fitting.assignImmediate ht hnew hconst
  have hnodes : ∀ c, n ∈ nodesAt s' c ↔ c = d := by
    intro c
    rw [nodesAt_update hins]
    split
    · rename_i hd
      simp only [hd, List.mem_append, List.mem_singleton, or_true]
    · rename_i hd
      simp only [hd, hnew c]
  refine ⟨s', he, hfit.setImmediateCycle n _, ?_⟩
  refine h.tracked.update (n := n) hins (fun k hne => ?_) (fun k _ => ?_) (fun k hne => ?_)
    ⟨fun cycle hc' => ⟨?_, fun hf => ?_⟩, fun c hd => ?_, fun c hn => ?_⟩
  · simp only [List.mem_append, List.mem_singleton, hne, or_false]
  · rw [setImmediateCycle_cycle, hcycle]
  · rw [setImmediateCycle_ne _ _ hne, hwrite]
  · rw [setImmediateCycle_cycle, hcycle] at hc'
    obtain ⟨⟨ins, hi⟩, -⟩ := (h.tracked n).placed cycle hc'
    rw [setImmediateCycle_instructions, hins]
    by_cases hidx : instructionIndex ii cycle = d
    · exact ⟨_, by rw [hidx, Function.update_self]⟩
    · exact ⟨ins, by rw [Function.update_of_ne hidx, hi]⟩
  · rw [hk] at hf
    cases hf
  · rw [setImmediateCycle_self] at hd
    cases hd
    rw [setImmediateCycle_cycle, hcycle]
    exact ⟨hk, hc, (hnodes d).2 rfl⟩
  · rw [(hnodes c).1 hn, setImmediateCycle_self]
    exact .inl rfl

/-- A move and, if it reads one, its long immediate find their templates. -/
theorem Inv.assignMove (h : Inv m program ii s) (hk : program.isMove n = true)
    (hc : s.cycle n = none) (hb : bus ∈ m.buses)
    (ht : t ∈ findITemplates m s (instructionIndex ii cycle) [bus] [])
    (hwrite : ∀ w, write = some w →
      findITemplates m s (instructionIndex ii w.immediateWriteCycle)
        (if instructionIndex ii w.immediateWriteCycle = instructionIndex ii cycle then [bus] else [])
        [⟨program.constant n, w.unit, w.index⟩] ≠ []) :
    ∃ s', ITemplate.assignMove m program ii s cycle n bus write t = .ok s' ∧
      Inv m program ii s' := by
  have hinv := h.addMove hk hc hb ht
  have hs := h.fitting.selected_of_mem ht
  have hins := hs.addMove n bus
  cases write with
  | none => exact ⟨_, rfl, hinv⟩
  | some w =>
    obtain ⟨u, hu⟩ := List.exists_mem_of_ne_nil _ (hwrite w rfl)
    have hplaced : ((ITemplate.addMove (selectTemplate m s (instructionIndex ii cycle) t)
        (instructionIndex ii cycle) n bus).setCycle n (some cycle)).cycle n ≠ none := by
      rw [setCycle_self]
      exact nofun
    have hunwritten : ((ITemplate.addMove (selectTemplate m s (instructionIndex ii cycle) t)
        (instructionIndex ii cycle) n bus).setCycle n (some cycle)).immediateCycles n = none := by
      rw [setCycle_immediateCycles, addMove_immediateCycles, hs.immediateCycles]
      exact ((h.tracked n).fresh hc).1
    have hu' : u ∈ findITemplates m ((ITemplate.addMove (selectTemplate m s
        (instructionIndex ii cycle) t) (instructionIndex ii cycle) n bus).setCycle n (some cycle))
        (instructionIndex ii w.immediateWriteCycle) [] [⟨program.constant n, w.unit, w.index⟩] := by
      refine mem_findITemplates_alike ?_ ?_ (fun k => ?_) hu
      · rw [busesAt_eq, busesAt_eq, movesAt_setCycle, movesAt_update hins]
        split
        · rename_i hidx
          rw [List.map_append, hidx]
          exact List.perm_append_comm
        · exact Perm.refl _
      · rw [nodesAt_setCycle, nodesAt_update hins]
        split
        · rename_i hidx
          rw [hidx]
        · rfl
      · change Alike m (s.immediate k) ((ITemplate.addMove _ _ n bus).immediate k)
        rw [addMove_eq]
        exact hs.alike k
    obtain ⟨s', he, hinv'⟩ := hinv.assignImmediate hk hplaced hunwritten hu'
      (Constant.refl m _ _ _)
    dsimp only [ITemplate.assignMove]
    rw [not_isImmediateInTemplate hu', he]
    exact ⟨_, rfl, hinv'⟩

end Writes
end ITemplate
end OpenAsip
