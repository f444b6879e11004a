import OpenAsip.ITemplateRecords

namespace OpenAsip
set_option autoImplicit true

namespace ITemplate
open List (Perm)
open scoped List

section Steps
variable {ν : Type} {m : Machine} {program : Program ν} {s s' : State ν}
variable {t : InstructionTemplate}

/-- What `selectTemplate` does: the instruction of the cycle has the template, the contents stay. -/
structure Selected (m : Machine) (s s' : State ν) (c : Nat) (t : InstructionTemplate) : Prop where
  instructions : s'.instructions =
    Function.update s.instructions c (some ⟨t, movesAt s c, nodesAt s c⟩)
  alike : ∀ n, Alike m (s.immediate n) (s'.immediate n)
  marked : Marked m s' c (some t)
  record : ∀ c', c' ≠ c → ∀ name, s'.resourceRecord name c' = s.resourceRecord name c'
  cycle : s'.cycle = s.cycle
  immediateCycles : s'.immediateCycles = s.immediateCycles

/-- Something is added to the instruction that the template has been selected for. -/
theorem Selected.fitting (h : Fitting m program s) (hs : Selected m s s' c t)
    {s'' : State ν} {moves : List (ν × String)} {nodes : List ν}
    (hins : s''.instructions = Function.update s.instructions c (some ⟨t, moves, nodes⟩))
    (himm : s''.immediate = s'.immediate) (hrec : s''.resourceRecord = s'.resourceRecord)
    (ht : t ∈ m.templates) (hb : ∀ mv ∈ moves, mv.2 ∈ m.buses)
    (hfits : m.fits t (moves.map Prod.snd) (nodes.map s.immediate)) : Fitting m program s'' := by
  have halike : ∀ n, Alike m (s.immediate n) (s''.immediate n) := by
    rw [himm]
    exact hs.alike
  refine h.replace hins ⟨ht, hb, ?_⟩ (hs.marked.congr fun name => by rw [hrec])
    (fun c' hc name => by rw [hrec, hs.record c' hc]) (fun _ _ _ _ n _ => halike n)
    fun n => (h.constant n).alike (halike n)
  rw [fits_alike fun n _ => halike n]
  exact hfits

theorem Selected.addMove (hs : Selected m s s' c t) (n : ν) (bus : String) :
    (addMove s' c n bus).instructions = Function.update s.instructions c
      (some ⟨t, movesAt s c ++ [(n, bus)], nodesAt s c⟩) := by
  have hi : s'.instructions c = some ⟨t, movesAt s c, nodesAt s c⟩ := by
    rw [hs.instructions, Function.update_self]
  rw [ITemplate.addMove, hi]
  simp only [State.setInstruction, hs.instructions, Function.update_idem]

theorem Selected.addImmediate (hs : Selected m s s' c t) (n : ν) :
    (addImmediate s' c n).instructions = Function.update s.instructions c
      (some ⟨t, movesAt s c, nodesAt s c ++ [n]⟩) := by
  have hi : s'.instructions c = some ⟨t, movesAt s c, nodesAt s c⟩ := by
    rw [hs.instructions, Function.update_self]
  rw [ITemplate.addImmediate, hi]
  simp only [State.setInstruction, hs.instructions, Function.update_idem]

theorem addMove_eq (s : State ν) (c : Nat) (n : ν) (bus : String) :
    addMove s c n bus = { s with instructions := (addMove s c n bus).instructions } := by
  rw [addMove]; split <;> rfl

theorem addImmediate_eq (s : State ν) (c : Nat) (n : ν) :
    addImmediate s c n = { s with instructions := (addImmediate s c n).instructions } := by
  rw [addImmediate]; split <;> rfl

theorem setInstructionTemplate_eq (s : State ν) (c : Nat) (t : InstructionTemplate) :
    setInstructionTemplate s c t =
      { s with instructions := (setInstructionTemplate s c t).instructions } := by
  rw [setInstructionTemplate]; split <;> rfl

variable [DecidableEq ν]

theorem narrowAll_eq (nodes : List ν) :
    narrowAll m t s nodes = { s with immediate := (narrowAll m t s nodes).immediate } := by
  induction nodes generalizing s with
  | nil => rfl
  | cons n nodes ih =>
    rw [narrowAll, List.foldl_cons]
    exact ih

theorem alike_narrowAll {nodes : List ν} (h : ∀ n ∈ nodes, m.transports t (s.immediate n)) (k : ν) :
    Alike m (s.immediate k) ((narrowAll m t s nodes).immediate k) := by
  induction nodes generalizing s with
  | nil => exact Alike.refl m _
  | cons n nodes ih =>
    have hn := alike_narrowed (h n List.mem_cons_self)
    have hone : ∀ k, Alike m (s.immediate k)
        ((s.setImmediate n (narrowed m t (s.immediate n))).immediate k) := by
      intro k
      by_cases hk : k = n
      · subst hk
        simpa only [State.setImmediate, Function.update_self] using hn
      · simpa only [State.setImmediate, Function.update_of_ne hk] using Alike.refl m (s.immediate k)
    rw [narrowAll, List.foldl_cons]
    refine (hone k).trans (ih fun j hj => ?_)
    rw [(hone j).transports]
    exact h j (List.mem_cons_of_mem n hj)

theorem Fitting.selected (h : Fitting m program s) (ht : t ∈ m.templates)
    (hfits : m.fits t (busesAt s c) (immediatesAt s c)) :
    Selected m s (selectTemplate m s c t) c t := by
  have hmarked := h.marked c
  rw [selectTemplate]
  cases hi : s.instructions c with
  | none =>
    rw [hi] at hmarked
    rw [← movesAt_none hi, ← nodesAt_none hi]
    refine ⟨assignResource_instructions, fun n => ?_, ?_, fun c' hc name => ?_,
      assignResource_cycle, assignResource_immediateCycles⟩
    · rw [assignResource_immediate]
      exact Alike.refl m _
    · exact Marked.assignResource (hmarked.congr fun _ => rfl) ht
    · rw [assignResource_ne hc]
      rfl
  | some ins =>
    have hold := (h.sound c ins hi).template
    rw [hi] at hmarked
    dsimp only
    split
    · rw [narrowAll_eq]
      have htr : ∀ n ∈ ins.immediates,
          m.transports t ((unassignResource s ins.template c).immediate n) := by
        intro n hn
        rw [unassignResource_immediate]
        rw [immediatesAt_eq, nodesAt_some hi] at hfits
        exact ((fits_iff.1 hfits).2.2.1 _ (List.mem_map_of_mem hn)).2
      refine ⟨?_, fun n => ?_, ?_, fun c' hc name => ?_, ?_, ?_⟩
      · simp only [assignResource_instructions, State.setInstruction, unassignResource_instructions,
          movesAt_some hi, nodesAt_some hi]
      · rw [assignResource_immediate]
        have ha := alike_narrowAll htr n
        rwa [unassignResource_immediate] at ha
      · exact Marked.assignResource ((hmarked.unassignResource hold).congr fun _ => rfl) ht
      · rw [assignResource_ne hc]
        exact unassignResource_ne hc name
      · simp only [assignResource_cycle, State.setInstruction, unassignResource_cycle]
      · simp only [assignResource_immediateCycles, State.setInstruction,
          unassignResource_immediateCycles]
    · rename_i hname
      rw [not_not] at hname
      obtain rfl := m.name_inj hold ht hname
      refine ⟨?_, fun n => Alike.refl m _, hmarked, fun _ _ _ => rfl, rfl, rfl⟩
      rw [movesAt_some hi, nodesAt_some hi]
      exact (Function.update_eq_self_iff.2 hi.symm).symm

/-- A template that can carry more than there is can be selected. -/
theorem Fitting.selected_of_mem {buses : List String} {l : List Immediate}
    (h : Fitting m program s) (ht : t ∈ findITemplates m s c buses l) :
    Selected m s (selectTemplate m s c t) c t := by
  obtain ⟨hmem, hfits⟩ := mem_findITemplates.1 ht
  exact h.selected hmem (fits_sublist hfits (List.sublist_append_right _ _)
    (List.sublist_append_right _ _))

theorem Fitting.addMove (h : Fitting m program s) (hb : bus ∈ m.buses)
    (ht : t ∈ findITemplates m s c [bus] []) :
    Fitting m program (addMove (selectTemplate m s c t) c n bus) := by
  obtain ⟨hmem, hfits⟩ := mem_findITemplates.1 ht
  have hs := h.selected_of_mem ht
  refine hs.fitting h (hs.addMove n bus) (by rw [addMove_eq]) (by rw [addMove_eq]) hmem ?_ ?_
  · intro mv hmv
    obtain hmv | hmv := List.mem_append.1 hmv
    · exact h.buses mv hmv
    · obtain rfl := List.mem_singleton.1 hmv
      exact hb
  · rw [List.map_append, ← busesAt_eq, ← immediatesAt_eq]
    have hp : busesAt s c ++ [bus] ~ [bus] ++ busesAt s c := List.perm_append_comm
    exact (fits_perm hp (Perm.refl _)).trans hfits

theorem Fitting.addImmediate (h : Fitting m program s)
    (ht : t ∈ findITemplates m s c [] [s.immediate n]) :
    Fitting m program (addImmediate (selectTemplate m s c t) c n) := by
  obtain ⟨hmem, hfits⟩ := mem_findITemplates.1 ht
  have hs := h.selected_of_mem ht
  refine hs.fitting h (hs.addImmediate n) (by rw [addImmediate_eq]) (by rw [addImmediate_eq]) hmem
    (fun mv => h.buses mv) ?_
  rw [List.map_append, ← busesAt_eq, ← immediatesAt_eq]
  have hp : immediatesAt s c ++ [s.immediate n] ~ [s.immediate n] ++ immediatesAt s c :=
    List.perm_append_comm
  exact (fits_perm (Perm.refl _) hp).trans hfits

end Steps
end ITemplate
end OpenAsip
