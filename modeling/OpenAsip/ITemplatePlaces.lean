import OpenAsip.ITemplateRemoval

namespace OpenAsip
set_option autoImplicit true

namespace ITemplate
open List (Perm)
open scoped List

section Runs
variable {ν : Type} {m : Machine} {program : Program ν} {ii : Nat} {s s' : State ν}
variable {t : InstructionTemplate} {imm : Immediate}

/-- Where a node is: a placed node has an instruction in its cycle, a long immediate is in that
instruction, and the immediate of a move is in the one that it is written in. -/
structure TrackedAt (program : Program ν) (ii : Nat) (s : State ν) (n : ν) : Prop where
  placed : ∀ cycle, s.cycle n = some cycle →
    (∃ ins, s.instructions (instructionIndex ii cycle) = some ins) ∧
      (program.isMove n = false → n ∈ nodesAt s (instructionIndex ii cycle))
  written : ∀ c, s.immediateCycles n = some c →
    program.isMove n = true ∧ s.cycle n ≠ none ∧ n ∈ nodesAt s c
  holder : ∀ c, n ∈ nodesAt s c → s.immediateCycles n = some c ∨
    (program.isMove n = false ∧ ∃ cycle, s.cycle n = some cycle ∧ instructionIndex ii cycle = c)

def Tracked (program : Program ν) (ii : Nat) (s : State ν) : Prop :=
  ∀ n, TrackedAt program ii s n

/-- An immediate is in one instruction at most. -/
theorem TrackedAt.unique (h : TrackedAt program ii s n) (hn : n ∈ nodesAt s c)
    (hn' : n ∈ nodesAt s c') : c = c' := by
  obtain hw | ⟨hk, cycle, hc, hi⟩ := h.holder c hn
  · obtain hw' | ⟨hk', -⟩ := h.holder c' hn'
    · rw [hw] at hw'
      injection hw'
    · rw [(h.written c hw).1] at hk'
      cases hk'
  · obtain hw' | ⟨-, cycle', hc', hi'⟩ := h.holder c' hn'
    · rw [(h.written c' hw').1] at hk
      cases hk
    · rw [hc] at hc'
      injection hc' with he
      rw [← hi, ← hi', he]

theorem TrackedAt.fresh (h : TrackedAt program ii s n) (hc : s.cycle n = none) :
    s.immediateCycles n = none ∧ ∀ c, n ∉ nodesAt s c := by
  have hw : s.immediateCycles n = none := by
    cases hw : s.immediateCycles n with
    | none => rfl
    | some c => exact absurd hc (h.written c hw).2.1
  refine ⟨hw, fun c hn => ?_⟩
  obtain hw' | ⟨-, cycle, hc', -⟩ := h.holder c hn
  · rw [hw] at hw'
    cases hw'
  · rw [hc] at hc'
    cases hc'

/-- A node stays where it is when its place stays and the instruction of one cycle keeps it. -/
theorem TrackedAt.update (h : TrackedAt program ii s n)
    (hins : s'.instructions = Function.update s.instructions c (some ins))
    (hmem : n ∈ ins.immediates ↔ n ∈ nodesAt s c) (hcycle : s'.cycle n = s.cycle n)
    (hwrite : s'.immediateCycles n = s.immediateCycles n) : TrackedAt program ii s' n := by
  have hnodes : ∀ c', n ∈ nodesAt s' c' ↔ n ∈ nodesAt s c' := by
    intro c'
    rw [nodesAt_update hins]
    split
    · rename_i hc
      rw [hc, hmem]
    · rfl
  refine ⟨fun cycle hc => ?_, fun c' hc => ?_, fun c' hc => ?_⟩
  · rw [hcycle] at hc
    obtain ⟨⟨ins', hi⟩, hmove⟩ := h.placed cycle hc
    refine ⟨?_, fun hm => (hnodes _).2 (hmove hm)⟩
    rw [hins]
    by_cases hidx : instructionIndex ii cycle = c
    · exact ⟨ins, by rw [hidx, Function.update_self]⟩
    · exact ⟨ins', by rw [Function.update_of_ne hidx, hi]⟩
  · rw [hwrite] at hc
    rw [hcycle, hnodes]
    exact h.written c' hc
  · rw [hwrite, hcycle]
    exact h.holder c' ((hnodes c').1 hc)

/-- A step changes the instruction of one cycle and the place of one node. -/
theorem Tracked.update (h : Tracked program ii s)
    (hins : s'.instructions = Function.update s.instructions c (some ins))
    (hmem : ∀ k, k ≠ n → (k ∈ ins.immediates ↔ k ∈ nodesAt s c))
    (hcycle : ∀ k, k ≠ n → s'.cycle k = s.cycle k)
    (hwrite : ∀ k, k ≠ n → s'.immediateCycles k = s.immediateCycles k)
    (hn : TrackedAt program ii s' n) : Tracked program ii s' := by
  intro k
  by_cases hk : k = n
  · rwa [hk]
  · exact (h k).update hins (hmem k hk) (hcycle k hk) (hwrite k hk)

theorem addMove_cycle (s : State ν) (c : Nat) (n : ν) (bus : String) :
    (addMove s c n bus).cycle = s.cycle := by
  rw [addMove_eq]

theorem addMove_immediateCycles (s : State ν) (c : Nat) (n : ν) (bus : String) :
    (addMove s c n bus).immediateCycles = s.immediateCycles := by
  rw [addMove_eq]

theorem addImmediate_cycle (s : State ν) (c : Nat) (n : ν) :
    (addImmediate s c n).cycle = s.cycle := by
  rw [addImmediate_eq]

theorem addImmediate_immediateCycles (s : State ν) (c : Nat) (n : ν) :
    (addImmediate s c n).immediateCycles = s.immediateCycles := by
  rw [addImmediate_eq]

/-- Every instruction fits its template, and every node is where it belongs. -/
structure Inv (m : Machine) (program : Program ν) (ii : Nat) (s : State ν) : Prop where
  fitting : Fitting m program s
  tracked : Tracked program ii s

theorem Inv.initial (m : Machine) (program : Program ν) (ii : Nat) :
    Inv m program ii (State.initial program) := by
  refine ⟨⟨nofun, fun c t _ => ?_, fun n => Constant.refl m _ _ _⟩,
    fun n => ⟨nofun, nofun, nofun⟩⟩
  rw [if_neg nofun]
  rfl

section Places
variable [DecidableEq ν]

@[simp] theorem setCycle_self (s : State ν) (n : ν) (cycle : Option Nat) :
    (s.setCycle n cycle).cycle n = cycle :=
  Function.update_self ..

theorem setCycle_ne (s : State ν) (cycle : Option Nat) (h : k ≠ n) :
    (s.setCycle n cycle).cycle k = s.cycle k :=
  Function.update_of_ne h ..

@[simp] theorem setCycle_immediateCycles (s : State ν) (n : ν) (cycle : Option Nat) :
    (s.setCycle n cycle).immediateCycles = s.immediateCycles := rfl

@[simp] theorem setCycle_instructions (s : State ν) (n : ν) (cycle : Option Nat) :
    (s.setCycle n cycle).instructions = s.instructions := rfl

@[simp] theorem nodesAt_setCycle (s : State ν) (n : ν) (cycle : Option Nat) (c : Nat) :
    nodesAt (s.setCycle n cycle) c = nodesAt s c := rfl

@[simp] theorem movesAt_setCycle (s : State ν) (n : ν) (cycle : Option Nat) (c : Nat) :
    movesAt (s.setCycle n cycle) c = movesAt s c := rfl

@[simp] theorem setImmediateCycle_self (s : State ν) (n : ν) (cycle : Option Nat) :
    (s.setImmediateCycle n cycle).immediateCycles n = cycle :=
  Function.update_self ..

theorem setImmediateCycle_ne (s : State ν) (cycle : Option Nat) (h : k ≠ n) :
    (s.setImmediateCycle n cycle).immediateCycles k = s.immediateCycles k :=
  Function.update_of_ne h ..

@[simp] theorem setImmediateCycle_cycle (s : State ν) (n : ν) (cycle : Option Nat) :
    (s.setImmediateCycle n cycle).cycle = s.cycle := rfl

@[simp] theorem setImmediateCycle_instructions (s : State ν) (n : ν) (cycle : Option Nat) :
    (s.setImmediateCycle n cycle).instructions = s.instructions := rfl

@[simp] theorem nodesAt_setImmediateCycle (s : State ν) (n : ν) (cycle : Option Nat) (c : Nat) :
    nodesAt (s.setImmediateCycle n cycle) c = nodesAt s c := rfl

theorem Fitting.setCycle (h : Fitting m program s) (n : ν) (cycle : Option Nat) :
    Fitting m program (s.setCycle n cycle) :=
  ⟨fun c ins hi => ⟨(h.sound c ins hi).template, (h.sound c ins hi).buses, (h.sound c ins hi).fits⟩,
    h.marked, h.constant⟩

theorem Fitting.setImmediateCycle (h : Fitting m program s) (n : ν) (cycle : Option Nat) :
    Fitting m program (s.setImmediateCycle n cycle) :=
  ⟨fun c ins hi => ⟨(h.sound c ins hi).template, (h.sound c ins hi).buses, (h.sound c ins hi).fits⟩,
    h.marked, h.constant⟩

/-- A move has been put into the instruction of its cycle. -/
theorem Inv.addMove (h : Inv m program ii s) (hk : program.isMove n = true)
    (hc : s.cycle n = none) (hb : bus ∈ m.buses)
    (ht : t ∈ findITemplates m s (instructionIndex ii cycle) [bus] []) :
    Inv m program ii ((addMove (selectTemplate m s (instructionIndex ii cycle) t)
      (instructionIndex ii cycle) n bus).setCycle n (some cycle)) := by
  have hs := h.fitting.selected_of_mem ht
  obtain ⟨hwrite, hnodes⟩ := (h.tracked n).fresh hc
  have hins := hs.addMove n bus
  refine ⟨(h.fitting.addMove hb ht).setCycle n _, ?_⟩
  refine h.tracked.update (n := n) hins (fun _ _ => Iff.rfl) (fun k hne => ?_) (fun k _ => ?_)
    ⟨fun cycle' hc' => ?_, fun c hw => ?_, fun c hn => ?_⟩
  · rw [setCycle_ne _ _ hne, addMove_cycle, hs.cycle]
  · rw [setCycle_immediateCycles, addMove_immediateCycles, hs.immediateCycles]
  · rw [setCycle_self] at hc'
    cases hc'
    refine ⟨⟨_, by rw [setCycle_instructions, hins, Function.update_self]⟩, fun hf => ?_⟩
    rw [hk] at hf
    cases hf
  · rw [setCycle_immediateCycles, addMove_immediateCycles, hs.immediateCycles, hwrite] at hw
    cases hw
  · exfalso
    rw [nodesAt_setCycle, nodesAt_update hins] at hn
    split at hn
    · exact hnodes _ hn
    · exact hnodes _ hn

/-- A long immediate has been put into the instruction of its cycle. -/
theorem Inv.addImmediate (h : Inv m program ii s) (hk : program.isMove n = false)
    (hc : s.cycle n = none)
    (ht : t ∈ findITemplates m s (instructionIndex ii cycle) [] [s.immediate n]) :
    Inv m program ii ((addImmediate (selectTemplate m s (instructionIndex ii cycle) t)
      (instructionIndex ii cycle) n).setCycle n (some cycle)) := by
  have hs := h.fitting.selected_of_mem ht
  obtain ⟨hwrite, hnodes⟩ := (h.tracked n).fresh hc
  have hins := hs.addImmediate n
  refine ⟨(h.fitting.addImmediate ht).setCycle n _, ?_⟩
  refine h.tracked.update (n := n) hins (fun k hne => ?_) (fun k hne => ?_) (fun k _ => ?_)
    ⟨fun cycle' hc' => ?_, fun c hw => ?_, fun c hn => ?_⟩
  · simp only [List.mem_append, List.mem_singleton, hne, or_false]
  · rw [setCycle_ne _ _ hne, addImmediate_cycle, hs.cycle]
  · rw [setCycle_immediateCycles, addImmediate_immediateCycles, hs.immediateCycles]
  · rw [setCycle_self] at hc'
    cases hc'
    refine ⟨⟨_, by rw [setCycle_instructions, hins, Function.update_self]⟩, fun _ => ?_⟩
    rw [nodesAt_setCycle, nodesAt_update hins, if_pos rfl]
    exact List.mem_append_right _ (List.mem_singleton.2 rfl)
  · rw [setCycle_immediateCycles, addImmediate_immediateCycles, hs.immediateCycles, hwrite] at hw
    cases hw
  · rw [nodesAt_setCycle, nodesAt_update hins] at hn
    split at hn
    · rename_i hidx
      exact .inr ⟨hk, cycle, setCycle_self .., hidx.symm⟩
    · exact absurd hn (hnodes c)

end Places
end Runs
end ITemplate
end OpenAsip
