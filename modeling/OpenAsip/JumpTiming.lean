import OpenAsip.SimulationController

namespace OpenAsip
set_option autoImplicit true

namespace Simulator

/-- A jump or call: the cycle in which it was triggered and its target. -/
structure Jump where
  time : Nat
  target : Nat

namespace GCUState

/-- The target of the jump or call that an operation is about to make. -/
def jumpTarget (c : ControlUnit) (g : GCUState) (operation : Option Nat) : Option Nat :=
  if g.trigger then
    operation.bind fun i => c.operations[i]?.bind fun op =>
      (op.jump (g.effect op)).map (· % 2 ^ 32)
  else none

/-- A jump takes effect at the start of a cycle. -/
def JumpDue (c : ControlUnit) (jumps : List Jump) (time target : Nat) : Prop :=
  ∃ j ∈ jumps, j.time + c.latency = time ∧ j.target = target

/-- The control unit waits for those of the jumps that have not taken effect. -/
structure Waiting (c : ControlUnit) (g : GCUState) (time : Nat) (jumps : List Jump) : Prop where
  idle_eq : g.idle = true → g.operationPending = false
  pending : g.operationPending = true → ∃ j ∈ jumps, j.target = g.newProgramCounter ∧
    time < j.time + c.latency ∧ g.operationPendingTime = ((j.time + c.latency : Nat) : Int) - time
  due : ∀ j ∈ jumps, time < j.time + c.latency → g.operationPending = true ∧
    j.target = g.newProgramCounter ∧ g.operationPendingTime = ((j.time + c.latency : Nat) : Int) - time

/-- At the start of a cycle. -/
structure Tracks (c : ControlUnit) (g : GCUState) (time : Nat) (jumps : List Jump) : Prop where
  waiting : Waiting c g time jumps
  trigger_eq : g.trigger = false
  past : ∀ j ∈ jumps, j.time < time

theorem Tracks.reset (c : ControlUnit) {g : GCUState} (h : g.trigger = false) :
    Tracks c g.reset 0 [] where
  waiting := ⟨fun _ => rfl, fun h => (Bool.false_ne_true h).elim,
    fun _ hj => (List.not_mem_nil hj).elim⟩
  trigger_eq := h
  past := fun _ hj => (List.not_mem_nil hj).elim

/-- The moves of an instruction leave what concerns jumps as it is. -/
structure Written (g g' : GCUState) : Prop where
  programCounter_eq : g'.programCounter = g.programCounter
  newProgramCounter_eq : g'.newProgramCounter = g.newProgramCounter
  operationPending_eq : g'.operationPending = g.operationPending
  operationPendingTime_eq : g'.operationPendingTime = g.operationPendingTime
  idle_eq : g'.idle = true → g.idle = true ∧ g'.trigger = g.trigger

/-- What the end of the clock does when nothing is thrown: the triggered jump, if any, becomes the
pending one. -/
structure Ended (c : ControlUnit) (g g' : GCUState) : Prop where
  trigger_eq : g'.trigger = false
  idle_eq : g'.idle = g.idle
  programCounter_eq : g'.programCounter = g.programCounter
  none : g.jumpTarget c g.nextOperation = none →
    g'.newProgramCounter = g.newProgramCounter ∧ g'.operationPending = g.operationPending ∧
      g'.operationPendingTime = g.operationPendingTime
  some : ∀ target, g.jumpTarget c g.nextOperation = some target →
    g.idle = false ∧ (g.operationPending = true → g.operationPendingTime = c.latency) ∧
      g'.newProgramCounter = target ∧ g'.operationPending = true ∧
      g'.operationPendingTime = c.latency

theorem setProgramCounter_cases (h : setProgramCounter c g value = (g', none)) :
    (g.operationPending = true → g.operationPendingTime = c.latency) ∧
      g' = { g with
        newProgramCounter := value % 2 ^ 32
        operationPending := true
        operationPendingTime := c.latency } := by
  rw [setProgramCounter] at h
  split at h
  · cases h
  · rename_i hnot
    cases h
    refine ⟨fun hpending => ?_, rfl⟩
    apply Decidable.byContradiction
    intro hne
    exact hnot ⟨hpending, fun he => hne he.symm⟩

theorem takeJump_cases (h : takeJump c g jump = (g', none)) :
    (jump = none ∧ g' = g) ∨ ∃ value, jump = some value ∧
      (g.operationPending = true → g.operationPendingTime = c.latency) ∧
        g' = { g with
          newProgramCounter := value % 2 ^ 32
          operationPending := true
          operationPendingTime := c.latency } := by
  cases jump with
  | none =>
    cases h
    exact .inl ⟨rfl, rfl⟩
  | some value => exact .inr ⟨value, rfl, setProgramCounter_cases h⟩

/-- The return address is all that is changed after the jump. -/
theorem startOperation_cases (h : startOperation c g op = (g', none)) :
    ∃ g₁ address,
      (g.writeOutputs c op (g.effect op)).takeJump c (op.jump (g.effect op)) = (g₁, none) ∧
        g' = { g₁ with returnAddressRegister := address } := by
  rw [startOperation] at h
  split at h
  · rename_i hnone _
    cases h
    exact ⟨_, _, Prod.ext rfl hnone, rfl⟩
  · exact ⟨g', g'.returnAddressRegister, h, rfl⟩

theorem startOperation_ended {c : ControlUnit} {g g' : GCUState} {op : ControlOperation}
    (htrigger : g.trigger = true) (hidle : g.idle = false) (hop : g.nextOperation = some i)
    (hget : c.operations[i]? = some op)
    (h : { g with trigger := false }.startOperation c op = (g', none)) : Ended c g g' := by
  have htarget : g.jumpTarget c g.nextOperation = (op.jump (g.effect op)).map (· % 2 ^ 32) := by
    rw [jumpTarget, if_pos htrigger, hop, Option.bind_some, hget, Option.bind_some]
  obtain ⟨g₁, address, hjump, rfl⟩ := startOperation_cases h
  rcases takeJump_cases hjump with ⟨hnone, rfl⟩ | ⟨value, hsome, hpending, rfl⟩
  · refine ⟨rfl, rfl, rfl, fun _ => ⟨rfl, rfl, rfl⟩, fun target ht => ?_⟩
    have hkeep : op.jump (g.effect op) = none := hnone
    rw [htarget, hkeep] at ht
    cases ht
  · have hvalue : op.jump (g.effect op) = some value := hsome
    rw [hvalue] at htarget
    refine ⟨rfl, rfl, rfl, fun ht => ?_, fun target ht => ?_⟩
    · rw [htarget] at ht
      cases ht
    · rw [htarget] at ht
      cases ht
      exact ⟨hidle, hpending, rfl, rfl, rfl⟩

theorem setProgramCounter_programCounter (c : ControlUnit) (g : GCUState) (value : Nat) :
    (g.setProgramCounter c value).1.programCounter = g.programCounter := by
  rw [setProgramCounter]
  split
  · rfl
  · rfl

theorem startOperation_programCounter (c : ControlUnit) (g : GCUState) (op : ControlOperation) :
    (g.startOperation c op).1.programCounter = g.programCounter := by
  have hjump : ((g.writeOutputs c op (g.effect op)).takeJump c
      (op.jump (g.effect op))).1.programCounter = g.programCounter := by
    cases op.jump (g.effect op) with
    | none => rfl
    | some value => exact setProgramCounter_programCounter ..
  rw [startOperation]
  split
  · exact hjump
  · exact hjump

/-- The program counter is not changed before the clock advances, whatever is thrown. -/
theorem endClockOf_programCounter (c : ControlUnit) (g : GCUState) :
    (g.endClockOf c).1.programCounter = g.programCounter := by
  rw [endClockOf]
  split
  · rfl
  · rw [GCUState.endClock]
    split
    · split
      · rfl
      · split
        · rfl
        · exact startOperation_programCounter c { g with trigger := false } _
    · rfl

theorem endClockOf_ended {c : ControlUnit} {g g' : GCUState}
    (hidle : g.idle = true → g.trigger = false) (h : g.endClockOf c = (g', none)) :
    Ended c g g' := by
  cases htrigger : g.trigger with
  | false =>
    have heq : g' = g := by
      rw [endClockOf, endClock, htrigger, if_neg Bool.false_ne_true] at h
      split at h
      · cases h
        rfl
      · cases h
        rfl
    have hnone : g.jumpTarget c g.nextOperation = none := by
      rw [jumpTarget, htrigger]
      rfl
    rw [heq]
    refine ⟨htrigger, rfl, rfl, fun _ => ⟨rfl, rfl, rfl⟩, fun target ht => ?_⟩
    rw [hnone] at ht
    cases ht
  | true =>
    have hnot : g.idle = false := by
      cases hi : g.idle with
      | false => rfl
      | true => cases (hidle hi).symm.trans htrigger
    have hneg : ¬ g.idle = true := by
      rw [hnot]
      exact Bool.false_ne_true
    rw [endClockOf, if_neg hneg, endClock, if_pos htrigger] at h
    split at h
    · cases h
    · rename_i i hop
      split at h
      · cases h
      · rename_i op hget
        exact startOperation_ended htrigger hnot hop hget h

theorem endClockOf_nextOperation (h : endClockOf c g = (g', none)) :
    g'.nextOperation = g.nextOperation := by
  rw [endClockOf] at h
  split at h
  · cases h
    rfl
  · rw [GCUState.endClock] at h
    split at h
    · split at h
      · cases h
      · split at h
        · cases h
        · obtain ⟨g₁, address, hjump, rfl⟩ := startOperation_cases h
          rcases takeJump_cases hjump with ⟨-, rfl⟩ | ⟨value, -, -, rfl⟩
          · rfl
          · rfl
    · cases h
      rfl

theorem advanceClockOf_nextOperation (g : GCUState) :
    g.advanceClockOf.nextOperation = g.nextOperation := by
  rw [advanceClockOf]
  split
  · rfl
  · rw [GCUState.advanceClock]
    split
    · split
      · rfl
      · rfl
    · rfl

/-- The jump that is triggered is added to those that the control unit waits for. -/
theorem Tracks.endClock {c : ControlUnit} {g g₁ g₂ : GCUState} (ht : Tracks c g time jumps)
    (hw : Written g g₁) (hend : g₁.endClockOf c = (g₂, none)) :
    Waiting c g₂ time
        (jumps ++ ((g₁.jumpTarget c g₁.nextOperation).map (Jump.mk time)).toList) ∧
      g₂.trigger = false ∧ g₂.programCounter = g.programCounter := by
  have hidle : g₁.idle = true → g₁.trigger = false := by
    intro hi
    rw [(hw.idle_eq hi).2]
    exact ht.trigger_eq
  have he := endClockOf_ended hidle hend
  refine ⟨?_, he.trigger_eq, he.programCounter_eq.trans hw.programCounter_eq⟩
  cases htarget : g₁.jumpTarget c g₁.nextOperation with
  | none =>
    obtain ⟨hnew, hpending, htime⟩ := he.none htarget
    rw [hw.newProgramCounter_eq] at hnew
    rw [hw.operationPending_eq] at hpending
    rw [hw.operationPendingTime_eq] at htime
    rw [show jumps ++ (Option.map (Jump.mk time) none).toList = jumps from List.append_nil jumps]
    constructor
    · intro hi
      rw [he.idle_eq] at hi
      rw [hpending]
      exact ht.waiting.idle_eq (hw.idle_eq hi).1
    · rw [hnew, hpending, htime]
      exact ht.waiting.pending
    · rw [hnew, hpending, htime]
      exact ht.waiting.due
  | some target =>
    obtain ⟨hnot, hlatency, hnew, hpending, htime⟩ := he.some target htarget
    -- no other jump is pending: one that is has waited for at least a cycle
    have hnone (j : Jump) (hj : j ∈ jumps) : ¬ time < j.time + c.latency := by
      intro hlt
      obtain ⟨hpend, -, htime'⟩ := ht.waiting.due j hj hlt
      have hl := hlatency (hw.operationPending_eq.trans hpend)
      rw [hw.operationPendingTime_eq, htime'] at hl
      have hpast := ht.past j hj
      omega
    constructor
    · intro hi
      rw [he.idle_eq, hnot] at hi
      cases hi
    · intro _
      refine ⟨⟨time, target⟩, List.mem_append_right _ (List.mem_singleton_self _), hnew.symm, ?_, ?_⟩
      · exact Nat.lt_add_of_pos_right (Nat.succ_pos c.delaySlots)
      · rw [htime]
        push_cast
        omega
    · intro j hj hlt
      rcases List.mem_append.1 hj with hj | hj
      · exact (hnone j hj hlt).elim
      · cases List.mem_singleton.1 hj
        refine ⟨hpending, hnew.symm, ?_⟩
        rw [htime]
        push_cast
        omega

/-- A jump takes effect when its latency has passed. Otherwise the next instruction follows. -/
theorem Waiting.advanceClock {c : ControlUnit} {g : GCUState} (h : Waiting c g time jumps) :
    Waiting c g.advanceClockOf (time + 1) jumps ∧ g.advanceClockOf.trigger = g.trigger ∧
      (∀ target, JumpDue c jumps (time + 1) target → g.advanceClockOf.programCounter = target) ∧
      ((∀ target, ¬ JumpDue c jumps (time + 1) target) →
        g.advanceClockOf.programCounter = (g.programCounter + 1) % 2 ^ 32) := by
  cases hpending : g.operationPending with
  | false =>
    have hnone (j : Jump) (hj : j ∈ jumps) : ¬ time < j.time + c.latency := by
      intro hlt
      cases hpending.symm.trans (h.due j hj hlt).1
    obtain ⟨idle, heq⟩ : ∃ idle, g.advanceClockOf = { g.increment with idle := idle } := by
      rw [advanceClockOf]
      split
      · exact ⟨g.idle, rfl⟩
      · have hneg : ¬ g.increment.operationPending = true := by
          change ¬ g.operationPending = true
          rw [hpending]
          exact Bool.false_ne_true
        rw [GCUState.advanceClock, if_neg hneg]
        exact ⟨true, rfl⟩
    rw [heq]
    refine ⟨⟨fun _ => hpending, fun hp => ?_, fun j hj hlt => ?_⟩, rfl, ?_, fun _ => rfl⟩
    · cases hpending.symm.trans hp
    · exact (hnone j hj (by omega)).elim
    · rintro target ⟨j, hj, htime, -⟩
      exact (hnone j hj (by omega)).elim
  | true =>
    obtain ⟨j₀, hj₀, htarget, hlt, htime⟩ := h.pending hpending
    have hidle : ¬ g.increment.idle = true := by
      intro hi
      cases hpending.symm.trans (h.idle_eq hi)
    have hpend : g.increment.operationPending = true := hpending
    have hsame (j : Jump) (hj : j ∈ jumps) (hltj : time < j.time + c.latency) :
        j.time + c.latency = j₀.time + c.latency ∧ j.target = g.newProgramCounter := by
      obtain ⟨-, hnew, htime'⟩ := h.due j hj hltj
      rw [htime] at htime'
      exact ⟨by omega, hnew⟩
    rw [advanceClockOf, if_neg hidle, GCUState.advanceClock, if_pos hpend]
    change Waiting c (if g.operationPendingTime - 1 ≤ 0 then _ else _) _ _ ∧ _
    by_cases hdue : j₀.time + c.latency = time + 1
    · have hle : g.operationPendingTime - 1 ≤ 0 := by
        rw [htime]
        omega
      have hle' : g.increment.operationPendingTime - 1 ≤ 0 := hle
      rw [if_pos hle, if_pos hle']
      refine ⟨⟨fun _ => rfl, fun hp => ?_, fun j hj hltj => ?_⟩, rfl, ?_, ?_⟩
      · cases hp
      · have hj' := (hsame j hj (by omega)).1
        omega
      · rintro target ⟨j, hj, htime', rfl⟩
        exact (hsame j hj (by omega)).2.symm
      · intro hnot
        exact (hnot _ ⟨j₀, hj₀, hdue, rfl⟩).elim
    · have hgt : ¬ g.operationPendingTime - 1 ≤ 0 := by
        rw [htime]
        omega
      have hgt' : ¬ g.increment.operationPendingTime - 1 ≤ 0 := hgt
      rw [if_neg hgt, if_neg hgt']
      refine ⟨⟨fun hi => ?_, fun _ => ?_, fun j hj hltj => ?_⟩, rfl, ?_, fun _ => rfl⟩
      · cases hi
      · refine ⟨j₀, hj₀, htarget, by omega, ?_⟩
        change g.operationPendingTime - 1 = _
        rw [htime]
        push_cast
        omega
      · obtain ⟨hj', hnew⟩ := hsame j hj (by omega)
        refine ⟨hpending, hnew, ?_⟩
        change g.operationPendingTime - 1 = _
        rw [htime, hj']
        push_cast
        omega
      · rintro target ⟨j, hj, htime', -⟩
        have hj' := (hsame j hj (by omega)).1
        omega

end GCUState

end Simulator

end OpenAsip
