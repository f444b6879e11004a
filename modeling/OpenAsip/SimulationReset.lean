import OpenAsip.SimulationCycles
import OpenAsip.UnitReset

namespace OpenAsip
set_option autoImplicit true

namespace Simulator

/-- What has happened since a reset: the cycles, what each function unit was given in them, the
operation that the control unit was set to and the jumps. -/
structure Trace where
  time : Nat
  units : List FUState.History
  operation : Option Nat
  jumps : List Jump

namespace Trace

def empty (s : MachineState ρ) : Trace where
  time := 0
  units := s.fuStates.map fun f => ⟨0, (f.inputPorts, none), []⟩
  operation := none
  jumps := []

def recordUnit (m : Machine ρ) (s : MachineState ρ) (i : Nat) (h : FUState.History) :
    FUState.History :=
  match m.units[i]? with
  | none => h
  | some u => h.record u (writesTo i (s.transports m))

def record (m : Machine ρ) (s : MachineState ρ) (tr : Trace) : Trace where
  time := tr.time + 1
  units := tr.units.mapIdx (recordUnit m s)
  operation := (s.transports m).foldl setControlOperation tr.operation
  jumps := tr.jumps ++ (((s.executed m).gcuState.jumpTarget m.controlUnit
    ((s.transports m).foldl setControlOperation tr.operation)).map (Jump.mk tr.time)).toList

/-- The triggers of a cycle are of operations that were set since the reset. -/
structure Selected (m : Machine ρ) (s : MachineState ρ) (tr : Trace) : Prop where
  units : ∀ (i : Nat) (u : FunctionUnit) (h : FUState.History), m.units[i]? = some u →
    tr.units[i]? = some h → (writesTo i (s.transports m)).any PortWrite.triggers = true →
      ∃ x, FUState.triggered u h.driver (writesTo i (s.transports m)) = some x
  control : triggersControl (s.transports m) = true →
    ∃ i, (s.transports m).foldl setControlOperation tr.operation = some i

/-- The machine goes on from where it is as the trace says and as nothing else does. -/
structure Tracks (m : Machine ρ) (s : MachineState ρ) (tr : Trace) : Prop where
  units_length : s.fuStates.length = m.units.length
  trace_length : tr.units.length = m.units.length
  units : ∀ (i : Nat) (u : FunctionUnit) (f : FUState) (h : FUState.History),
    m.units[i]? = some u → s.fuStates[i]? = some f → tr.units[i]? = some h →
      FUState.Tracked u f h
  control : s.gcuState.Tracks m.controlUnit tr.time tr.jumps
  operation : ∀ i, tr.operation = some i → s.gcuState.nextOperation = some i

/-- The effect of a cycle, given what happened before it since the reset: results are written when
they are due and jumps take effect when they are due. A cycle that an exception ends may leave results
unwritten. -/
structure Followed (m : Machine ρ) (s : MachineState ρ) (tr : Trace) (s' : MachineState ρ)
    (failed : Bool) : Prop where
  outputs : ∀ (i : Nat) (u : FunctionUnit) (h : FUState.History) (f f' : FUState),
    m.units[i]? = some u → (tr.record m s).units[i]? = some h → s.fuStates[i]? = some f →
      s'.fuStates[i]? = some f' → ∃ written, Delivered f.outputPorts f'.outputPorts written ∧
        (∀ port value, written port value → FUState.Arrives u h.starts h.time port value) ∧
        (failed = false → ∀ port value, FUState.Arrives u h.starts h.time port value →
          written port value)
  jump : failed = false → ∀ target,
    GCUState.JumpDue m.controlUnit (tr.record m s).jumps (tr.record m s).time target →
      s'.gcuState.programCounter = target
  next : failed = false → (∀ target,
    ¬ GCUState.JumpDue m.controlUnit (tr.record m s).jumps (tr.record m s).time target) →
      s'.gcuState.programCounter = (s.gcuState.programCounter + 1) % 2 ^ 32
  stopped : failed = true → s'.gcuState.programCounter = s.gcuState.programCounter

theorem getElem?_record {m : Machine ρ} {s : MachineState ρ} {tr : Trace} {i : Nat}
    {u : FunctionUnit} {h' : FUState.History} (hu : m.units[i]? = some u)
    (hh : (tr.record m s).units[i]? = some h') :
    ∃ h, tr.units[i]? = some h ∧ h' = h.record u (writesTo i (s.transports m)) := by
  rw [record, List.getElem?_mapIdx] at hh
  obtain ⟨h, hget, rfl⟩ := Option.map_eq_some_iff.1 hh
  refine ⟨h, hget, ?_⟩
  rw [recordUnit, hu]

theorem foldl_setControlOperation {d d' : Option Nat} (hd : ∀ i, d = some i → d' = some i)
    {transports : List Transport} (h : transports.foldl setControlOperation d = some i) :
    transports.foldl setControlOperation d' = some i := by
  induction transports generalizing d d' with
  | nil => exact hd i h
  | cons t transports ih =>
    refine ih ?_ h
    intro j hj
    cases t with
    | functionUnit unit w => exact hd j hj
    | returnAddress value => exact hd j hj
    | controlUnit w =>
      cases w with
      | input port value => exact hd j hj
      | triggering port value => exact hd j hj
      | opcodeSetting operation executorKnown port value => exact hj

/-- The operation of the control unit is the one that was set since the reset, if it is triggered. -/
theorem Tracks.jumpTarget_eq {m : Machine ρ} {s : MachineState ρ} {tr : Trace}
    (ht : tr.Tracks m s) (hs : tr.Selected m s) :
    (s.executed m).gcuState.jumpTarget m.controlUnit (s.executed m).gcuState.nextOperation =
      (s.executed m).gcuState.jumpTarget m.controlUnit
        ((s.transports m).foldl setControlOperation tr.operation) := by
  have hw := s.executed_gcuState m
  cases htrigger : (s.executed m).gcuState.trigger with
  | false => 
    rw [GCUState.jumpTarget, GCUState.jumpTarget, htrigger]
    rfl
  | true =>
    rw [hw.trigger_eq, ht.control.trigger_eq, Bool.false_or] at htrigger
    obtain ⟨i, hi⟩ := hs.control htrigger
    rw [hw.nextOperation_eq, hi, foldl_setControlOperation ht.operation hi]

theorem Tracks.cycle {m : Machine ρ} {c c' : SimulationController ρ} {tr : Trace}
    (ht : tr.Tracks m c.machineState) (hs : tr.Selected m c.machineState)
    (hfinished : c.machineState.finished = false)
    (h : c.simulateCycle m = .ok (c', false)) :
    (tr.record m c.machineState).Tracks m c'.machineState := by
  have hlen := SimulationController.simulateCycle_length hfinished h
  obtain ⟨g, hend, hadv⟩ := (SimulationController.simulateCycle_control hfinished h).1 rfl
  have hw := c.machineState.executed_gcuState m
  constructor
  · rw [hlen, ht.units_length]
  · exact (List.length_mapIdx ..).trans ht.trace_length
  · intro i u f' h' hu hf' hh'
    obtain ⟨hist, hhist, rfl⟩ := getElem?_record hu hh'
    obtain ⟨f, hf⟩ := MachineState.getElem?_of_length hlen.symm hf'
    obtain ⟨f'', hf'', hcycle⟩ := SimulationController.simulateCycle_unit hfinished h hu hf
    rw [hf'] at hf''
    cases hf''
    rcases hcycle with hok | ⟨hfailed, -⟩
    · exact ((ht.units i u f hist hu hf hhist).cycle (hs.units i u hist hu hhist) hok).1
    · cases hfailed
  · obtain ⟨hwaiting, htrigger, -⟩ := ht.control.endClock hw.written hend
    obtain ⟨hwaiting', htrigger', -⟩ := hwaiting.advanceClock
    rw [ht.jumpTarget_eq hs] at hwaiting'
    rw [hadv]
    refine ⟨hwaiting', htrigger'.trans htrigger, ?_⟩
    intro j hj
    rcases List.mem_append.1 hj with hj | hj
    · exact Nat.lt_succ_of_lt (ht.control.past j hj)
    · obtain ⟨target, -, rfl⟩ := Option.map_eq_some_iff.1 (Option.mem_toList.1 hj)
      exact Nat.lt_succ_self tr.time
  · intro i hi
    rw [hadv, GCUState.advanceClockOf_nextOperation, GCUState.endClockOf_nextOperation hend,
      hw.nextOperation_eq]
    exact foldl_setControlOperation ht.operation hi

theorem Tracks.followed {m : Machine ρ} {c c' : SimulationController ρ} {tr : Trace}
    (ht : tr.Tracks m c.machineState) (hs : tr.Selected m c.machineState)
    (hfinished : c.machineState.finished = false)
    (h : c.simulateCycle m = .ok (c', failed)) :
    tr.Followed m c.machineState c'.machineState failed := by
  have hw := c.machineState.executed_gcuState m
  -- a cycle that completes treats the control unit as its own lemmas say
  have hcontrol (hf : failed = false) :
      (∀ target, GCUState.JumpDue m.controlUnit (tr.record m c.machineState).jumps
          (tr.record m c.machineState).time target →
        c'.machineState.gcuState.programCounter = target) ∧
      ((∀ target, ¬ GCUState.JumpDue m.controlUnit (tr.record m c.machineState).jumps
          (tr.record m c.machineState).time target) →
        c'.machineState.gcuState.programCounter =
          (c.machineState.gcuState.programCounter + 1) % 2 ^ 32) := by
    obtain ⟨g, hend, hadv⟩ := (SimulationController.simulateCycle_control hfinished h).1 hf
    obtain ⟨hwaiting, -, hpc⟩ := ht.control.endClock hw.written hend
    obtain ⟨-, -, hjump, hnext⟩ := hwaiting.advanceClock
    rw [ht.jumpTarget_eq hs] at hjump hnext
    rw [hadv, ← hpc]
    exact ⟨hjump, hnext⟩
  refine ⟨?_, fun hf => (hcontrol hf).1, fun hf => (hcontrol hf).2,
    (SimulationController.simulateCycle_control hfinished h).2⟩
  intro i u h' f f' hu hh' hf hf'
  obtain ⟨hist, hhist, rfl⟩ := getElem?_record hu hh'
  obtain ⟨f'', hf'', hcycle⟩ := SimulationController.simulateCycle_unit hfinished h hu hf
  rw [hf'] at hf''
  cases hf''
  have htracked := ht.units i u f hist hu hf hhist
  have hselected := hs.units i u hist hu hhist
  rcases hcycle with hok | ⟨rfl, rfl | hend⟩
  · exact ⟨_, (htracked.cycle hselected hok).2, fun _ _ => id, fun _ _ _ => id⟩
  · refine ⟨fun _ _ => False, ?_, fun _ _ => False.elim, fun hf => (Bool.false_ne_true hf.symm).elim⟩
    rw [(FUState.written_foldl u f _).outputPorts_eq]
    exact Delivered.none _ fun _ _ => id
  · obtain ⟨written, hdeliv, harrives⟩ := htracked.endClock hselected hend
    exact ⟨written, hdeliv, harrives, fun hf => (Bool.false_ne_true hf.symm).elim⟩

end Trace

namespace MachineState

/-- The condition on the state at a reset: the entry address is the one that the control unit is
reset to, no operation has been triggered without being started, and none is in a pipeline. -/
structure Quiet (m : Machine ρ) (s : MachineState ρ) : Prop where
  entryAddress_eq : m.entryAddress = 0
  trigger_eq : s.gcuState.trigger = false
  units : ∀ f ∈ s.fuStates, f.Quiet

/-- Between the cycles every unit is rested. After an exception a unit without a trigger is steady. -/
structure Sound (m : Machine ρ) (s : MachineState ρ) (failed : Bool) : Prop where
  length_eq : s.fuStates.length = m.units.length
  rested : failed = false → ∀ (i : Nat) (u : FunctionUnit) (f : FUState), m.units[i]? = some u →
    s.fuStates[i]? = some f → f.Rested u
  steady : ∀ (i : Nat) (u : FunctionUnit) (f : FUState), m.units[i]? = some u →
    s.fuStates[i]? = some f → f.trigger = false → f.Steady u

theorem new_sound (m : Machine ρ) (others : ρ) : Sound m (new m others) false := by
  have hrested (i : Nat) (u : FunctionUnit) (f : FUState) (hu : m.units[i]? = some u)
      (hf : (new m others).fuStates[i]? = some f) : f.Rested u := by
    change (m.units.map FUState.new)[i]? = some f at hf
    rw [List.getElem?_map, hu] at hf
    cases hf
    exact (FUState.new_rested u).1
  exact ⟨List.length_map _, fun _ => hrested, fun i u f hu hf _ => (hrested i u f hu hf).steady⟩

end MachineState

namespace SimulationController

theorem simulateCycle_sound {m : Machine ρ} {c c' : SimulationController ρ}
    (hsound : c.machineState.Sound m false) (h : simulateCycle m c = .ok (c', failed)) :
    c'.machineState.Sound m failed := by
  cases hfinished : c.machineState.finished with
  | true =>
    rw [simulateCycle, if_pos hfinished] at h
    cases h
    exact hsound
  | false =>
    have hlen := simulateCycle_length hfinished h
    -- what the cycle makes of one of the units
    have hunit (i : Nat) (u : FunctionUnit) (f' : FUState) (hu : m.units[i]? = some u)
        (hf' : c'.machineState.fuStates[i]? = some f') :
        (failed = false → f'.Rested u) ∧ (f'.trigger = false → f'.Steady u) := by
      obtain ⟨f, hf⟩ := MachineState.getElem?_of_length hlen.symm hf'
      have hrested := hsound.rested rfl i u f hu hf
      have hw := FUState.written_foldl u f (writesTo i (c.machineState.transports m))
      obtain ⟨f'', hf'', hcycle⟩ := simulateCycle_unit hfinished h hu hf
      rw [hf'] at hf''
      cases hf''
      rcases hcycle with hok | ⟨rfl, rfl | hend⟩
      · rw [FUState.cycle] at hok
        obtain ⟨f₂, hend, hadv⟩ := Except.bind_ok hok
        obtain ⟨f₃, hadv', hrested', -⟩ :=
          FUState.advanceClock_spec (hrested.endClock hw hend)
        rw [hadv] at hadv'
        cases hadv'
        exact ⟨fun _ => hrested', fun _ => hrested'.steady⟩
      · exact ⟨fun hf => (Bool.false_ne_true hf.symm).elim, hw.steady hrested.steady⟩
      · exact ⟨fun hf => (Bool.false_ne_true hf.symm).elim, fun _ => hrested.endClock hw hend⟩
    exact ⟨hlen.trans hsound.length_eq, fun hf i u f hu hf' => (hunit i u f hu hf').1 hf,
      fun i u f hu hf' => (hunit i u f hu hf').2⟩

theorem getElem?_reset {m : Machine ρ} {c : SimulationController ρ} {i : Nat} {f' : FUState}
    (h : (c.reset m).machineState.fuStates[i]? = some f') :
    ∃ f, c.machineState.fuStates[i]? = some f ∧ f' = f.reset := by
  change (c.machineState.fuStates.map FUState.reset)[i]? = some f' at h
  rw [List.getElem?_map] at h
  obtain ⟨f, hf, rfl⟩ := Option.map_eq_some_iff.1 h
  exact ⟨f, hf, rfl⟩

theorem reset_sound {m : Machine ρ} {c : SimulationController ρ}
    (hsound : c.machineState.Sound m failed) (hq : c.machineState.Quiet m) :
    (c.reset m).machineState.Sound m false := by
  have hrested (i : Nat) (u : FunctionUnit) (f' : FUState) (hu : m.units[i]? = some u)
      (hf' : (c.reset m).machineState.fuStates[i]? = some f') : f'.Rested u := by
    obtain ⟨f, hf, rfl⟩ := getElem?_reset hf'
    have hquiet := hq.units f (List.mem_of_getElem? hf)
    exact ((hsound.steady i u f hu hf hquiet.trigger_eq).reset hquiet).1
  refine ⟨?_, fun _ => hrested, fun i u f hu hf _ => (hrested i u f hu hf).steady⟩
  exact (List.length_map _).trans hsound.length_eq

theorem reset_tracks {m : Machine ρ} {c : SimulationController ρ}
    (hsound : c.machineState.Sound m failed) (hq : c.machineState.Quiet m) :
    (Trace.empty (c.reset m).machineState).Tracks m (c.reset m).machineState := by
  have hlen : (c.reset m).machineState.fuStates.length = m.units.length :=
    (reset_sound hsound hq).length_eq
  refine ⟨hlen, (List.length_map _).trans hlen, ?_, ?_, fun i hi => ?_⟩
  · intro i u f' h hu hf' hh
    obtain ⟨f, hf, rfl⟩ := getElem?_reset hf'
    rw [Trace.empty, List.getElem?_map, hf'] at hh
    cases hh
    have hquiet := hq.units f (List.mem_of_getElem? hf)
    exact FUState.Tracked.reset (hsound.steady i u f hu hf hquiet.trigger_eq) hquiet
  · exact GCUState.Tracks.reset (g := { c.machineState.gcuState with
      programCounter := m.entryAddress }) m.controlUnit hq.trigger_eq
  · cases hi

/-- The states of the controller, from the one that its constructor builds. They are reached by
cycles, where none follows on a runtime error, and by resets that meet the condition. -/
inductive Reached (m : Machine ρ) : SimulationController ρ → Bool → Prop where
  | built (others : ρ) : Reached m ⟨MachineState.new m others, 0⟩ false
  | cycle (h : Reached m c false) (hc : simulateCycle m c = .ok (c', failed)) :
    Reached m c' failed
  | reset (h : Reached m c failed) (hq : c.machineState.Quiet m) : Reached m (c.reset m) false

/-- The cycles after a reset, with their trace. -/
inductive Continued (m : Machine ρ) (c₀ : SimulationController ρ) :
    SimulationController ρ → Trace → Prop where
  | reset : Continued m c₀ c₀ (Trace.empty c₀.machineState)
  | cycle (h : Continued m c₀ c tr) (hfinished : c.machineState.finished = false)
    (hs : tr.Selected m c.machineState) (hc : simulateCycle m c = .ok (c', false)) :
    Continued m c₀ c' (tr.record m c.machineState)

theorem Reached.sound {m : Machine ρ} {c : SimulationController ρ} (h : Reached m c failed) :
    c.machineState.Sound m failed := by
  induction h with
  | built others => exact MachineState.new_sound m others
  | cycle h hc ih => exact simulateCycle_sound ih hc
  | reset h hq ih => exact reset_sound ih hq

theorem Continued.tracks {m : Machine ρ} {c₀ c : SimulationController ρ} {tr : Trace}
    (h₀ : (Trace.empty c₀.machineState).Tracks m c₀.machineState) (h : Continued m c₀ c tr) :
    tr.Tracks m c.machineState := by
  induction h with
  | reset => exact h₀
  | cycle h hfinished hs hc ih => exact ih.cycle hs hfinished hc

/-- A machine with one unit, whose instructions start an increment of 4 as long as a register is
zero, and set the register. -/
def incrementOnce (entryAddress : Nat) : Machine Nat where
  units := [FUState.incrementer]
  controlUnit := ⟨[], fun _ => 32, fun _ => 32, 3⟩
  entryAddress := entryAddress
  firstIllegalInstructionIndex := 100
  instructionAt := fun _ => some {
    execute := fun s =>
      (if s.others = 0 then [.functionUnit 0 (.opcodeSetting 0 true 0 4)] else [], 1)
    isExitPoint := false }
  advanceOthers := fun s => s.others

end SimulationController

end Simulator

end OpenAsip
