import OpenAsip.JumpTiming

namespace OpenAsip
set_option autoImplicit true

namespace Simulator

theorem forAllFUStates_spec {body : FunctionUnit → FUState → Outcome FUState}
    {units : List FunctionUnit} {states states' : List FUState} {fault : Option Fault}
    (h : forAllFUStates body units states = (states', fault)) :
    states'.length = states.length ∧
      ∀ (i : Nat) (u : FunctionUnit) (s s' : FUState), units[i]? = some u →
        states[i]? = some s → states'[i]? = some s' →
          body u s = .ok s' ∨ (s' = s ∧ fault ≠ none) := by
  induction units generalizing states states' fault with
  | nil =>
    cases h
    exact ⟨rfl, fun i u s s' hu => (Option.some_ne_none u hu.symm).elim⟩
  | cons v units ih =>
    cases states with
    | nil =>
      cases h
      exact ⟨rfl, fun i u s s' _ hs => (Option.some_ne_none s hs.symm).elim⟩
    | cons t states =>
      rw [forAllFUStates] at h
      cases hbody : body v t with
      | error e =>
        rw [hbody] at h
        cases h
        refine ⟨rfl, fun i u s s' _ hs hs' => .inr ⟨?_, Option.some_ne_none e⟩⟩
        rw [hs] at hs'
        exact (Option.some.inj hs').symm
      | ok t' =>
        rw [hbody] at h
        cases hrest : forAllFUStates body units states with
        | mk rest fault' =>
          rw [hrest] at h
          cases h
          obtain ⟨hlen, hget⟩ := ih hrest
          refine ⟨congrArg Nat.succ hlen, fun i u s s' hu hs hs' => ?_⟩
          cases i with
          | zero =>
            cases hu
            cases hs
            cases hs'
            exact .inl hbody
          | succ i => exact hget i u s s' hu hs hs'

/-- The writes of an instruction to one of the function units. -/
def writesTo (unit : Nat) (transports : List Transport) : List PortWrite :=
  transports.filterMap fun
    | .functionUnit i write => if i = unit then some write else none
    | _ => none

/-- The operation that the moves of an instruction set in the control unit. -/
def setControlOperation (operation : Option Nat) : Transport → Option Nat
  | .controlUnit (.opcodeSetting i _ _ _) => some i
  | _ => operation

def triggersControl (transports : List Transport) : Bool :=
  transports.any fun
    | .controlUnit write => write.triggers
    | _ => false

/-- What the moves of an instruction make of the control unit. -/
structure GCUState.WrittenBy (g : GCUState) (transports : List Transport) (g' : GCUState) :
    Prop where
  written : Written g g'
  trigger_eq : g'.trigger = (g.trigger || triggersControl transports)
  nextOperation_eq : g'.nextOperation = transports.foldl setControlOperation g.nextOperation

theorem GCUState.Written.trans {g g₁ g₂ : GCUState} (h : Written g g₁) (h' : Written g₁ g₂) :
    Written g g₂ where
  programCounter_eq := h'.programCounter_eq.trans h.programCounter_eq
  newProgramCounter_eq := h'.newProgramCounter_eq.trans h.newProgramCounter_eq
  operationPending_eq := h'.operationPending_eq.trans h.operationPending_eq
  operationPendingTime_eq := h'.operationPendingTime_eq.trans h.operationPendingTime_eq
  idle_eq := by
    intro hi
    obtain ⟨hi₁, ht₁⟩ := h'.idle_eq hi
    obtain ⟨hi₀, ht₀⟩ := h.idle_eq hi₁
    exact ⟨hi₀, ht₁.trans ht₀⟩

theorem GCUState.writePort_written (c : ControlUnit) (g : GCUState) (w : PortWrite) :
    Written g (g.writePort c w) := by
  cases w with
  | input port value => exact ⟨rfl, rfl, rfl, rfl, fun hi => ⟨hi, rfl⟩⟩
  | triggering port value => exact ⟨rfl, rfl, rfl, rfl, fun hi => (Bool.false_ne_true hi).elim⟩
  | opcodeSetting operation executorKnown port value =>
    exact ⟨rfl, rfl, rfl, rfl, fun hi => (Bool.false_ne_true hi).elim⟩

namespace MachineState

theorem foldl_transport_gcuState (m : Machine ρ) (s : MachineState ρ)
    (transports : List Transport) :
    s.gcuState.WrittenBy transports (transports.foldl (transport m) s).gcuState := by
  induction transports generalizing s with
  | nil =>
    exact ⟨⟨rfl, rfl, rfl, rfl, fun hi => ⟨hi, rfl⟩⟩, (Bool.or_false _).symm,
      rfl⟩
  | cons t transports ih =>
    have h := ih (s.transport m t)
    cases t with
    | functionUnit unit w =>
      have hsame : (s.transport m (.functionUnit unit w)).gcuState = s.gcuState := by
        rw [transport]
        split
        · rfl
        · rfl
      rw [hsame] at h
      exact ⟨h.written, h.trigger_eq, h.nextOperation_eq⟩
    | returnAddress value =>
      have hwritten : s.gcuState.Written (s.transport m (.returnAddress value)).gcuState :=
        ⟨rfl, rfl, rfl, rfl, fun hi => ⟨hi, rfl⟩⟩
      exact ⟨hwritten.trans h.written, h.trigger_eq, h.nextOperation_eq⟩
    | controlUnit w =>
      refine ⟨(GCUState.writePort_written m.controlUnit s.gcuState w).trans h.written, ?_, ?_⟩
      · rw [List.foldl_cons, h.trigger_eq]
        cases w with
        | input port value => rfl
        | triggering port value => exact (Bool.or_true s.gcuState.trigger).symm
        | opcodeSetting operation executorKnown port value =>
          exact (Bool.or_true s.gcuState.trigger).symm
      · rw [List.foldl_cons, h.nextOperation_eq]
        cases w with
        | input port value => rfl
        | triggering port value => rfl
        | opcodeSetting operation executorKnown port value => rfl

theorem transport_getElem? (m : Machine ρ) (s : MachineState ρ) (t : Transport) {i : Nat}
    {u : FunctionUnit} {f : FUState} (hu : m.units[i]? = some u) (hf : s.fuStates[i]? = some f) :
    (s.transport m t).fuStates[i]? = some ((writesTo i [t]).foldl (FUState.writePort u) f) := by
  cases t with
  | controlUnit w => exact hf
  | returnAddress value => exact hf
  | functionUnit unit w =>
    rw [transport]
    by_cases he : unit = i
    · subst he
      rw [hu]
      dsimp only
      rw [List.getElem?_modify_eq, hf]
      have hwrites : writesTo unit [.functionUnit unit w] = [w] := by
        rw [writesTo, List.filterMap_cons]
        dsimp only
        rw [if_pos rfl]
        rfl
      rw [hwrites]
      rfl
    · have hwrites : writesTo i [.functionUnit unit w] = [] := by
        rw [writesTo, List.filterMap_cons]
        dsimp only
        rw [if_neg he]
        rfl
      rw [hwrites]
      split
      · exact hf
      · dsimp only
        rw [List.getElem?_modify_ne _ _ he]
        exact hf

theorem foldl_transport_fuStates (m : Machine ρ) (s : MachineState ρ)
    (transports : List Transport) {i : Nat} {u : FunctionUnit} {f : FUState}
    (hu : m.units[i]? = some u) (hf : s.fuStates[i]? = some f) :
    (transports.foldl (transport m) s).fuStates[i]? =
      some ((writesTo i transports).foldl (FUState.writePort u) f) := by
  induction transports generalizing s f with
  | nil => exact hf
  | cons t transports ih =>
    have hsplit : writesTo i (t :: transports) = writesTo i [t] ++ writesTo i transports :=
      List.filterMap_append (l := [t])
    rw [hsplit, List.foldl_append]
    exact ih (s.transport m t) (transport_getElem? m s t hu hf)

theorem length_transport (m : Machine ρ) (s : MachineState ρ) (t : Transport) :
    (s.transport m t).fuStates.length = s.fuStates.length := by
  cases t with
  | controlUnit w => rfl
  | returnAddress value => rfl
  | functionUnit unit w =>
    rw [transport]
    split
    · rfl
    · exact List.length_modify ..

theorem length_foldl_transport (m : Machine ρ) (s : MachineState ρ)
    (transports : List Transport) :
    (transports.foldl (transport m) s).fuStates.length = s.fuStates.length := by
  induction transports generalizing s with
  | nil => rfl
  | cons t transports ih => exact (ih (s.transport m t)).trans (length_transport m s t)

/-- The writes of the next instruction. -/
def transports (m : Machine ρ) (s : MachineState ρ) : List Transport :=
  match m.instructionAt s.gcuState.programCounter with
  | none => []
  | some instruction => (instruction.execute s).1

/-- The state after the moves of the next instruction. -/
def executed (m : Machine ρ) (s : MachineState ρ) : MachineState ρ :=
  match m.instructionAt s.gcuState.programCounter with
  | none => s
  | some instruction => s.execute m instruction

theorem executed_fuStates (m : Machine ρ) (s : MachineState ρ) {i : Nat} {u : FunctionUnit}
    {f : FUState} (hu : m.units[i]? = some u) (hf : s.fuStates[i]? = some f) :
    (s.executed m).fuStates[i]? =
      some ((writesTo i (s.transports m)).foldl (FUState.writePort u) f) := by
  rw [executed, transports]
  split
  · exact hf
  · exact foldl_transport_fuStates m _ _ hu hf

theorem executed_gcuState (m : Machine ρ) (s : MachineState ρ) :
    s.gcuState.WrittenBy (s.transports m) (s.executed m).gcuState := by
  rw [executed, transports]
  split
  · exact ⟨⟨rfl, rfl, rfl, rfl, fun hi => ⟨hi, rfl⟩⟩, (Bool.or_false _).symm, rfl⟩
  · rename_i instruction _
    exact foldl_transport_gcuState m { s with others := (instruction.execute s).2 } _

theorem length_executed (m : Machine ρ) (s : MachineState ρ) :
    (s.executed m).fuStates.length = s.fuStates.length := by
  rw [executed]
  split
  · rfl
  · exact length_foldl_transport m _ _

theorem getElem?_of_length {l : List α} {l' : List β} {i : Nat} {a : α}
    (h : l'.length = l.length) (ha : l[i]? = some a) : ∃ b, l'[i]? = some b := by
  have hlt := (List.getElem?_eq_some_iff.1 ha).1
  rw [← h] at hlt
  exact ⟨_, List.getElem?_eq_getElem hlt⟩

theorem endClock_spec {m : Machine ρ} {s s' : MachineState ρ} {fault : Option Fault}
    (h : s.endClock m = (s', fault)) :
    s'.fuStates.length = s.fuStates.length ∧
      (∀ (i : Nat) (u : FunctionUnit) (f f' : FUState), m.units[i]? = some u →
        s.fuStates[i]? = some f → s'.fuStates[i]? = some f' →
          f.endClockOf u = .ok f' ∨ (f' = f ∧ fault ≠ none)) ∧
      (fault = none → s.gcuState.endClockOf m.controlUnit = (s'.gcuState, none)) ∧
      s'.gcuState.programCounter = s.gcuState.programCounter := by
  rw [endClock] at h
  cases hunits : forAllFUStates FUState.endClockOf m.units s.fuStates with
  | mk states fault' =>
    rw [hunits] at h
    obtain ⟨hlen, hspec⟩ := forAllFUStates_spec hunits
    cases fault' with
    | some e =>
      cases h
      exact ⟨hlen, hspec, fun hnone => (Option.some_ne_none e hnone).elim, rfl⟩
    | none =>
      cases hcontrol : s.gcuState.endClockOf m.controlUnit with
      | mk g e =>
        dsimp only at h
        rw [hcontrol] at h
        cases h
        refine ⟨hlen, ?_, ?_, ?_⟩
        · intro i u f f' hu hf hf'
          rcases hspec i u f f' hu hf hf' with hok | ⟨-, hne⟩
          · exact .inl hok
          · exact (hne rfl).elim
        · rintro rfl
          rfl
        · have hpc := GCUState.endClockOf_programCounter m.controlUnit s.gcuState
          rw [hcontrol] at hpc
          exact hpc

theorem advanceClock_spec {m : Machine ρ} {s s' : MachineState ρ} {exit : Bool}
    {fault : Option Fault} (h : s.advanceClock m exit = (s', fault)) :
    s'.fuStates.length = s.fuStates.length ∧
      (∀ (i : Nat) (u : FunctionUnit) (f f' : FUState), m.units[i]? = some u →
        s.fuStates[i]? = some f → s'.fuStates[i]? = some f' →
          f.advanceClockOf u = .ok f' ∨ (f' = f ∧ fault ≠ none)) ∧
      (fault = none → s'.gcuState = s.gcuState.advanceClockOf) ∧
      (fault ≠ none → s'.gcuState = s.gcuState) := by
  rw [advanceClock] at h
  cases hunits : forAllFUStates FUState.advanceClockOf m.units s.fuStates with
  | mk states fault' =>
    rw [hunits] at h
    obtain ⟨hlen, hspec⟩ := forAllFUStates_spec hunits
    cases fault' with
    | some e =>
      cases h
      exact ⟨hlen, hspec, fun hnone => (Option.some_ne_none e hnone).elim, fun _ => rfl⟩
    | none =>
      cases h
      exact ⟨hlen, hspec, fun _ => rfl, fun hne => (hne rfl).elim⟩

end MachineState

namespace SimulationController

theorem stop_ok (h : stop c s fault = .ok (c', failed)) :
    failed = true ∧ c'.machineState = s := by
  cases fault with
  | exception e =>
    cases h
    exact ⟨rfl, rfl⟩
  | assertion => cases h
  | undefined => cases h

/-- What a cycle does: it is ended early by an exception in one of its two parts, or it completes. -/
theorem simulateCycle_cases {m : Machine ρ} {c c' : SimulationController ρ}
    (hfinished : c.machineState.finished = false) (h : simulateCycle m c = .ok (c', failed)) :
    (∃ fault s₂, (c.machineState.executed m).endClock m = (s₂, some fault) ∧ failed = true ∧
      c'.machineState = s₂) ∨
    (∃ fault exit s₂ s₃, (c.machineState.executed m).endClock m = (s₂, none) ∧
      s₂.advanceClock m exit = (s₃, some fault) ∧ failed = true ∧ c'.machineState = s₃) ∨
    (∃ exit s₂ s₃, (c.machineState.executed m).endClock m = (s₂, none) ∧
      s₂.advanceClock m exit = (s₃, none) ∧ failed = false ∧ c'.machineState = s₃) := by
  have hneg : ¬ c.machineState.finished = true := by
    rw [hfinished]
    exact Bool.false_ne_true
  rw [simulateCycle, if_neg hneg] at h
  cases hins : m.instructionAt c.machineState.gcuState.programCounter with
  | none =>
    rw [hins] at h
    cases h
  | some instruction =>
    rw [hins] at h
    dsimp only at h
    have hexec : c.machineState.executed m = c.machineState.execute m instruction := by
      rw [MachineState.executed, hins]
    rw [hexec]
    split at h
    · rename_i s₂ fault hend
      obtain ⟨rfl, rfl⟩ := stop_ok h
      exact .inl ⟨fault, _, hend, rfl, rfl⟩
    · rename_i s₂ hend
      split at h
      · rename_i s₃ fault hadv
        obtain ⟨rfl, rfl⟩ := stop_ok h
        exact .inr (.inl ⟨fault, _, s₂, _, hend, hadv, rfl, rfl⟩)
      · rename_i s₃ hadv
        cases h
        exact .inr (.inr ⟨_, s₂, _, hend, hadv, rfl, rfl⟩)

/-- A unit after a cycle: it has gone through a whole cycle, or an exception has left it with its
ports written or its clock ended. -/
theorem simulateCycle_unit {m : Machine ρ} {c c' : SimulationController ρ}
    (hfinished : c.machineState.finished = false) (h : simulateCycle m c = .ok (c', failed))
    {i : Nat} {u : FunctionUnit} {f : FUState} (hu : m.units[i]? = some u)
    (hf : c.machineState.fuStates[i]? = some f) :
    ∃ f', c'.machineState.fuStates[i]? = some f' ∧
      (f.cycle u (writesTo i (c.machineState.transports m)) = .ok f' ∨ (failed = true ∧
        (f' = (writesTo i (c.machineState.transports m)).foldl (FUState.writePort u) f ∨
          ((writesTo i (c.machineState.transports m)).foldl (FUState.writePort u) f).endClockOf u =
            .ok f'))) := by
  have hf₁ := c.machineState.executed_fuStates m hu hf
  rcases simulateCycle_cases hfinished h with ⟨fault, s₂, hend, rfl, rfl⟩ |
    ⟨fault, exit, s₂, s₃, hend, hadv, rfl, rfl⟩ | ⟨exit, s₂, s₃, hend, hadv, rfl, rfl⟩
  · obtain ⟨hlen, hspec, -⟩ := MachineState.endClock_spec hend
    obtain ⟨f', hf'⟩ := MachineState.getElem?_of_length hlen hf₁
    refine ⟨f', hf', .inr ⟨rfl, ?_⟩⟩
    rcases hspec i u _ f' hu hf₁ hf' with hok | ⟨rfl, -⟩
    · exact .inr hok
    · exact .inl rfl
  · obtain ⟨hlen, hspec, -⟩ := MachineState.endClock_spec hend
    obtain ⟨hlen', hspec', -⟩ := MachineState.advanceClock_spec hadv
    obtain ⟨f₂, hf₂⟩ := MachineState.getElem?_of_length hlen hf₁
    obtain ⟨f', hf'⟩ := MachineState.getElem?_of_length hlen' hf₂
    refine ⟨f', hf', ?_⟩
    rcases hspec i u _ f₂ hu hf₁ hf₂ with hok | ⟨-, hne⟩
    · rcases hspec' i u f₂ f' hu hf₂ hf' with hok' | ⟨rfl, -⟩
      · left
        rw [FUState.cycle, hok]
        exact hok'
      · exact .inr ⟨rfl, .inr hok⟩
    · exact (hne rfl).elim
  · obtain ⟨hlen, hspec, -⟩ := MachineState.endClock_spec hend
    obtain ⟨hlen', hspec', -⟩ := MachineState.advanceClock_spec hadv
    obtain ⟨f₂, hf₂⟩ := MachineState.getElem?_of_length hlen hf₁
    obtain ⟨f', hf'⟩ := MachineState.getElem?_of_length hlen' hf₂
    refine ⟨f', hf', .inl ?_⟩
    rcases hspec i u _ f₂ hu hf₁ hf₂ with hok | ⟨-, hne⟩
    · rcases hspec' i u f₂ f' hu hf₂ hf' with hok' | ⟨-, hne⟩
      · rw [FUState.cycle, hok]
        exact hok'
      · exact (hne rfl).elim
    · exact (hne rfl).elim

theorem simulateCycle_control {m : Machine ρ} {c c' : SimulationController ρ}
    (hfinished : c.machineState.finished = false) (h : simulateCycle m c = .ok (c', failed)) :
    (failed = false → ∃ g, (c.machineState.executed m).gcuState.endClockOf m.controlUnit =
        (g, none) ∧ c'.machineState.gcuState = g.advanceClockOf) ∧
      (failed = true → c'.machineState.gcuState.programCounter =
        c.machineState.gcuState.programCounter) := by
  have hpc₁ := (c.machineState.executed_gcuState m).written.programCounter_eq
  rcases simulateCycle_cases hfinished h with ⟨fault, s₂, hend, rfl, rfl⟩ |
    ⟨fault, exit, s₂, s₃, hend, hadv, rfl, rfl⟩ | ⟨exit, s₂, s₃, hend, hadv, rfl, rfl⟩
  · obtain ⟨-, -, -, hpc⟩ := MachineState.endClock_spec hend
    exact ⟨fun hf => (Bool.false_ne_true hf.symm).elim, fun _ => hpc.trans hpc₁⟩
  · obtain ⟨-, -, -, hpc⟩ := MachineState.endClock_spec hend
    obtain ⟨-, -, -, hsame⟩ := MachineState.advanceClock_spec hadv
    refine ⟨fun hf => (Bool.false_ne_true hf.symm).elim, fun _ => ?_⟩
    rw [hsame (Option.some_ne_none fault)]
    exact hpc.trans hpc₁
  · obtain ⟨-, -, hcontrol, -⟩ := MachineState.endClock_spec hend
    obtain ⟨-, -, hadvance, -⟩ := MachineState.advanceClock_spec hadv
    exact ⟨fun _ => ⟨s₂.gcuState, hcontrol rfl, hadvance rfl⟩, fun hf => (Bool.false_ne_true hf).elim⟩

theorem simulateCycle_length {m : Machine ρ} {c c' : SimulationController ρ}
    (hfinished : c.machineState.finished = false) (h : simulateCycle m c = .ok (c', failed)) :
    c'.machineState.fuStates.length = c.machineState.fuStates.length := by
  have hlen₁ := c.machineState.length_executed m
  rcases simulateCycle_cases hfinished h with ⟨fault, s₂, hend, rfl, rfl⟩ |
    ⟨fault, exit, s₂, s₃, hend, hadv, rfl, rfl⟩ | ⟨exit, s₂, s₃, hend, hadv, rfl, rfl⟩
  · exact (MachineState.endClock_spec hend).1.trans hlen₁
  · exact ((MachineState.advanceClock_spec hadv).1.trans (MachineState.endClock_spec hend).1).trans
      hlen₁
  · exact ((MachineState.advanceClock_spec hadv).1.trans (MachineState.endClock_spec hend).1).trans
      hlen₁

end SimulationController

end Simulator

end OpenAsip
