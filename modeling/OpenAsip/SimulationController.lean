import OpenAsip.FUState

namespace OpenAsip
set_option autoImplicit true

namespace Simulator

/-- What the behaviour of a control flow operation leaves in its operation context. -/
structure ControlEffect where
  outputs : Nat → Nat
  programCounter : Option Nat
  saveReturnAddress : Bool

/-- An operation of the control unit with the ports of its operands. The behaviour is given the
inputs, the program counter and the return address. -/
structure ControlOperation where
  inputs : List Nat
  outputs : List Nat
  isCallOrBranch : Bool
  simulateTrigger : List Nat → Nat → Nat → ControlEffect

/-- Only calls and branches update the program counter. -/
def ControlOperation.jump (op : ControlOperation) (e : ControlEffect) : Option Nat :=
  if op.isCallOrBranch then e.programCounter else none

structure ControlUnit where
  operations : List ControlOperation
  inputWidth : Nat → Nat
  outputWidth : Nat → Nat
  delaySlots : Nat

/-- The latency that `MachineStateBuilder` gives to the state of the control unit. -/
def ControlUnit.latency (c : ControlUnit) : Nat := c.delaySlots + 1

/-- `GCUState` with what it inherits from `FUState` and uses. The executors are transport pipelines,
which keep no operations. -/
structure GCUState where
  inputPorts : Ports
  outputPorts : Ports
  programCounter : Nat
  returnAddressRegister : Nat
  newProgramCounter : Nat
  operationPending : Bool
  operationPendingTime : Int
  idle : Bool
  trigger : Bool
  nextOperation : Option Nat

namespace GCUState

def new : GCUState where
  inputPorts := fun _ => 0
  outputPorts := fun _ => 0
  programCounter := 0
  returnAddressRegister := 0
  newProgramCounter := 0
  operationPending := false
  operationPendingTime := 0
  idle := false
  trigger := false
  nextOperation := none

def reset (g : GCUState) : GCUState :=
  { g with
    programCounter := 0
    returnAddressRegister := 0
    newProgramCounter := 0
    operationPending := false
    operationPendingTime := 0 }

def setTriggered (g : GCUState) : GCUState := { g with trigger := true, idle := false }

def setValue (c : ControlUnit) (g : GCUState) (port value : Nat) : GCUState :=
  { g with inputPorts := Function.update g.inputPorts port (value % 2 ^ c.inputWidth port) }

def writePort (c : ControlUnit) (g : GCUState) : PortWrite → GCUState
  | .input port value => g.setValue c port value
  | .triggering port value => g.setTriggered.setValue c port value
  | .opcodeSetting operation _ port value =>
    ({ g with nextOperation := some operation }.setTriggered).setValue c port value

/-- `setProgramCounter`, with the exception that it throws, if any. -/
def setProgramCounter (c : ControlUnit) (g : GCUState) (value : Nat) : GCUState × Option Fault :=
  if g.operationPending = true ∧ (c.latency : Int) ≠ g.operationPendingTime then
    (g, some (.exception .general))
  else
    ({ g with
      newProgramCounter := value % 2 ^ 32
      operationPending := true
      operationPendingTime := c.latency }, none)

def setReturnAddress (c : ControlUnit) (g : GCUState) : GCUState :=
  { g with returnAddressRegister := (g.programCounter + c.latency) % 2 ^ 32 }

def effect (g : GCUState) (op : ControlOperation) : ControlEffect :=
  op.simulateTrigger (op.inputs.map g.inputPorts) g.programCounter g.returnAddressRegister

def writeOutputs (c : ControlUnit) (g : GCUState) (op : ControlOperation) (e : ControlEffect) :
    GCUState :=
  { g with
    outputPorts := writePorts c.outputWidth g.outputPorts
      (op.outputs.mapIdx fun k port => (port, e.outputs k)) }

def takeJump (c : ControlUnit) (g : GCUState) : Option Nat → GCUState × Option Fault
  | none => (g, none)
  | some value => g.setProgramCounter c value

/-- `TransportPipeline::startOperation`. -/
def startOperation (c : ControlUnit) (g : GCUState) (op : ControlOperation) :
    GCUState × Option Fault :=
  let effect := g.effect op
  let jumped := (g.writeOutputs c op effect).takeJump c (op.jump effect)
  match jumped.2, effect.saveReturnAddress with
  | none, true => (jumped.1.setReturnAddress c, none)
  | _, _ => jumped

/-- `FUState::endClock` for the control unit. -/
def endClock (c : ControlUnit) (g : GCUState) : GCUState × Option Fault :=
  if g.trigger then
    match g.nextOperation with
    | none => (g, some (.exception .general))
    | some operation =>
      match c.operations[operation]? with
      | none => (g, some .assertion)
      | some op => { g with trigger := false }.startOperation c op
  else (g, none)

def advanceClock (g : GCUState) : GCUState :=
  if g.operationPending then
    if g.operationPendingTime - 1 ≤ 0 then
      { g with
        programCounter := g.newProgramCounter
        operationPending := false
        operationPendingTime := g.operationPendingTime - 1
        idle := true }
    else { g with operationPendingTime := g.operationPendingTime - 1, idle := false }
  else { g with idle := true }

def increment (g : GCUState) : GCUState :=
  { g with programCounter := (g.programCounter + 1) % 2 ^ 32 }

/-- The control unit in the first part of a cycle, in which it is skipped when it is idle. -/
def endClockOf (c : ControlUnit) (g : GCUState) : GCUState × Option Fault :=
  if g.idle then (g, none) else g.endClock c

/-- The control unit in the second part of a cycle. -/
def advanceClockOf (g : GCUState) : GCUState :=
  if g.increment.idle then g.increment else g.increment.advanceClock

end GCUState

/-- A write of a move to a port of a function unit or of the control unit, or to the return address
register, which a port of the control unit shares. -/
inductive Transport where
  | functionUnit (unit : Nat) (write : PortWrite)
  | controlUnit (write : PortWrite)
  | returnAddress (value : Nat)
deriving DecidableEq, Repr

/-- The state of the machine. Buses, register files, guards, immediate units and memories are kept
together in one value of an arbitrary type. -/
structure MachineState (ρ : Type u) where
  fuStates : List FUState
  gcuState : GCUState
  finished : Bool
  others : ρ

/-- An instruction reads the state and then writes: its moves have all read before the first one
writes. -/
structure ExecutableInstruction (ρ : Type u) where
  execute : MachineState ρ → List Transport × ρ
  isExitPoint : Bool

/-- A machine with a program. `advanceOthers` advances the clocks of the memories, guards and
immediate units. -/
structure Machine (ρ : Type u) where
  units : List FunctionUnit
  controlUnit : ControlUnit
  entryAddress : Nat
  firstIllegalInstructionIndex : Nat
  instructionAt : Nat → Option (ExecutableInstruction ρ)
  advanceOthers : MachineState ρ → ρ

/-- A loop over the function units, which ends at the first one that fails. A unit that throws is
left as it was. -/
def forAllFUStates (body : FunctionUnit → FUState → Outcome FUState) :
    List FunctionUnit → List FUState → List FUState × Option Fault
  | u :: units, s :: states =>
    match body u s with
    | .error fault => (s :: states, some fault)
    | .ok s' =>
      let rest := forAllFUStates body units states
      (s' :: rest.1, rest.2)
  | _, states => (states, none)

namespace MachineState

def new (m : Machine ρ) (others : ρ) : MachineState ρ where
  fuStates := m.units.map FUState.new
  gcuState := GCUState.new
  finished := false
  others := others

def transport (m : Machine ρ) (s : MachineState ρ) : Transport → MachineState ρ
  | .functionUnit unit write =>
    match m.units[unit]? with
    | none => s
    | some u => { s with fuStates := s.fuStates.modify unit fun f => f.writePort u write }
  | .controlUnit write => { s with gcuState := s.gcuState.writePort m.controlUnit write }
  | .returnAddress value =>
    { s with gcuState := { s.gcuState with returnAddressRegister := value % 2 ^ 64 } }

def execute (m : Machine ρ) (s : MachineState ρ) (instruction : ExecutableInstruction ρ) :
    MachineState ρ :=
  (instruction.execute s).1.foldl (transport m) { s with others := (instruction.execute s).2 }

/-- `endClockOfAllFUStates` and then the control unit. -/
def endClock (m : Machine ρ) (s : MachineState ρ) : MachineState ρ × Option Fault :=
  let units := forAllFUStates FUState.endClockOf m.units s.fuStates
  let ended := { s with fuStates := units.1 }
  match units.2 with
  | some fault => (ended, some fault)
  | none =>
    let control := s.gcuState.endClockOf m.controlUnit
    ({ ended with gcuState := control.1 }, control.2)

/-- `advanceClockOfAllFUStates`, then the program counter and the control unit, then the rest. -/
def advanceClock (m : Machine ρ) (s : MachineState ρ) (isExitPoint : Bool) :
    MachineState ρ × Option Fault :=
  let units := forAllFUStates FUState.advanceClockOf m.units s.fuStates
  let advanced := { s with fuStates := units.1 }
  match units.2 with
  | some fault => (advanced, some fault)
  | none =>
    let control := s.gcuState.advanceClockOf
    let done := { advanced with gcuState := control }
    ({ done with
      others := m.advanceOthers done
      finished := s.finished || isExitPoint ||
        decide (control.programCounter = m.firstIllegalInstructionIndex) }, none)

def resetAllFUs (s : MachineState ρ) : MachineState ρ :=
  { s with
    fuStates := s.fuStates.map FUState.reset
    gcuState := s.gcuState.reset }

end MachineState

/-- `SimulationController`, for one core and without conflict detectors. -/
structure SimulationController (ρ : Type u) where
  machineState : MachineState ρ
  clockCount : Nat

namespace SimulationController

def reset (m : Machine ρ) (c : SimulationController ρ) : SimulationController ρ where
  machineState :=
    let s := c.machineState
    { s with
      gcuState := { s.gcuState with programCounter := m.entryAddress }
      finished := false }.resetAllFUs
  clockCount := 0

/-- The constructor resets what it has built. -/
def new (m : Machine ρ) (others : ρ) : SimulationController ρ :=
  reset m ⟨MachineState.new m others, 0⟩

/-- What an exception inside a cycle leaves: the state at that point, and the report of a runtime
error. The faults that are no exceptions are not caught. -/
def stop (c : SimulationController ρ) (s : MachineState ρ) (fault : Fault) :
    Outcome (SimulationController ρ × Bool) :=
  match fault with
  | .exception _ => .ok ({ c with machineState := s }, true)
  | fault => .error fault

/-- `simulateCycle`, with whether a runtime error was reported. A finished machine is not
advanced. The address of no instruction is not checked. -/
def simulateCycle (m : Machine ρ) (c : SimulationController ρ) :
    Outcome (SimulationController ρ × Bool) :=
  if c.machineState.finished then .ok ({ c with clockCount := c.clockCount + 1 }, false)
  else
    match m.instructionAt c.machineState.gcuState.programCounter with
    | none => .error .undefined
    | some instruction =>
      match (c.machineState.execute m instruction).endClock m with
      | (s, some fault) => c.stop s fault
      | (s, none) =>
        match s.advanceClock m instruction.isExitPoint with
        | (s, some fault) => c.stop s fault
        | (s, none) => .ok (⟨s, c.clockCount + 1⟩, false)

end SimulationController

end Simulator

end OpenAsip
