import OpenAsip.OperationExecutors

namespace OpenAsip
set_option autoImplicit true

namespace Simulator

/-- A function unit: its operations in the order of the executors, and the widths of its ports. -/
structure FunctionUnit where
  operations : List HWOperation
  inputWidth : Nat → Nat
  outputWidth : Nat → Nat

/-- `FUState`, for stateless operations and without a detailed model. Operations and executors are
given by their positions. -/
structure FUState where
  inputPorts : Ports
  outputPorts : Ports
  executors : List Executor
  idle : Bool
  trigger : Bool
  nextOperation : Option Nat
  nextExecutor : Option Nat
  activeExecutors : Nat

/-- A write to an input port. A triggering port also triggers the operation that was set last, and
an opcode-setting port, which may know the executor, sets an operation and triggers it. -/
inductive PortWrite where
  | input (port value : Nat)
  | triggering (port value : Nat)
  | opcodeSetting (operation : Nat) (executorKnown : Bool) (port value : Nat)
deriving DecidableEq, Repr

def PortWrite.triggers : PortWrite → Bool
  | .input _ _ => false
  | .triggering _ _ => true
  | .opcodeSetting _ _ _ _ => true

namespace FUState

def new (u : FunctionUnit) : FUState where
  inputPorts := fun _ => 0
  outputPorts := fun _ => 0
  executors := u.operations.map Executor.new
  idle := false
  trigger := false
  nextOperation := none
  nextExecutor := none
  activeExecutors := 0

def setTriggered (s : FUState) : FUState := { s with trigger := true, idle := false }

def setOperation (s : FUState) (operation : Nat) (executor : Option Nat) : FUState :=
  { s with nextOperation := some operation, nextExecutor := executor }

def setValue (u : FunctionUnit) (s : FUState) (port value : Nat) : FUState :=
  { s with inputPorts := Function.update s.inputPorts port (value % 2 ^ u.inputWidth port) }

def writePort (u : FunctionUnit) (s : FUState) : PortWrite → FUState
  | .input port value => s.setValue u port value
  | .triggering port value => s.setTriggered.setValue u port value
  | .opcodeSetting operation executorKnown port value =>
    let executor := if executorKnown then some operation else none
    ((s.setOperation operation executor).setTriggered).setValue u port value

/-- The values at the inputs of an operation. -/
def inputValues (s : FUState) (op : HWOperation) : List Nat := op.inputs.map s.inputPorts

def endClock (u : FunctionUnit) (s : FUState) : Outcome FUState :=
  if s.trigger then
    match s.nextOperation with
    | none => .error (.exception .general)
    | some operation =>
      let executor := s.nextExecutor.getD operation
      match u.operations[operation]?, s.executors[executor]? with
      | some op, some e => do
        let started ← e.startOperation u.outputWidth op (s.inputValues op) s.outputPorts
        let pending := started.1.hasPendingOperations
        return { s with
          outputPorts := started.2
          executors := s.executors.set executor started.1
          idle := s.idle && !pending
          trigger := false
          nextExecutor := some executor
          activeExecutors := s.activeExecutors + pending.toNat }
      | _, _ => .error .assertion
  else .ok s

/-- The loop of `advanceClock` over the executors, with the number of those that are still active. -/
def advanceExecutors (width : Nat → Nat) : List HWOperation → List Executor → Ports →
    Outcome (List Executor × Ports × Nat)
  | op :: operations, e :: executors, ports =>
    if e.hasPendingOperations then do
      let advanced ← e.advanceClock width op ports
      let rest ← advanceExecutors width operations executors advanced.2
      return (advanced.1 :: rest.1, rest.2.1, rest.2.2 + advanced.1.hasPendingOperations.toNat)
    else do
      let rest ← advanceExecutors width operations executors ports
      return (e :: rest.1, rest.2)
  | _, executors, ports => .ok (executors, ports, 0)

/-- The executor of the shortcut in `advanceClock`: the one that was triggered last, if it is the
only active one. -/
def onlyActive (s : FUState) : Option (Nat × Executor) :=
  match s.nextExecutor with
  | none => none
  | some i =>
    match s.executors[i]? with
    | none => none
    | some e =>
      if s.activeExecutors = 1 ∧ e.hasPendingOperations = true then some (i, e) else none

def advanceOnly (u : FunctionUnit) (s : FUState) (i : Nat) (e : Executor) : Outcome FUState :=
  match u.operations[i]? with
  | none => .error .undefined
  | some op => do
    let advanced ← e.advanceClock u.outputWidth op s.outputPorts
    let pending := advanced.1.hasPendingOperations
    return { s with
      outputPorts := advanced.2
      executors := s.executors.set i advanced.1
      idle := !pending
      activeExecutors := pending.toNat }

def advanceAll (u : FunctionUnit) (s : FUState) : Outcome FUState := do
  let advanced ← advanceExecutors u.outputWidth u.operations s.executors s.outputPorts
  return { s with
    outputPorts := advanced.2.1
    executors := advanced.1
    idle := advanced.2.2 = 0
    activeExecutors := advanced.2.2 }

def advanceClock (u : FunctionUnit) (s : FUState) : Outcome FUState :=
  if s.activeExecutors = 0 then .ok { s with idle := true }
  else
    match s.onlyActive with
    | some (i, e) => s.advanceOnly u i e
    | none => s.advanceAll u

/-- The body of the loop of `MachineState::endClockOfAllFUStates`. -/
def endClockOf (u : FunctionUnit) (s : FUState) : Outcome FUState :=
  if s.idle then .ok s else s.endClock u

/-- The body of the loop of `MachineState::advanceClockOfAllFUStates`. -/
def advanceClockOf (u : FunctionUnit) (s : FUState) : Outcome FUState :=
  if s.idle then .ok s else s.advanceClock u

/-- One cycle of the simulation: the moves write the ports and then the clock advances. -/
def cycle (u : FunctionUnit) (s : FUState) (writes : List PortWrite) : Outcome FUState := do
  let ended ← (writes.foldl (writePort u) s).endClockOf u
  ended.advanceClockOf u

/-- `FUState::reset`, which recreates the states of the operations and resets the executors. -/
def reset (s : FUState) : FUState := { s with executors := s.executors.map Executor.reset }

end FUState

end Simulator

end OpenAsip
