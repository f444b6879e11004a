import Mathlib.Algebra.Ring.Int.Defs
import Mathlib.Algebra.Ring.Nat
import Mathlib.Logic.Function.Basic
import OpenAsip.Outcomes

namespace OpenAsip
set_option autoImplicit true

namespace Simulator

/-- The values of the port registers of a function unit. -/
abbrev Ports := Nat → Nat

/-- An output operand: the port it is bound to, its own width and the latency of the result. -/
structure Output where
  port : Nat
  width : Nat
  latency : Nat
deriving DecidableEq, Repr

inductive ExecutorClass where
  | oneCycle
  | simple
  | multiLatency
deriving DecidableEq, Repr

def executorMaxOperandCount := 512

def intMax : Int := 2 ^ 31 - 1

/-- A stateless operation in a function unit. `simulateTrigger` gives the value of each output, and
`ready` is what the function returns. The last fields hold for the executors that
`MachineStateBuilder` chooses. -/
structure HWOperation where
  inputs : List Nat
  outputs : List Output
  latency : Nat
  executor : ExecutorClass
  simulateTrigger : List Nat → Nat → Nat
  ready : List Nat → Bool
  latency_pos : 0 < latency
  latency_le : (latency : Int) ≤ intMax
  output_pos : ∀ o ∈ outputs, 0 < o.latency
  output_le : ∀ o ∈ outputs, o.latency ≤ latency
  output_eq : executor ≠ .multiLatency → ∀ o ∈ outputs, o.latency = latency
  oneCycle : executor = .oneCycle → latency = 1
  operands_le : executor = .simple → inputs.length + outputs.length ≤ executorMaxOperandCount

/-- The choice of `MachineStateBuilder` when there is no conflict detection. -/
def executorClass (detailedSimulationModel : Bool) (outputs : List Output) (latency : Nat) :
    ExecutorClass :=
  if (outputs.any fun o => o.latency < latency) || detailedSimulationModel then .multiLatency
  else if latency = 1 then .oneCycle
  else .simple

theorem executorClass_eq (h : ∀ o ∈ outputs, o.latency ≤ latency)
    (hc : executorClass detailed outputs latency ≠ .multiLatency) :
    (∀ o ∈ outputs, o.latency = latency) ∧
      (executorClass detailed outputs latency = .oneCycle → latency = 1) := by
  rw [executorClass] at hc ⊢
  split at hc
  · exact (hc rfl).elim
  · rename_i hany
    rw [if_neg hany]
    constructor
    · intro o ho
      apply Nat.le_antisymm (h o ho)
      apply Nat.le_of_not_lt
      intro hlt
      apply hany
      rw [List.any_eq_true.2 ⟨o, ho, decide_eq_true hlt⟩, Bool.true_or]
    · intro hone
      split at hone
      · assumption
      · cases hone

/-- Port registers keep the low bits of the values that are written. -/
def writePorts (width : Nat → Nat) (ports : Ports) (writes : List (Nat × Nat)) : Ports :=
  writes.foldl (fun ports x => Function.update ports x.1 (x.2 % 2 ^ width x.1)) ports

/-- The outputs as a `SimpleOperationExecutor` stores them, in registers of the operand widths. -/
def HWOperation.storedOutputs (op : HWOperation) (inputs : List Nat) : List Nat :=
  op.outputs.mapIdx fun k o => op.simulateTrigger inputs k % 2 ^ o.width

/-- The ring buffer holds the outputs of the operations in the pipeline. -/
structure SimpleOperationExecutor where
  nextSlot : Nat
  buffer : List (Option (List Nat))
  pendingOperations : Nat
  hasPendingOperations : Bool
deriving DecidableEq

namespace SimpleOperationExecutor

def new (latency : Nat) : SimpleOperationExecutor := ⟨0, List.replicate latency none, 0, true⟩

def startOperation (op : HWOperation) (e : SimpleOperationExecutor) (inputs : List Nat) :
    Outcome SimpleOperationExecutor :=
  if executorMaxOperandCount < op.inputs.length + op.outputs.length then .error .assertion
  else if e.nextSlot < e.buffer.length then
    .ok { e with
      buffer := e.buffer.set e.nextSlot (some (op.storedOutputs inputs))
      pendingOperations := e.pendingOperations + 1
      hasPendingOperations := true }
  else .error .undefined

def advanceClock (width : Nat → Nat) (op : HWOperation) (e : SimpleOperationExecutor)
    (ports : Ports) : Outcome (SimpleOperationExecutor × Ports) :=
  let index := (e.nextSlot + 1) % e.buffer.length
  match e.buffer[index]? with
  | none => .error .undefined
  | some none => .ok ({ e with nextSlot := index }, ports)
  | some (some values) =>
    .ok ({
        nextSlot := index
        buffer := e.buffer.set index none
        pendingOperations := e.pendingOperations - 1
        hasPendingOperations := decide (0 < e.pendingOperations - 1) },
      writePorts width ports ((op.outputs.map Output.port).zip values))

end SimpleOperationExecutor

/-- A result in the storage of an operation that waits for its latency to pass. -/
structure PendingResult where
  result : Nat
  target : Nat
  cyclesToGo : Int
  resultLatency : Nat
deriving DecidableEq, Repr

def PendingResult.advanceCycle (width : Nat → Nat) (r : PendingResult) (ports : Ports) :
    PendingResult × Ports :=
  if r.cyclesToGo - 1 = 0 then
    ({ r with cyclesToGo := intMax },
      Function.update ports r.target (r.result % 2 ^ width r.target))
  else ({ r with cyclesToGo := r.cyclesToGo - 1 }, ports)

/-- A slot of the pipeline. The pending results are made when an operation is first started. -/
structure ExecutingOperation where
  inputs : List Nat
  pendingResults : List PendingResult
  stage : Nat
  free : Bool
deriving DecidableEq

namespace ExecutingOperation

def start (e : ExecutingOperation) : ExecutingOperation :=
  { e with
    pendingResults := e.pendingResults.map fun r => { r with cyclesToGo := r.resultLatency }
    free := false
    stage := 0 }

def advanceResults (width : Nat → Nat) : List PendingResult → Ports → List PendingResult × Ports
  | [], ports => ([], ports)
  | r :: results, ports =>
    let first := r.advanceCycle width ports
    let rest := advanceResults width results first.2
    (first.1 :: rest.1, rest.2)

def advanceCycle (width : Nat → Nat) (e : ExecutingOperation) (ports : Ports) :
    ExecutingOperation × Ports :=
  let advanced := advanceResults width e.pendingResults ports
  ({ e with pendingResults := advanced.1, stage := e.stage + 1 }, advanced.2)

/-- `Operation::simulateTrigger` on the storage of the slot, whose outputs have the widths of the
ports. -/
def simulateTrigger (width : Nat → Nat) (op : HWOperation) (e : ExecutingOperation) :
    ExecutingOperation :=
  { e with pendingResults := e.pendingResults.mapIdx fun k r =>
      { r with result := op.simulateTrigger e.inputs k % 2 ^ width r.target } }

/-- What the loop of `MultiLatencyOperationExecutor::advanceClock` does with a slot in use. -/
def advance (width : Nat → Nat) (op : HWOperation) (e : ExecutingOperation) (ports : Ports) :
    ExecutingOperation × Ports :=
  let triggered := if e.stage = 0 then e.simulateTrigger width op else e
  let advanced := triggered.advanceCycle width ports
  ({ advanced.1 with free := advanced.1.free || decide (advanced.1.stage = op.latency) },
    advanced.2)

def initPendingResults (op : HWOperation) (e : ExecutingOperation) : ExecutingOperation :=
  { e with pendingResults := e.pendingResults ++ op.outputs.map fun o =>
      ⟨0, o.port, o.latency, o.latency⟩ }

end ExecutingOperation

structure MultiLatencyOperationExecutor where
  executingOps : List ExecutingOperation
  freeExecOp : Option Nat
  execOperationsInitialized : Bool
  hasPendingOperations : Bool
deriving DecidableEq

namespace MultiLatencyOperationExecutor

def new (latency : Nat) : MultiLatencyOperationExecutor :=
  ⟨List.replicate latency ⟨[], [], 0, true⟩, none, false, true⟩

/-- `findFreeExecutingOperation`. When no slot is free the loop ends at the last one. -/
def findFreeExecutingOperation (e : MultiLatencyOperationExecutor) : Outcome Nat :=
  match e.freeExecOp with
  | some i => .ok i
  | none =>
    if e.executingOps = [] then .error .assertion
    else .ok (min (e.executingOps.findIdx ExecutingOperation.free) (e.executingOps.length - 1))

def initializedOps (op : HWOperation) (e : MultiLatencyOperationExecutor) :
    List ExecutingOperation :=
  if e.execOperationsInitialized then e.executingOps
  else e.executingOps.map (ExecutingOperation.initPendingResults op)

def startOperation (op : HWOperation) (e : MultiLatencyOperationExecutor) (inputs : List Nat) :
    Outcome MultiLatencyOperationExecutor := do
  let i ← e.findFreeExecutingOperation
  return {
    executingOps := (e.initializedOps op).modify i fun x => { x with inputs := inputs }.start
    freeExecOp := none
    execOperationsInitialized := true
    hasPendingOperations := true }

/-- The loop of `advanceClock` from slot `i` on. -/
def advanceLoop (width : Nat → Nat) (op : HWOperation) :
    Nat → List ExecutingOperation → Ports → Option Nat → Bool →
      List ExecutingOperation × Ports × Option Nat × Bool
  | _, [], ports, freeExecOp, found => ([], ports, freeExecOp, found)
  | i, e :: ops, ports, freeExecOp, found =>
    if e.free then
      let rest := advanceLoop width op (i + 1) ops ports (some i) found
      (e :: rest.1, rest.2)
    else
      let advanced := e.advance width op ports
      let rest := advanceLoop width op (i + 1) ops advanced.2 freeExecOp true
      (advanced.1 :: rest.1, rest.2)

def advanceClock (width : Nat → Nat) (op : HWOperation) (e : MultiLatencyOperationExecutor)
    (ports : Ports) : MultiLatencyOperationExecutor × Ports :=
  let advanced := advanceLoop width op 0 e.executingOps ports e.freeExecOp false
  ({ e with
      executingOps := advanced.1
      freeExecOp := advanced.2.2.1
      hasPendingOperations := advanced.2.2.2 },
    advanced.2.1)

/-- `reset` clears the flag only. -/
def reset (e : MultiLatencyOperationExecutor) : MultiLatencyOperationExecutor :=
  { e with hasPendingOperations := false }

end MultiLatencyOperationExecutor

/-- The executors of the three classes. One for a single cycle keeps only its flag. -/
inductive Executor where
  | oneCycle (hasPendingOperations : Bool)
  | simple (e : SimpleOperationExecutor)
  | multiLatency (e : MultiLatencyOperationExecutor)
deriving DecidableEq

namespace Executor

def new (op : HWOperation) : Executor :=
  match op.executor with
  | .oneCycle => .oneCycle false
  | .simple => .simple (.new op.latency)
  | .multiLatency => .multiLatency (.new op.latency)

def hasPendingOperations : Executor → Bool
  | .oneCycle pending => pending
  | .simple e => e.hasPendingOperations
  | .multiLatency e => e.hasPendingOperations

/-- The outputs of a one-cycle operation are the port registers themselves. -/
def startOperation (width : Nat → Nat) (op : HWOperation) (inputs : List Nat) (ports : Ports) :
    Executor → Outcome (Executor × Ports)
  | .oneCycle _ =>
    .ok (.oneCycle (!op.ready inputs), writePorts width ports
      (op.outputs.mapIdx fun k o => (o.port, op.simulateTrigger inputs k)))
  | .simple e => do
    let e ← e.startOperation op inputs
    return (.simple e, ports)
  | .multiLatency e => do
    let e ← e.startOperation op inputs
    return (.multiLatency e, ports)

def advanceClock (width : Nat → Nat) (op : HWOperation) (ports : Ports) :
    Executor → Outcome (Executor × Ports)
  | .oneCycle _ => .ok (.oneCycle false, ports)
  | .simple e => do
    let advanced ← e.advanceClock width op ports
    return (.simple advanced.1, advanced.2)
  | .multiLatency e =>
    let advanced := e.advanceClock width op ports
    .ok (.multiLatency advanced.1, advanced.2)

/-- Only `MultiLatencyOperationExecutor` has a `reset` of its own. -/
def reset : Executor → Executor
  | .multiLatency e => .multiLatency e.reset
  | e => e

end Executor

end Simulator

end OpenAsip
