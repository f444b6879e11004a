import Mathlib.Logic.Function.Iterate
import OpenAsip.BitMatrix
import OpenAsip.Reservations

namespace OpenAsip
set_option autoImplicit true

namespace ConflictDetection

/-- What an operation uses in one cycle: the operands it reads and writes and the pipeline
elements. -/
structure PipelineCycle where
  opReads : List Nat
  opWrites : List Nat
  resourceUsage : List String
deriving DecidableEq, Repr

structure HWOperation where
  name : String
  port : Nat → Option String
  pipeline : List PipelineCycle

namespace HWOperation

def latency (op : HWOperation) : Nat := op.pipeline.length

def isOperandBound (op : HWOperation) (port : String) (operands : List Nat) : Bool :=
  operands.any fun operand => op.port operand = some port

def isPortRead (op : HWOperation) (port : String) (cycle : Nat) : Bool :=
  match op.pipeline[cycle]? with
  | some usage => op.isOperandBound port usage.opReads
  | none => false

def isPortWritten (op : HWOperation) (port : String) (cycle : Nat) : Bool :=
  match op.pipeline[cycle]? with
  | some usage => op.isOperandBound port usage.opWrites
  | none => false

def isPortUsed (op : HWOperation) (port : String) (cycle : Nat) : Bool :=
  op.isPortRead port cycle || op.isPortWritten port cycle

def isResourceUsed (op : HWOperation) (name : String) (cycle : Nat) : Bool :=
  match op.pipeline[cycle]? with
  | some usage => name ∈ usage.resourceUsage
  | none => false

end HWOperation

structure FunctionUnit where
  operationPorts : List String
  pipelineElements : List String
  operations : List HWOperation

namespace FunctionUnit
variable (fu : FunctionUnit)

def operationCount : Nat := fu.operations.length

def maxLatency : Nat := fu.operations.foldl (fun m op => if op.latency > m then op.latency else m) 0

/-- The rows of a reservation table are the ports and the pipeline elements. -/
def resourceCount : Nat := fu.operationPorts.length + fu.pipelineElements.length

abbrev ReservationTable := BitMatrix fu.resourceCount fu.maxLatency

abbrev CollisionMatrix := BitMatrix fu.operationCount fu.maxLatency

end FunctionUnit

/-- `std::vector::at`. -/
def vectorAt (l : List α) (i : Nat) : Outcome α :=
  match l[i]? with
  | some a => .ok a
  | none => .error (.exception .outOfRange)

/-- The bits of a row are set one after the other. -/
def setRow (m : BitMatrix rows columns) (row : Nat) (value : Nat → Bool) :
    Outcome (BitMatrix rows columns) :=
  (List.range columns).foldlM (fun m column => m.setBit column row (value column)) m

section Tables
variable (fu : FunctionUnit)

/-- The table of an operation: first the ports, then the pipeline elements. -/
def reservationTable (operation : HWOperation) : Outcome fu.ReservationTable := do
  let m ← (List.range fu.operationPorts.length).foldlM
    (fun m p => setRow m p (operation.isPortUsed (fu.operationPorts.getD p "")))
    (BitMatrix.create _ _ false)
  (List.range fu.pipelineElements.length).foldlM
    (fun m r => setRow m (fu.operationPorts.length + r)
      (operation.isResourceUsed (fu.pipelineElements.getD r ""))) m

def reservationTables : Outcome (List fu.ReservationTable) :=
  fu.operations.mapM (reservationTable fu)

/-- `ReservationTable::conflictsWith`: this table is shifted to the cycle. -/
def conflictsWith (m other : BitMatrix rows columns) (cycle : Nat) : Bool :=
  other.conflictsWith (BitMatrix.shiftLeft^[cycle] m)

def collisionMatrix (tables : List fu.ReservationTable) (index : Nat) :
    Outcome fu.CollisionMatrix := do
  let thisOperation ← vectorAt tables index
  (List.range fu.operationCount).foldlM (fun m row => do
    let other ← vectorAt tables row
    setRow m row (conflictsWith thisOperation other)) (BitMatrix.create _ _ false)

/-- The matrices of the operations and the empty one of the pseudo no-operation. The dimensions of
the latter are those of the others, which only the build with assertions looks up. -/
def collisionMatrices : Outcome (List fu.CollisionMatrix) := do
  let tables ← reservationTables fu
  let matrices ← (List.range fu.operationCount).mapM (collisionMatrix fu tables)
  .ok (matrices ++ [BitMatrix.create _ _ false])

end Tables

/-- The state of `ReservationTableFUResourceConflictDetector`. -/
structure ReservationTableDetector (fu : FunctionUnit) where
  reservationTables : List fu.ReservationTable
  globalReservationTable : fu.ReservationTable

namespace ReservationTableDetector
variable (fu : FunctionUnit)

def create : Outcome (ReservationTableDetector fu) := do
  let tables ← ConflictDetection.reservationTables fu
  .ok ⟨tables, BitMatrix.create _ _ false⟩

def issueOperationInline (d : ReservationTableDetector fu) (id : Nat) :
    Outcome (Bool × ReservationTableDetector fu) := do
  let issued ← vectorAt d.reservationTables id
  if d.globalReservationTable.conflictsWith issued then .ok (false, d)
  else .ok (true, { d with globalReservationTable := d.globalReservationTable.orWith issued })

def advanceCycleInline (d : ReservationTableDetector fu) : Outcome (ReservationTableDetector fu) :=
  .ok { d with globalReservationTable := d.globalReservationTable.shiftLeft }

def detector : Detector Fault (ReservationTableDetector fu) (Fin fu.operationCount) where
  issue d id := issueOperationInline fu d id
  advance := advanceCycleInline fu

end ReservationTableDetector

/-- The state of `DCMFUResourceConflictDetector`. -/
structure DCMDetector (fu : FunctionUnit) where
  collisionMatrices : List fu.CollisionMatrix
  globalCollisionMatrix : fu.CollisionMatrix

namespace DCMDetector
variable (fu : FunctionUnit)

def create : Outcome (DCMDetector fu) := do
  let matrices ← ConflictDetection.collisionMatrices fu
  .ok ⟨matrices, BitMatrix.create _ _ false⟩

def issueOperationInline (d : DCMDetector fu) (id : Nat) : Outcome (Bool × DCMDetector fu) := do
  if ← d.globalCollisionMatrix.bitAt 0 id then .ok (false, d)
  else
    let issued ← vectorAt d.collisionMatrices id
    .ok (true, { d with globalCollisionMatrix := d.globalCollisionMatrix.orWith issued })

def advanceCycleInline (d : DCMDetector fu) : Outcome (DCMDetector fu) :=
  .ok { d with globalCollisionMatrix := d.globalCollisionMatrix.shiftLeft }

def detector : Detector Fault (DCMDetector fu) (Fin fu.operationCount) where
  issue d id := issueOperationInline fu d id
  advance := advanceCycleInline fu

end DCMDetector

end ConflictDetection
end OpenAsip
