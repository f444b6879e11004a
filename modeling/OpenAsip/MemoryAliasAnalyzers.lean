import Mathlib.Data.List.Basic

namespace OpenAsip
set_option autoImplicit true

namespace AliasAnalysis

/-- A move as the analyzers see it: what it reads, with the move or the operation that the value
comes from. A register that several moves may have written, or none, has no writer. A sum is the
result of an ADD or a SUB with one move for each operand, `result` that of anything else, with the
count of the moves that read what this one has written. -/
inductive MoveNode where
  | stackPointer (id : Nat)
  | register (id : Nat)
  | copy (id : Nat) (writer : MoveNode)
  | sum (id : Nat) (isSub : Bool) (input1 input2 : MoveNode)
  | result (id readers : Nat)
  | immediate (id : Nat) (value : BitVec 32)

namespace MoveNode

def id : MoveNode → Nat
  | stackPointer id | register id | copy id _ | sum id _ _ _ | result id _ | immediate id _ => id

def isGPR : MoveNode → Bool
  | stackPointer _ | register _ | copy _ _ => true
  | _ => false

def isImmediate : MoveNode → Bool
  | immediate _ _ => true
  | _ => false

end MoveNode

/-- What a run puts into the registers and results that are not traced any further. -/
structure Environment where
  stackPointer : BitVec 32
  untraced : Nat → BitVec 32

def sumOf (isSub : Bool) (x y : BitVec 32) : BitVec 32 := if isSub then x - y else x + y

def MoveNode.value (env : Environment) : MoveNode → BitVec 32
  | stackPointer _ => env.stackPointer
  | register id | result id _ => env.untraced id
  | copy _ writer => writer.value env
  | sum _ isSub input1 input2 => sumOf isSub (input1.value env) (input2.value env)
  | immediate _ value => value

structure Operand where
  isAddress : Bool
  memoryUnits : Nat

/-- What feeds the address of an operation in a DAG: an operation over two operands of the whole,
which the set of nodes may list in the other order, or anything else. -/
inductive AddressSource where
  | operation (name : String) (operand1 operand2 : Nat) (reversed : Bool)
  | other

/-- An operation at the end of a DAG. -/
structure TailOperation where
  usesMemory : Bool
  inputs : List Operand
  addressSource : AddressSource

structure Operation where
  inputs : List Operand
  tailOperations : List TailOperation

/-- An operation that uses memory. `inputNode` numbers the operands from 1. -/
structure ProgramOperation where
  operation : Operation
  inputNode : Nat → List MoveNode

def memoryUnitsOf (inputs : List Operand) : Option Nat :=
  (inputs.find? Operand.isAddress).map Operand.memoryUnits

/-- 0 if it is unknown. -/
def mausOfOperation (op : Operation) : Nat :=
  match memoryUnitsOf op.inputs with
  | some maus => maus
  | none =>
    match op.tailOperations.find? TailOperation.usesMemory with
    | some tail => (memoryUnitsOf tail.inputs).getD 0
    | none => 0

def onlyMove : List MoveNode → Option MoveNode
  | [mn] => some mn
  | _ => none

def addressOperandMove (po : ProgramOperation) : Option MoveNode :=
  match po.operation.inputs.findIdx? Operand.isAddress with
  | some i => onlyMove (po.inputNode (i + 1))
  | none => none

/-- The addition or subtraction that the address comes from: whether it is a subtraction, its two
operands, and whether the set of nodes has them the other way round. -/
def addressOperation (po : ProgramOperation) : Option (Bool × Nat × Nat × Bool) :=
  po.operation.tailOperations.findSome? fun tail =>
    if tail.usesMemory ∧ tail.inputs.any Operand.isAddress then
      match tail.addressSource with
      | .other => none
      | .operation name operand1 operand2 reversed =>
        let isSub := name = "sub" ∨ name = "SUB"
        if (name = "add" ∨ name = "ADD" ∨ isSub) ∧ operand1 ≠ operand2 then
          some (isSub, operand1, operand2, reversed)
        else none
    else none

/-- The operands in the order of the set. -/
def findTwoPartAddressOperands (po : ProgramOperation) : Option (Bool × Nat × Nat) :=
  (addressOperation po).map fun (isSub, operand1, operand2, reversed) =>
    (isSub, if reversed then (operand2, operand1) else (operand1, operand2))

/-- Which of the operands of an ADD or a SUB is the variable one, and the constant. A variable that
is subtracted is refused. -/
def findIncrement (isSub : Bool) : MoveNode → MoveNode → Option (Bool × BitVec 32)
  | input1, .immediate _ value => if input1.isGPR then some (true, value) else none
  | .immediate _ value, input2 => if input2.isGPR ∧ ¬ isSub then some (false, value) else none
  | _, _ => none

/-- `myInc` is an `int`, what it is added to a `long`. -/
def increment (isSub : Bool) (value : BitVec 32) : Int :=
  if isSub then -value.toInt else value.toInt

/-- The loop of `StackAliasAnalyzer::getStackOffset`. -/
def stackOffset : MoveNode → Int → Option Int
  | .stackPointer _, offset => some offset
  | .copy _ writer, offset => stackOffset writer offset
  | .sum _ isSub input1 input2, offset =>
    match findIncrement isSub input1 input2 with
    | some (true, value) => stackOffset input1 (offset + increment isSub value)
    | some (false, value) => stackOffset input2 (offset + increment isSub value)
    | none => none
  | _, _ => none

/-- The loop of `ConstantAliasAnalyzer::getConstantAddress`. -/
def constantAddress : MoveNode → Int → Option Int
  | .immediate _ value, addr => some (addr + value.toNat)
  | .copy _ writer, addr => constantAddress writer addr
  | .sum _ isSub input1 input2, addr =>
    match findIncrement isSub input1 input2 with
    | some (true, value) => constantAddress input1 (addr + increment isSub value)
    | some (false, value) => constantAddress input2 (addr + increment isSub value)
    | none => none
  | _, _ => none

/-- The two moves of the parts of an address with the factor of the constant. -/
def addressParts (po : ProgramOperation) : Option (Bool × MoveNode × MoveNode) := do
  let (isSub, operand1, operand2) ← findTwoPartAddressOperands po
  let addr1 ← onlyMove (po.inputNode operand1)
  let addr2 ← onlyMove (po.inputNode operand2)
  some (isSub, addr1, addr2)

def getStackOffset (po : ProgramOperation) : Option Int :=
  match addressOperandMove po with
  | some mn => stackOffset mn 0
  | none =>
    match addressParts po with
    | some (isSub, .immediate id value1, .immediate _ value2) =>
      stackOffset (.immediate id value1) (increment isSub value1 + increment isSub value2)
    | some (isSub, .immediate _ value, mn) => stackOffset mn (increment isSub value)
    | some (isSub, mn, .immediate _ value) => stackOffset mn (increment isSub value)
    | _ => none

def getConstantAddress (po : ProgramOperation) : Option Int :=
  match addressOperandMove po with
  | some mn => constantAddress mn 0
  | none => none

def onlyRegisterRawAncestor : MoveNode → MoveNode
  | .copy _ writer => onlyRegisterRawAncestor writer
  | mn => mn

/-- What `OffsetAliasAnalyzer::analyze` finds out about an operation. The ancestor of an address
that is no result of an operation is only there when the data were stored before. -/
def offsetData (stored : Bool) (po : ProgramOperation) : Option (MoveNode × Int) :=
  match addressOperandMove po with
  | some mn =>
    match onlyRegisterRawAncestor mn with
    | .sum _ isSub base (.immediate _ value) =>
      if base.isGPR then some (onlyRegisterRawAncestor base, increment isSub value) else none
    | .sum _ _ _ _ => none
    | .result id readers => if 1 < readers then some (.result id readers, 0) else none
    | rawSrc => if stored then some (rawSrc, 0) else none
  | none =>
    match addressParts po with
    | some (isSub, addr1, addr2) =>
      match addr1, addr2 with
      | .immediate _ value, addr2 =>
        if addr2.isGPR then some (onlyRegisterRawAncestor addr2, increment isSub value) else none
      | addr1, .immediate _ value =>
        if addr1.isGPR then some (onlyRegisterRawAncestor addr1, increment isSub value) else none
      | _, _ => none
    | none => none

inductive Analyzer where
  | constant
  | stack
  | offset
deriving DecidableEq

/-- What an offset is counted from. -/
inductive Base where
  | zero
  | stackPointer
  | move (mn : MoveNode)

def Base.value (env : Environment) : Base → BitVec 32
  | zero => 0
  | stackPointer => env.stackPointer
  | move mn => mn.value env

/-- Two moves are the same if they are the same node. -/
def Base.same : Base → Base → Bool
  | zero, zero => true
  | stackPointer, stackPointer => true
  | move mn, move mn' => mn.id = mn'.id
  | _, _ => false

/-- The base and the offset of the address of an operation. An offset of INT_MAX that the analyzer
of the stack has stored means that there is none. -/
def Analyzer.trace (stored : Bool) (po : ProgramOperation) : Analyzer → Option (Base × Int)
  | constant => (getConstantAddress po).map fun addr => (.zero, addr)
  | stack =>
    match getStackOffset po with
    | some addr => if stored ∧ addr = 2147483647 then none else some (.stackPointer, addr)
    | none => none
  | offset => (offsetData stored po).map fun data => (.move data.1, data.2)

inductive AliasingResult where
  | aliasFalse
  | aliasTrue
  | aliasUnknown
deriving DecidableEq

/-- `std::max` of two `int`. -/
def maxInt (x y : BitVec 32) : BitVec 32 := if x.slt y then y else x

def compareIndeces (index1 index2 maus1 maus2 : BitVec 32) : AliasingResult :=
  if maus1 = 0 ∨ maus2 = 0 then .aliasUnknown
  else if index1 = index2 then if maus1 ≠ maus2 then .aliasUnknown else .aliasTrue
  else
    let maus := maxInt maus1 maus2
    if index1 &&& ~~~(maus - 1) = index2 &&& ~~~(maus - 1) then .aliasUnknown else .aliasFalse

/-- `analyze` for two operations of which neither is in the next round of a loop. -/
def Analyzer.analyze (a : Analyzer) (stored1 stored2 : Bool) (pop1 pop2 : ProgramOperation) :
    AliasingResult :=
  match a.trace stored1 pop1, a.trace stored2 pop2 with
  | some (base1, offset1), some (base2, offset2) =>
    if base1.same base2 then
      compareIndeces (BitVec.ofInt 32 offset1) (BitVec.ofInt 32 offset2)
        (BitVec.ofNat 32 (mausOfOperation pop1.operation))
        (BitVec.ofNat 32 (mausOfOperation pop2.operation))
    else .aliasUnknown
  | _, _ => .aliasUnknown

end AliasAnalysis

end OpenAsip
