import OpenAsip.Outcomes
import OpenAsip.Tiles

namespace OpenAsip
set_option autoImplicit true

namespace TTAProgram

/-- A program that is not finalized, with all procedures and instructions there are. Both are known
by their numbers; only some of the procedures belong to the program. -/
structure Program where
  start : Nat
  procedures : List Nat
  startAddr : Nat → Nat
  instructions : Nat → List Nat
  /-- The procedure that an instruction is registered in. -/
  parent : Nat → Option Nat
  deleted : Nat → Bool
  /-- How many moves an instruction has. -/
  moveCount : Nat → Nat
  /-- An instruction and the index of the move in it. -/
  moves : List (Nat × Nat)

/-- What a call leaves behind, and the exception if it has thrown one. -/
abbrev Called := Outcome (Program × Option ExceptionClass)

namespace Program

def returned (s : Program) : Called := .ok (s, none)

def threw (s : Program) (e : ExceptionClass) : Called := .ok (s, some e)

/-- The addresses are 32 bits wide. -/
def endAddress (s : Program) (proc : Nat) : Nat :=
  (s.startAddr proc + (s.instructions proc).length) % 2 ^ 32

def moveProcedure (s : Program) (proc : Nat) (howMuch : Int) : Program :=
  let moved := s.procedures.dropWhile (· ≠ proc)
  { s with
    startAddr := moved.foldl
      (fun start p => Function.update start p (((start p : Int) + howMuch) % 2 ^ 32).toNat)
      s.startAddr }

/-- Nothing follows the last procedure, or one that is not in the program. -/
def nextProcedure (s : Program) (proc : Nat) : Option Nat :=
  (s.procedures.dropWhile (· ≠ proc)).tail.head?

/-- What the mutators of a procedure do last: the procedures after it are moved. -/
def moveFollowing (s : Program) (proc : Nat) (howMuch : Int) : Program :=
  match s.nextProcedure proc with
  | some next => s.moveProcedure next howMuch
  | none => s

def setInstructions (s : Program) (proc : Nat) (l : List Nat) : Program :=
  { s with instructions := Function.update s.instructions proc l }

def setParent (s : Program) (ins : Nat) (proc : Option Nat) : Program :=
  { s with parent := Function.update s.parent ins proc }

/-- `Procedure::add`, which takes an instruction that is in the procedure already. -/
def add (s : Program) (proc ins : Nat) : Called :=
  if s.parent ins = none ∨ s.parent ins = some proc then
    (((s.setParent ins (some proc)).setInstructions proc
      (s.instructions proc ++ [ins])).moveFollowing proc 1).returned
  else s.threw .invalidData

def insertAfter (s : Program) (proc pos ins : Nat) : Called :=
  if s.parent ins = none then
    let l := s.instructions proc
    if pos ∈ l then
      if l.idxOf pos + 1 < l.length then
        (((s.setParent ins (some proc)).setInstructions proc
          (l.insertIdx (l.idxOf pos + 1) ins)).moveFollowing proc 1).returned
      else s.add proc ins
    else s.threw .invalidData
  else s.threw .invalidData

def insertBefore (s : Program) (proc pos ins : Nat) : Called :=
  if s.parent ins = none then
    let l := s.instructions proc
    if pos ∈ l then
      (((s.setParent ins (some proc)).setInstructions proc
        (l.insertIdx (l.idxOf pos) ins)).moveFollowing proc 1).returned
    else .error .assertion
  else s.threw .invalidData

/-- `Procedure::addFront` is not implemented and aborts. -/
def addFront (_s : Program) (_proc _ins : Nat) : Called := .error .assertion

/-- A procedure in no program has no parent to remove labels from, so it throws when its last
instruction is gone already. -/
def remove (s : Program) (proc ins : Nat) : Called :=
  if s.parent ins ≠ some proc then s.threw .invalidData
  else
    let l := s.instructions proc
    if l = [] then s.threw .notAvailable
    else if ins ∈ l then
      let erased := s.setInstructions proc (l.erase ins)
      if l.erase ins = [] ∧ proc ∉ s.procedures then erased.threw .invalidData
      else ((erased.setParent ins none).moveFollowing proc (-1)).returned
    else s.returned

/-- The instructions are deleted. -/
def clear (s : Program) (proc : Nat) : Called :=
  let l := s.instructions proc
  let cleared := { s.setInstructions proc [] with
    parent := fun ins => if ins ∈ l then none else s.parent ins
    deleted := fun ins => decide (ins ∈ l) || s.deleted ins }
  (cleared.moveFollowing proc (-l.length)).returned

/-- Where a procedure that is added starts. -/
def newStart (s : Program) : Nat :=
  match s.procedures.getLast? with
  | some last => s.endAddress last
  | none => s.start

def addProcedure (s : Program) (proc : Nat) : Called :=
  if proc ∈ s.procedures then s.threw .invalidData
  else returned { s with
    startAddr := Function.update s.startAddr proc s.newStart
    procedures := s.procedures ++ [proc] }

/-- The moves are added to the program before the instruction is looked at. -/
def addInstruction (s : Program) (ins : Nat) : Called :=
  match s.procedures.getLast? with
  | none => s.threw .invalidData
  | some last =>
    let s := { s with moves := s.moves ++ (List.range (s.moveCount ins)).map (ins, ·) }
    if s.parent ins = none then s.add last ins
    else s.threw .invalidData

inductive Call where
  | addProcedure (proc : Nat)
  | addInstruction (ins : Nat)
  | add (proc ins : Nat)
  | addFront (proc ins : Nat)
  | insertBefore (proc pos ins : Nat)
  | insertAfter (proc pos ins : Nat)
  | remove (proc ins : Nat)
  | clear (proc : Nat)
deriving DecidableEq, Repr

/-- The instructions that a call is given. -/
def Call.given : Call → List Nat
  | .addProcedure _ | .clear _ => []
  | .addInstruction ins | .add _ ins | .addFront _ ins | .remove _ ins => [ins]
  | .insertBefore _ pos ins | .insertAfter _ pos ins => [pos, ins]

def call (s : Program) (c : Call) : Called :=
  if ∃ ins ∈ c.given, s.deleted ins = true then .error .undefined
  else
    match c with
    | .addProcedure proc => s.addProcedure proc
    | .addInstruction ins => s.addInstruction ins
    | .add proc ins => s.add proc ins
    | .addFront proc ins => s.addFront proc ins
    | .insertBefore proc pos ins => s.insertBefore proc pos ins
    | .insertAfter proc pos ins => s.insertAfter proc pos ins
    | .remove proc ins => s.remove proc ins
    | .clear proc => s.clear proc

section Queries

/-- `Instruction::address`. The position that it remembers is checked before it is used. -/
def address (s : Program) (ins : Nat) : Outcome Nat :=
  match s.parent ins with
  | none => .error (.exception .invalidData)
  | some proc =>
    if ins ∈ s.instructions proc then
      .ok ((s.startAddr proc + (s.instructions proc).idxOf ins) % 2 ^ 32)
    else .error (.exception .invalidData)

/-- `CodeSnippet::instructionAt`. The index is an `int`. -/
def instructionAtIn (s : Program) (proc address : Nat) : Outcome Nat :=
  let index := (BitVec.ofNat 32 address - BitVec.ofNat 32 (s.startAddr proc)).toInt
  match (s.instructions proc)[index.toNat]? with
  | some ins => if 0 ≤ index then .ok ins else .error (.exception .notAvailable)
  | none => .error (.exception .notAvailable)

/-- The loop of `Program::instructionAt`. -/
def instructionAtLoop (s : Program) (address : Nat) : List Nat → Outcome Nat
  | [] => .error (.exception .notAvailable)
  | proc :: procs =>
    if s.startAddr proc ≤ address ∧ s.endAddress proc > address then
      s.instructionAtIn proc address
    else instructionAtLoop s address procs

def instructionAt (s : Program) (address : Nat) : Outcome Nat :=
  s.instructionAtLoop address s.procedures

/-- `CodeSnippet::nextInstruction`. -/
def nextInstructionIn (s : Program) (proc ins : Nat) : Outcome (Option Nat) :=
  if s.parent ins ≠ some proc then .error (.exception .invalidData)
  else do
    let insAddress ← s.address ins
    let current := (insAddress + (2 ^ 32 - s.startAddr proc)) % 2 ^ 32
    .ok (s.instructions proc)[(current + 1) % 2 ^ 32]?

/-- The loop of `Program::nextInstruction`. -/
def nextInstructionLoop (s : Program) (ins insAddress : Nat) : List Nat → Outcome (Option Nat)
  | [] => .ok none
  | proc :: procs =>
    if s.startAddr proc ≤ insAddress ∧ s.endAddress proc > insAddress then do
      match ← s.nextInstructionIn proc ins with
      | some next => .ok (some next)
      | none =>
        match procs.find? (s.instructions · ≠ []) with
        | some next => do
          let first ← s.instructionAtIn next (s.startAddr next)
          .ok (some first)
        | none => .ok none
    else nextInstructionLoop s ins insAddress procs

/-- The result is none for the null instruction. -/
def nextInstruction (s : Program) (ins : Nat) : Outcome (Option Nat) :=
  match s.parent ins with
  | none => .error (.exception .invalidData)
  | some proc =>
    if proc ∉ s.procedures then .error (.exception .invalidData)
    else do
      let insAddress ← s.address ins
      match ← s.nextInstructionIn proc ins with
      | some next => .ok (some next)
      | none => s.nextInstructionLoop ins insAddress s.procedures

/-- The instructions met by going on from one to the next, at most so many. -/
def walk (s : Program) : Nat → Nat → Outcome (List Nat)
  | 0, _ => .error .assertion
  | n + 1, ins => do
    match ← s.nextInstruction ins with
    | some next => do
      let rest ← walk s n next
      .ok (ins :: rest)
    | none => .ok [ins]

end Queries

end Program

end TTAProgram

end OpenAsip
