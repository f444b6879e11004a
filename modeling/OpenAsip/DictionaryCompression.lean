import Mathlib.Algebra.Ring.Nat
import OpenAsip.BitVectors
import OpenAsip.Containers

namespace OpenAsip
set_option autoImplicit true

namespace Compression
open BitVector

/-- A field of the instruction word. -/
structure InstructionField where
  relativePosition : Nat
  width : Nat
deriving DecidableEq, Repr

inductive FieldKind where
  | immediateControl
  | moveSlot
  | immediateSlot
  | limmDstRegister
deriving DecidableEq, Repr

/-- The fields of an encoding map. The order of the move slots need not be that of their
positions. -/
structure BinaryEncoding where
  immediateControlField : Option InstructionField
  moveSlots : List InstructionField
  immediateSlots : List InstructionField
  longImmDstRegisterFields : List InstructionField
deriving DecidableEq, Repr

/-- The child fields in the order in which `childField` looks for them. -/
def BinaryEncoding.childFields (bem : BinaryEncoding) : List (FieldKind × InstructionField) :=
  bem.immediateControlField.toList.map (Prod.mk .immediateControl) ++
    (bem.moveSlots.map (Prod.mk .moveSlot) ++ (bem.immediateSlots.map (Prod.mk .immediateSlot) ++
      bem.longImmDstRegisterFields.map (Prod.mk .limmDstRegister)))

def BinaryEncoding.childFieldCount (bem : BinaryEncoding) : Nat := bem.childFields.length

def BinaryEncoding.childField (bem : BinaryEncoding) (position : Nat) :
    Option (FieldKind × InstructionField) :=
  bem.childFields.find? fun f => f.2.relativePosition = position

def widths (fields : List InstructionField) : Nat := (fields.map InstructionField.width).sum

/-- `firstMoveSlotIndex`. The destination register fields count only with an immediate control
field. -/
def BinaryEncoding.firstMoveSlotIndex (bem : BinaryEncoding) : Nat :=
  match bem.immediateControlField with
  | some field => field.width + widths bem.longImmDstRegisterFields
  | none => 0

/-- The bits that an instruction has in a field. -/
abbrev Encoder (ι : Type) := ι → FieldKind × InstructionField → Outcome (List Bool)

/-- The bits of one field are added, and their number is asserted. -/
def addBitsForField (bem : BinaryEncoding) (encode : Encoder ι) (instruction : ι)
    (instructionBits : List Bool) (position : Nat) : Outcome (List Bool) :=
  match bem.childField position with
  | some field => do
    let bits ← encode instruction field
    if bits.length = field.2.width then return instructionBits ++ bits else .error .assertion
  | none => .error .assertion

/-- `bemInstructionBits`, which begins with the last field. -/
def bemInstructionBits (bem : BinaryEncoding) (encode : Encoder ι) (instruction : ι) :
    Outcome (List Bool) :=
  (List.range bem.childFieldCount).reverse.foldlM (addBitsForField bem encode instruction) []

abbrev Dictionary := StdMap (List Bool) Nat

/-- A new entry has the size of the dictionary as its code, which is an `unsigned int`. -/
def addToDictionary (dictionary : Dictionary) (instructionBits : List Bool) : Dictionary :=
  if (dictionary.lookup instructionBits).isSome then dictionary
  else dictionary.insert instructionBits (dictionary.length % 2 ^ 32)

def valueForKey (dictionary : Dictionary) (key : List Bool) : Outcome Nat :=
  match dictionary.lookup key with
  | some code => .ok code
  | none => .error (.exception .general)

def keyForValue (dictionary : Dictionary) (code : Nat) : Outcome (List Bool) :=
  match dictionary.find? fun e => e.2 = code with
  | some e => .ok e.1
  | none => .error (.exception .general)

namespace InstructionDictionary

def addWord (bem : BinaryEncoding) (encode : Encoder ι) (dictionary : Dictionary)
    (instruction : ι) : Outcome Dictionary := do
  let instructionBits ← bemInstructionBits bem encode instruction
  return addToDictionary dictionary instructionBits

/-- A program without instructions has no first instruction. -/
def updateDictionary (bem : BinaryEncoding) (encode : Encoder ι) (dictionary : Dictionary)
    (program : List ι) : Outcome Dictionary :=
  if program.isEmpty then .error (.exception .general)
  else program.foldlM (addWord bem encode) dictionary

/-- The dictionary of the programs, after the instructions that ensure programmability, if any. -/
def createDictionary (bem : BinaryEncoding) (encode : Encoder ι) (programs : List (List ι)) :
    Outcome Dictionary :=
  programs.foldlM (updateDictionary bem encode) []

def addInstruction (bem : BinaryEncoding) (encode : Encoder ι) (dictionary : Dictionary)
    (instruction : ι) : Outcome (List Bool) := do
  let bemBits ← bemInstructionBits bem encode instruction
  let code ← valueForKey dictionary bemBits
  pushBack [] code (MathTools.requiredBits (dictionary.length - 1))

/-- The width of the instruction memory. -/
def imemWidth (dictionary : Dictionary) : Nat := MathTools.requiredBits dictionary.length

/-- `compress` for one of the programs: the dictionary, and the words of the program. -/
def compress (bem : BinaryEncoding) (encode : Encoder ι) (programs : List (List ι))
    (program : List ι) : Outcome (Dictionary × List (List Bool)) := do
  let dictionary ← createDictionary bem encode programs
  if imemWidth dictionary ≤ 64 then do
    let words ← program.mapM (addInstruction bem encode dictionary)
    return (dictionary, words)
  else .error .assertion

/-- The generated decompressor: the leading bits of the fetched block are the line of the
dictionary. -/
def decompress (dictionary : Dictionary) (fetchblock : List Bool) : Outcome (List Bool) :=
  keyForValue dictionary
    (ofBits (fetchblock.take (MathTools.requiredBits (dictionary.length - 1))))

end InstructionDictionary

namespace MoveSlotDictionary

/-- The constructor of a `BitVector` that is a part of another one. -/
def subVector (bits : List Bool) (firstIndex lastIndex : Nat) : Outcome (List Bool) :=
  if lastIndex < firstIndex ∨ bits.length ≤ lastIndex then .error (.exception .outOfRange)
  else .ok ((bits.drop firstIndex).take (lastIndex - firstIndex + 1))

/-- The move slots of an instruction, one after the other. The indices are `unsigned int`s. -/
def moveSlotBits (instructionBits : List Bool) : List Nat → Nat → Outcome (List (List Bool))
  | [], _ => .ok []
  | width :: widths, first => do
    let last := (first + width + 2 ^ 32 - 1) % 2 ^ 32
    let moveSlot ← subVector instructionBits first last
    let rest ← moveSlotBits instructionBits widths ((last + 1) % 2 ^ 32)
    return moveSlot :: rest

def instructionSlots (bem : BinaryEncoding) (instructionBits : List Bool) :
    Outcome (List (List Bool)) :=
  moveSlotBits instructionBits (bem.moveSlots.map InstructionField.width) bem.firstMoveSlotIndex

/-- There is one dictionary for each move slot. -/
def addSlots (bem : BinaryEncoding) (encode : Encoder ι) (dictionary : List Dictionary)
    (instruction : ι) : Outcome (List Dictionary) := do
  let instructionBits ← bemInstructionBits bem encode instruction
  let slots ← instructionSlots bem instructionBits
  return dictionary.zipWith addToDictionary slots

def updateDictionary (bem : BinaryEncoding) (encode : Encoder ι) (dictionary : List Dictionary)
    (program : List ι) : Outcome (List Dictionary) :=
  if program.isEmpty then .error (.exception .general)
  else program.foldlM (addSlots bem encode) dictionary

def createDictionary (bem : BinaryEncoding) (encode : Encoder ι) (programs : List (List ι)) :
    Outcome (List Dictionary) :=
  programs.foldlM (updateDictionary bem encode) (bem.moveSlots.map fun _ => [])

def codeWidth (dictionary : Dictionary) : Nat := MathTools.requiredBits dictionary.length

def imemWidth (bem : BinaryEncoding) (dictionary : List Dictionary) : Nat :=
  (dictionary.map codeWidth).sum + bem.firstMoveSlotIndex

/-- The codes of the move slots are added. -/
def addCodes (compressed : List Bool) : List (Dictionary × List Bool) → Outcome (List Bool)
  | [] => .ok compressed
  | (dictionary, moveSlot) :: rest => do
    let code ← valueForKey dictionary moveSlot
    let compressed ← pushBack compressed code (codeWidth dictionary)
    addCodes compressed rest

def addInstruction (bem : BinaryEncoding) (encode : Encoder ι) (dictionary : List Dictionary)
    (instruction : ι) : Outcome (List Bool) := do
  let bemBits ← bemInstructionBits bem encode instruction
  if bemBits.length < bem.firstMoveSlotIndex then .error (.exception .outOfRange)
  else do
    let slots ← instructionSlots bem bemBits
    addCodes (bemBits.take bem.firstMoveSlotIndex) (dictionary.zip slots)

def compress (bem : BinaryEncoding) (encode : Encoder ι) (programs : List (List ι))
    (program : List ι) : Outcome (List Dictionary × List (List Bool)) := do
  let dictionary ← createDictionary bem encode programs
  let words ← program.mapM (addInstruction bem encode dictionary)
  return (dictionary, words)

/-- `evaluateMoveSlotBoundaries`. The positions are counted from one. -/
def evaluateMoveSlotBoundaries (temp : Nat) : List Dictionary → List (Nat × Nat)
  | [] => []
  | dictionary :: dictionaries =>
    (temp + 1, temp + codeWidth dictionary) ::
      evaluateMoveSlotBoundaries (temp + codeWidth dictionary) dictionaries

/-- The entry of a move slot. A dictionary of one entry is a constant. -/
def dictionaryLine (fetchblock : List Bool) (dictionary : Dictionary) (bounds : Nat × Nat) :
    Outcome (List Bool) :=
  if 1 < dictionary.length then
    keyForValue dictionary
      (ofBits ((fetchblock.drop (bounds.1 - 1)).take (bounds.2 - bounds.1 + 1)))
  else keyForValue dictionary 0

/-- The generated decompressor: the bits before the codes, and then the entries. -/
def decompress (bem : BinaryEncoding) (dictionary : List Dictionary) (fetchblock : List Bool) :
    Outcome (List Bool) := do
  let boundaries := evaluateMoveSlotBoundaries bem.firstMoveSlotIndex dictionary
  let lines ← (dictionary.zip boundaries).mapM fun d => dictionaryLine fetchblock d.1 d.2
  return fetchblock.take bem.firstMoveSlotIndex ++ lines.flatten

end MoveSlotDictionary

end Compression

end OpenAsip
