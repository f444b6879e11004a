import Mathlib.Algebra.Ring.Nat
import OpenAsip.ByteReaders

namespace OpenAsip
set_option autoImplicit true

namespace Tpef
open Reader

inductive TPEFVersion where
  | v1
  | v2
deriving DecidableEq, Repr

/-- What a `BinaryStream` is set to: the version of the file, and whether the byte order of the file
is not that of the host, whose byte order is little endian. -/
structure StreamSettings where
  version : TPEFVersion
  needsSwap : Bool
deriving DecidableEq, Repr

inductive FieldType where
  | null
  | rf
  | imm
  | unit
deriving DecidableEq, Repr

structure MoveElement where
  isEmpty : Bool
  bus : UInt16
  sourceType : FieldType
  sourceUnit : UInt16
  sourceIndex : UInt16
  destinationType : FieldType
  destinationUnit : UInt16
  destinationIndex : UInt16
  isGuarded : Bool
  isGuardInverted : Bool
  guardType : FieldType
  guardUnit : UInt16
  guardIndex : UInt16
deriving DecidableEq, Repr

structure ImmediateElement where
  destinationUnit : UInt8
  destinationIndex : UInt8
  value : List UInt8
deriving DecidableEq, Repr

structure InstructionAnnotation where
  id : UInt32
  payload : List UInt8
deriving DecidableEq, Repr

/-- What an instruction element is apart from its beginning flag and its annotations. -/
inductive Data where
  | move (m : MoveElement)
  | immediate (i : ImmediateElement)
deriving DecidableEq, Repr

structure InstructionElement where
  isBegin : Bool
  data : Data
  annotations : List InstructionAnnotation
deriving DecidableEq, Repr

def maxAnnotationBytes := 127

def immediateValueMaxBytes := 16

/-- `addByte` on an annotation. The assertion is made before the byte is added. -/
def InstructionAnnotation.addByte (a : InstructionAnnotation) (b : UInt8) :
    Outcome InstructionAnnotation :=
  if a.payload.length % 256 ≤ maxAnnotationBytes then
    .ok { a with payload := a.payload ++ [b] }
  else .error .assertion

/-- A flag of a byte of flags. -/
def flag (mask : UInt8) (b : Bool) : UInt8 := if b then mask else 0

def iaType : UInt8 := 0x01
def iaEnd : UInt8 := 0x02
def iaAnnote : UInt8 := 0x04
def iaEmpty : UInt8 := 0x08
def iaMguard : UInt8 := 0x10

/-- `BinaryStream::writeHalfWord`, which fills its buffer only if the bytes are swapped. -/
def writeHalfWord (st : StreamSettings) (x : UInt16) : Outcome (List UInt8) :=
  if st.needsSwap then .ok [UInt8.ofNat (x.toNat / 256), UInt8.ofNat x.toNat]
  else .error .undefined

def writeId (st : StreamSettings) (id : UInt16) : Outcome (List UInt8) :=
  match st.version with
  | .v1 => .ok [UInt8.ofNat id.toNat]
  | .v2 => writeHalfWord st id

/-- The attribute bits that a move or an immediate has of its own. The length of an immediate is in
the upper half of the byte. -/
def Data.attribute : Data → UInt8
  | .move m => flag iaMguard m.isGuarded ||| flag iaEmpty m.isEmpty
  | .immediate i => iaType ||| UInt8.ofNat (i.value.length % 256 * 16)

def attributeField (e : InstructionElement) (isEnd : Bool) : UInt8 :=
  e.data.attribute ||| flag iaAnnote (!e.annotations.isEmpty) ||| flag iaEnd isEnd

def sourceTypeBits : FieldType → Outcome UInt8
  | .rf => .ok 0x04
  | .imm => .ok 0x08
  | .unit => .ok 0x0c
  | .null => .error .assertion

def destinationTypeBits : FieldType → Outcome UInt8
  | .rf => .ok 0x10
  | .unit => .ok 0x30
  | _ => .error .assertion

def guardTypeBits : FieldType → Outcome UInt8
  | .rf => .ok 0x80
  | .unit => .ok 0x00
  | _ => .error .assertion

/-- The guard type and the inversion, which are written for guarded moves only. -/
def guardBits (m : MoveElement) : Outcome UInt8 :=
  if m.isGuarded then do
    let bits ← guardTypeBits m.guardType
    return bits ||| flag 0x40 m.isGuardInverted
  else .ok 0

def fieldTypes (m : MoveElement) : Outcome UInt8 :=
  if m.isEmpty then .ok 0
  else do
    let source ← sourceTypeBits m.sourceType
    let destination ← destinationTypeBits m.destinationType
    let guard ← guardBits m
    return source ||| destination ||| guard

def writeMove (st : StreamSettings) (m : MoveElement) : Outcome (List UInt8) := do
  let bus ← writeId st m.bus
  let types ← fieldTypes m
  let sourceUnit ← writeId st m.sourceUnit
  let sourceIndex ← writeHalfWord st m.sourceIndex
  let destinationUnit ← writeId st m.destinationUnit
  let destinationIndex ← writeHalfWord st m.destinationIndex
  let guardUnit ← writeId st m.guardUnit
  let guardIndex ← writeHalfWord st m.guardIndex
  return bus ++ ([types] ++ (sourceUnit ++ (sourceIndex ++ (destinationUnit ++
    (destinationIndex ++ (guardUnit ++ guardIndex))))))

def writeImmediate (i : ImmediateElement) : Outcome (List UInt8) :=
  if i.value.length ≤ immediateValueMaxBytes then
    .ok ([i.destinationUnit] ++ ([i.destinationIndex] ++ i.value))
  else .error .assertion

def writeDataField (st : StreamSettings) : Data → Outcome (List UInt8)
  | .move m => writeMove st m
  | .immediate i => writeImmediate i

/-- The bytes of the id from the lowest on. -/
def idBytes (id : UInt32) : List UInt8 :=
  [UInt8.ofNat id.toNat, UInt8.ofNat (id.toNat / 2 ^ 8), UInt8.ofNat (id.toNat / 2 ^ 16)]

/-- `size` of an annotation is a `Byte`. -/
def writeAnnotation (a : InstructionAnnotation) (isLast : Bool) : List UInt8 :=
  [UInt8.ofNat (a.payload.length % 256 % 128) ||| flag 0x80 (!isLast)] ++
    (idBytes a.id ++ a.payload.take (a.payload.length % 256))

def writeAnnotations : List InstructionAnnotation → List UInt8
  | [] => []
  | a :: annotations => writeAnnotation a annotations.isEmpty ++ writeAnnotations annotations

def writeElement (st : StreamSettings) (e : InstructionElement) (isEnd : Bool) :
    Outcome (List UInt8) := do
  let data ← writeDataField st e.data
  return [attributeField e isEnd] ++ (data ++ writeAnnotations e.annotations)

/-- An element ends an instruction if it is the last one or the next one begins an instruction. -/
def endsInstruction : List InstructionElement → Bool
  | [] => true
  | e :: _ => e.isBegin

def writeElements (st : StreamSettings) : List InstructionElement → Outcome (List UInt8)
  | [] => .ok []
  | e :: elements => do
    let first ← writeElement st e (endsInstruction elements)
    let rest ← writeElements st elements
    return first ++ rest

/-- `actualWriteData`, which refers to the first element after it has written them. -/
def actualWriteData (st : StreamSettings) (elements : List InstructionElement) :
    Outcome (List UInt8) := do
  let bytes ← writeElements st elements
  if elements = [] then .error .undefined else return bytes

def readHalfWord (st : StreamSettings) : Reader UInt16 := do
  let first ← readByte
  let second ← readByte
  if st.needsSwap then return UInt16.ofNat (first.toNat * 256 + second.toNat)
  else return UInt16.ofNat (second.toNat * 256 + first.toNat)

def readId (st : StreamSettings) : Reader UInt16 :=
  match st.version with
  | .v1 => do
    let id ← readByte
    return UInt16.ofNat id.toNat
  | .v2 => readHalfWord st

def sourceTypeOf (fieldTypes : UInt8) : Outcome FieldType :=
  if fieldTypes &&& 0x0c = 0x04 then .ok .rf
  else if fieldTypes &&& 0x0c = 0x08 then .ok .imm
  else if fieldTypes &&& 0x0c = 0x0c then .ok .unit
  else .error .assertion

def destinationTypeOf (fieldTypes : UInt8) : Outcome FieldType :=
  if fieldTypes &&& 0x30 = 0x10 then .ok .rf
  else if fieldTypes &&& 0x30 = 0x30 then .ok .unit
  else .error .assertion

def guardTypeOf (fieldTypes : UInt8) : FieldType :=
  if fieldTypes &&& 0x80 = 0x00 then .unit else .rf

/-- What the attribute and the field types say about a new move, whose flags are down and whose
types are null. -/
def readTypes (iAttr fieldTypes : UInt8) (m : MoveElement) : Outcome MoveElement :=
  if iAttr &&& iaEmpty ≠ 0 then .ok { m with isEmpty := true }
  else do
    let source ← sourceTypeOf fieldTypes
    let destination ← destinationTypeOf fieldTypes
    if iAttr &&& iaMguard ≠ 0 then
      return { m with
        isEmpty := false
        sourceType := source
        destinationType := destination
        isGuarded := true
        guardType := guardTypeOf fieldTypes }
    else
      return { m with
        isEmpty := false
        sourceType := source
        destinationType := destination
        isGuarded := false }

/-- The fields that the constructor of a move sets. -/
def MoveElement.new : MoveElement :=
  ⟨false, 0, .null, 0, 0, .null, 0, 0, false, false, .null, 0, 0⟩

def readMove (st : StreamSettings) (iAttr : UInt8) : Reader MoveElement := do
  let bus ← readId st
  let fieldTypes ← readByte
  let m ← (readTypes iAttr fieldTypes MoveElement.new : Except Fault MoveElement)
  let sourceUnit ← readId st
  let sourceIndex ← readHalfWord st
  let destinationUnit ← readId st
  let destinationIndex ← readHalfWord st
  let guardUnit ← readId st
  let guardIndex ← readHalfWord st
  return { m with
    bus := bus
    sourceUnit := sourceUnit
    sourceIndex := sourceIndex
    destinationUnit := destinationUnit
    destinationIndex := destinationIndex
    guardUnit := guardUnit
    guardIndex := guardIndex
    isGuardInverted := fieldTypes &&& 0x40 ≠ 0 }

def readImmediate (iAttr : UInt8) : Reader ImmediateElement := do
  let unit ← readByte
  let index ← readByte
  let value ← readBytes (iAttr.toNat / 16)
  return ⟨unit, index, value⟩

def readDataField (st : StreamSettings) (iAttr : UInt8) : Reader Data :=
  if iAttr &&& iaType ≠ 0 then do
    let i ← readImmediate iAttr
    return .immediate i
  else do
    let m ← readMove st iAttr
    return .move m

def readAnnotationId : Reader UInt32 := do
  let a ← readByte
  let b ← readByte
  let c ← readByte
  return UInt32.ofNat (a.toNat + b.toNat * 2 ^ 8 + c.toNat * 2 ^ 16)

/-- The loop of `readAnnotations`. The bytes of the stream bound the number of its iterations, so it
ends with the stream at the latest. -/
def readAnnotationsLoop : Nat → Reader (List InstructionAnnotation)
  | 0 => fail (.exception .endOfFile)
  | n + 1 => do
    let sizeAndContinuation ← readByte
    let id ← readAnnotationId
    let payload ← readBytes (sizeAndContinuation &&& 0x7f).toNat
    if sizeAndContinuation &&& 0x80 = 0 then return [⟨id, payload⟩]
    else do
      let rest ← readAnnotationsLoop n
      return ⟨id, payload⟩ :: rest

def readAnnotations (iAttr : UInt8) : Reader (List InstructionAnnotation) := fun s =>
  if iAttr &&& iaAnnote ≠ 0 then readAnnotationsLoop s.length s else .ok ([], s)

/-- One element, and whether the next one begins an instruction. -/
def readElement (st : StreamSettings) (nextIsBeginning : Bool) :
    Reader (InstructionElement × Bool) := do
  let iAttr ← readByte
  let data ← readDataField st iAttr
  let annotations ← readAnnotations iAttr
  return (⟨nextIsBeginning, data, annotations⟩, iAttr &&& iaEnd ≠ 0)

/-- The loop of `readData`, with the number of bytes that are left of the body. The bytes of the
stream bound the number of its iterations. -/
def readLoop (st : StreamSettings) :
    Nat → Nat → Bool → Reader (List InstructionElement)
  | _, 0, _ => return []
  | 0, _ + 1, _ => fail (.exception .endOfFile)
  | n + 1, left + 1, nextIsBeginning => fun s => do
    let first ← readElement st nextIsBeginning s
    let rest ← readLoop st n (left + 1 - (s.length - first.2.length)) first.1.2 first.2
    return (first.1.1 :: rest.1, rest.2)

/-- `readData` for a body of the given length. -/
def readData (st : StreamSettings) (bodyLength : Nat) : Reader (List InstructionElement) :=
  fun s => readLoop st s.length bodyLength true s

end Tpef

end OpenAsip
