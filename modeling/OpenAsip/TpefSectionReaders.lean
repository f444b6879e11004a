import OpenAsip.BinaryStreams
import OpenAsip.TpefCodeSection
import OpenAsip.WhileLoops

namespace OpenAsip
set_option autoImplicit true

namespace Tpef
open Reader

/-- What `TPEFSectionReader::readData` keeps of a section header, and the flag `SF_NOBITS`. -/
structure SectionHeader where
  noBits : Bool
  linkId : UInt16
  elementSize : UInt32
  bodyOffset : UInt32
  bodyLength : UInt32
deriving DecidableEq, Repr

/-- The end of the body as the loops compute it. -/
def SectionHeader.bodyEnd (header : SectionHeader) : UInt32 :=
  header.bodyOffset + header.bodyLength

def readWord (st : StreamSettings) : Reader UInt32 := do
  let a ← readByte
  let b ← readByte
  let c ← readByte
  let d ← readByte
  if st.needsSwap then
    return UInt32.ofNat (a.toNat * 2 ^ 24 + b.toNat * 2 ^ 16 + c.toNat * 2 ^ 8 + d.toNat)
  else return UInt32.ofNat (d.toNat * 2 ^ 24 + c.toNat * 2 ^ 16 + b.toNat * 2 ^ 8 + a.toNat)

/-- `SafePointer::addObjectReference` for a new object. -/
def addObjectReference (keys : List UInt32) (key : UInt32) : Outcome (List UInt32) :=
  if key ∈ keys then .error (.exception .keyAlreadyExists) else .ok (key :: keys)

/-- The variables of the loops over elements of one size. -/
structure ElementLoop (σ : Type) where
  stream : BinaryStream
  elementStart : UInt32
  state : σ

def ElementLoop.body (header : SectionHeader) (read : σ → Reader σ) (t : ElementLoop σ) :
    Option (Outcome (ElementLoop σ)) :=
  if t.elementStart + header.elementSize ≤ header.bodyEnd then some do
    let next ← t.stream.run (read t.state)
    let elementStart := t.elementStart + header.elementSize
    return ⟨next.2.setReadPosition elementStart, elementStart, next.1⟩
  else none

def ElementLoop.start (header : SectionHeader) (stream : BinaryStream) (state : σ) :
    ElementLoop σ :=
  ⟨stream.setReadPosition header.bodyOffset, header.bodyOffset, state⟩

/-- The fields of a symbol in the order of the file. -/
structure SymbolFields where
  nameOffset : UInt32
  value : UInt32
  size : UInt32
  info : UInt8
  otherField : UInt8
  sectionToBelong : UInt16
deriving DecidableEq, Repr

inductive SymbolType where
  | noType
  | data
  | code
  | section
  | file
  | procedure
deriving DecidableEq, Repr

/-- A reference is an offset in the section of the symbol. -/
structure SymbolElement where
  type : SymbolType
  binding : UInt8
  absolute : Bool
  name : UInt32
  sectionId : UInt16
  reference : Option UInt32
  value : UInt32
  size : UInt32
deriving DecidableEq, Repr

structure SymbolLoop where
  index : UInt32
  keys : List UInt32
  undefSymbolDefined : Bool
  elements : List SymbolElement
deriving DecidableEq, Repr

def SymbolFields.type (s : SymbolFields) : Option SymbolType :=
  if s.info &&& 0x0f = 0 then some .noType
  else if s.info &&& 0x0f = 1 then some .data
  else if s.info &&& 0x0f = 2 then some .code
  else if s.info &&& 0x0f = 3 then some .section
  else if s.info &&& 0x0f = 4 then some .file
  else if s.info &&& 0x0f = 5 then some .procedure
  else none

def SymbolFields.absolute (s : SymbolFields) : Bool := s.otherField &&& 0x80 ≠ 0

def SymbolFields.binding (s : SymbolFields) : UInt8 := UInt8.ofNat (s.info.toNat / 16)

/-- `createSymbol` and the setters that follow it. A type that is not known gives no element, whose
setters are called nevertheless. -/
def createSymbol (s : SymbolFields) : Outcome SymbolElement :=
  match s.type with
  | none => .error .undefined
  | some type =>
    let refers := (type = .code ∨ type = .data ∨ type = .procedure) ∧ s.sectionToBelong ≠ 0
    .ok {
      type := type
      binding := s.binding
      absolute := s.absolute
      name := s.nameOffset
      sectionId := s.sectionToBelong
      reference := if refers then some s.value else none
      value := if type = .section ∨ type = .file then s.value else 0
      size := if refers ∨ type = .section then s.size else 0 }

def readSymbolFields (st : StreamSettings) : Reader SymbolFields := do
  let nameOffset ← readWord st
  let value ← readWord st
  let size ← readWord st
  let info ← readByte
  let otherField ← readByte
  let sectionToBelong ← readHalfWord st
  return ⟨nameOffset, value, size, info, otherField, sectionToBelong⟩

/-- The first symbol has to be the undefined symbol. -/
def SymbolElement.isUndefined (elem : SymbolElement) : Prop :=
  elem.type = .noType ∧ elem.binding = 0 ∧ elem.absolute = true ∧ elem.name = 0

instance (elem : SymbolElement) : Decidable elem.isUndefined :=
  inferInstanceAs (Decidable (_ ∧ _))

def SymbolLoop.addSymbol (loop : SymbolLoop) (s : SymbolFields) : Outcome SymbolLoop := do
  let elem ← createSymbol s
  let keys ← addObjectReference loop.keys loop.index
  if loop.index = 0 ∧ ¬ elem.isUndefined then .error .assertion
  else return {
    index := loop.index + 1
    keys := keys
    undefSymbolDefined := loop.undefSymbolDefined || loop.index == 0
    elements := loop.elements ++ [elem] }

def readSymbol (st : StreamSettings) (loop : SymbolLoop) : Reader SymbolLoop := do
  let s ← readSymbolFields st
  (loop.addSymbol s : Except Fault SymbolLoop)

/-- The undefined symbol that is made if none was read. -/
def undefinedSymbol : SymbolElement := ⟨.noType, 0, true, 0, 0, none, 0, 0⟩

def SymbolLoop.defineUndefSymbol (loop : SymbolLoop) : Outcome SymbolLoop :=
  if loop.undefSymbolDefined then .ok loop
  else do
    let keys ← addObjectReference loop.keys 0
    return { loop with
      keys := keys
      undefSymbolDefined := true
      elements := loop.elements ++ [undefinedSymbol] }

/-- `TPEFSymbolSectionReader::readData`. The keys are those that the identification code of the
section has already. The fuel bounds the iterations of the loop. -/
def readSymbolData (st : StreamSettings) (header : SectionHeader) (keys : List UInt32)
    (stream : BinaryStream) (fuel : Nat) : Option (Outcome SymbolLoop) :=
  if header.linkId = 0 then some (.error .assertion)
  else if header.noBits then some (SymbolLoop.defineUndefSymbol ⟨0, keys, false, []⟩)
  else (whileLoop (ElementLoop.body header (readSymbol st)) fuel
    (.start header stream ⟨0, keys, false, []⟩)).map fun r => do
      let t ← r
      t.state.defineUndefSymbol

structure RelocElement where
  location : UInt32
  symbol : UInt32
  type : UInt8
  chunked : Bool
  aSpace : UInt8
  size : UInt8
  bitOffset : UInt8
deriving DecidableEq, Repr

structure RelocLoop where
  id : UInt32
  keys : List UInt32
  elements : List RelocElement
deriving DecidableEq, Repr

def readRelocFields (st : StreamSettings) : Reader RelocElement := do
  let rOffset ← readWord st
  let rSymbol ← readWord st
  let rType ← readByte
  let rASP ← readByte
  let size ← readByte
  let bitOffset ← readByte
  return ⟨rOffset, rSymbol, rType &&& 0x0f, rType &&& 0x80 ≠ 0, rASP, size, bitOffset⟩

/-- A relocation has its key before it is read. -/
def readReloc (st : StreamSettings) (loop : RelocLoop) : Reader RelocLoop := do
  let keys ← (addObjectReference loop.keys loop.id : Except Fault (List UInt32))
  let elem ← readRelocFields st
  return ⟨loop.id + 1, keys, loop.elements ++ [elem]⟩

/-- `TPEFRelocSectionReader::readData`. -/
def readRelocData (st : StreamSettings) (header : SectionHeader) (keys : List UInt32)
    (stream : BinaryStream) (fuel : Nat) : Option (Outcome RelocLoop) :=
  if header.linkId = 0 then some (.error .assertion)
  else if header.noBits then some (.ok ⟨0, keys, []⟩)
  else (whileLoop (ElementLoop.body header (readReloc st)) fuel
    (.start header stream ⟨0, keys, []⟩)).map fun r => r.map ElementLoop.state

/-- A line of an instruction, given by its offset in the code section. -/
structure LineNumElement where
  instruction : UInt32
  lineNumber : UInt16
deriving DecidableEq, Repr

structure LineNumProcedure where
  procedureSymbol : Option UInt32
  lines : List LineNumElement
deriving DecidableEq, Repr

/-- The procedures of the section from the last to the first. -/
abbrev LineNumLoop := List LineNumProcedure

def readLineFields (st : StreamSettings) : Reader (UInt32 × UInt16) := do
  let elementOffset ← readWord st
  let lineNum ← readHalfWord st
  return (elementOffset, lineNum)

/-- Line number 0 begins a procedure. Other lines are added to the procedure before them. -/
def LineNumLoop.addLine (procedures : LineNumLoop) (line : UInt32 × UInt16) : Outcome LineNumLoop :=
  if line.2 = 0 then .ok (⟨if line.1 ≠ 0 then some line.1 else none, []⟩ :: procedures)
  else
    match procedures with
    | [] => .error .assertion
    | procedure :: procedures =>
      .ok ({ procedure with lines := procedure.lines ++ [⟨line.1, line.2⟩] } :: procedures)

def readLine (st : StreamSettings) (procedures : LineNumLoop) : Reader LineNumLoop := do
  let line ← readLineFields st
  (procedures.addLine line : Except Fault LineNumLoop)

/-- `TPEFLineNumSectionReader::readData`. -/
def readLineNumData (st : StreamSettings) (header : SectionHeader) (stream : BinaryStream)
    (fuel : Nat) : Option (Outcome LineNumLoop) :=
  if header.linkId = 0 then some (.error .assertion)
  else if header.noBits then some (.ok [])
  else (whileLoop (ElementLoop.body header (readLine st)) fuel
    (.start header stream [])).map fun r => r.map ElementLoop.state

/-- The variables of the loop over instruction elements. -/
structure CodeLoop where
  stream : BinaryStream
  nextIsBeginning : Bool
  sectionIndex : UInt32
  indexKeys : List UInt32
  offsetKeys : List UInt32
  elements : List InstructionElement

/-- Only the first element of an instruction has an index. -/
def CodeLoop.addIndex (t : CodeLoop) (begins : Bool) : Outcome (List UInt32) :=
  if begins then addObjectReference t.indexKeys t.sectionIndex else .ok t.indexKeys

/-- What an iteration does with the element that it has read. -/
def CodeLoop.addElement (header : SectionHeader) (t : CodeLoop) (e : InstructionElement)
    (nextIsBeginning : Bool) (stream : BinaryStream) : Outcome CodeLoop := do
  let indexKeys ← t.addIndex e.isBegin
  let offsetKeys ← addObjectReference t.offsetKeys (t.stream.readPosition - header.bodyOffset)
  return {
    stream := stream
    nextIsBeginning := nextIsBeginning
    sectionIndex := if e.isBegin then t.sectionIndex + 1 else t.sectionIndex
    indexKeys := indexKeys
    offsetKeys := offsetKeys
    elements := t.elements ++ [e] }

def CodeLoop.body (st : StreamSettings) (header : SectionHeader) (t : CodeLoop) :
    Option (Outcome CodeLoop) :=
  if t.stream.readPosition < header.bodyLength + header.bodyOffset then some do
    let next ← t.stream.run (readElement st t.nextIsBeginning)
    t.addElement header next.1.1 next.1.2 next.2
  else none

def CodeLoop.start (header : SectionHeader) (indexKeys offsetKeys : List UInt32)
    (stream : BinaryStream) : CodeLoop :=
  ⟨stream.setReadPosition header.bodyOffset, true, 0, indexKeys, offsetKeys, []⟩

/-- `TPEFCodeSectionReader::readData`. -/
def readCodeData (st : StreamSettings) (header : SectionHeader) (indexKeys offsetKeys : List UInt32)
    (stream : BinaryStream) (fuel : Nat) : Option (Outcome (List InstructionElement)) :=
  if header.linkId = 0 then some (.error .assertion)
  else if header.noBits then some (.ok [])
  else (whileLoop (CodeLoop.body st header) fuel
    (.start header indexKeys offsetKeys stream)).map fun r => r.map CodeLoop.elements

end Tpef

end OpenAsip
