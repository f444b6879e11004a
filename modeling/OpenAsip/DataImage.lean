import Mathlib.Algebra.Ring.Int.Defs
import OpenAsip.BitVectors

namespace OpenAsip
set_option autoImplicit true

namespace DataImage
open BitVector

/-- The location of a relocation is known if it is a chunk, and its destination if it is an
instruction element. -/
structure RelocElement where
  location : Option Nat
  destination : Option Nat
deriving DecidableEq, Repr

structure RelocSection where
  referencedSection : Nat
  elements : List RelocElement
deriving DecidableEq, Repr

/-- A data section, with a number that identifies it. -/
structure DataSection where
  ident : Nat
  aSpace : String
  startingAddress : UInt32
  data : List UInt8
deriving DecidableEq, Repr

/-- The sections of a binary that the data image is made of, by their types. -/
structure Binary where
  dataSections : List DataSection
  leDataSections : List DataSection
  relocSections : List RelocSection
deriving DecidableEq, Repr

/-- The address space, the line, the start address that the user has set for the address space, and
what the compressor knows: the byte order of the machine and the addresses of the instructions. -/
structure Settings where
  addressSpace : String
  width : Nat
  mausPerLine : Int
  dataStart : Option Nat
  isLittleEndian : Bool
  memoryAddress : Nat → Option UInt32

def DataSection.length (s : DataSection) : Nat := s.data.length % 2 ^ 32

def DataSection.byte (s : DataSection) (offset : Nat) : Outcome UInt8 :=
  match s.data[offset]? with
  | some b => .ok b
  | none => .error .undefined

/-- The destination of the first relocation at the offset. -/
def locate (offset : Nat) : List RelocElement → Outcome (Option (Option Nat))
  | [] => .ok none
  | e :: elements =>
    match e.location with
    | none => .error .assertion
    | some location =>
      if location = offset then .ok (some e.destination) else locate offset elements

def relocTarget (s : DataSection) (offset : Nat) : List RelocSection → Outcome (Option Nat)
  | [] => .ok none
  | r :: relocSections =>
    if r.referencedSection = s.ident then do
      match ← locate offset r.elements with
      | some destination => return destination
      | none => relocTarget s offset relocSections
    else relocTarget s offset relocSections

def byteSwap (num : UInt32) : UInt32 :=
  (num >>> 24 &&& (0xff : UInt32)) ||| (num <<< 8 &&& (0xff0000 : UInt32)) |||
    (num >>> 8 &&& (0xff00 : UInt32)) ||| (num <<< 24 &&& (0xff000000 : UInt32))

/-- The loop of `writeDataSection`. A relocated word takes four bytes. -/
def writeData (c : Settings) (relocSections : List RelocSection) (s : DataSection) :
    Nat → Nat → List Bool → Outcome (List Bool)
  | 0, _, dataBits => .ok dataBits
  | n + 1, offset, dataBits =>
    if offset < s.length then do
      match ← relocTarget s offset relocSections with
      | some target =>
        match c.memoryAddress target with
        | none => .error (.exception .invalidData)
        | some memAddress => do
          let word := if c.isLittleEndian then byteSwap memAddress else memAddress
          let dataBits ← pushBack dataBits word.toNat 32
          writeData c relocSections s n (offset + 4) dataBits
      | none => do
        let byte ← s.byte offset
        let dataBits ← pushBack dataBits byte.toNat 8
        writeData c relocSections s n (offset + 1) dataBits
    else .ok dataBits

def fillZeros : Nat → List Bool → Outcome (List Bool)
  | 0, dataBits => .ok dataBits
  | n + 1, dataBits => do
    let dataBits ← pushBack dataBits 0 8
    fillZeros n dataBits

/-- Where the zeros before a section begin. The variable is an `unsigned int`. -/
def zeroFillStart (c : Settings) (dataBits : List Bool) : Nat :=
  match c.dataStart with
  | some start => if dataBits = [] then start % 2 ^ 32 else dataBits.length / 8 % 2 ^ 32
  | none => dataBits.length / 8 % 2 ^ 32

def writeDataSection (c : Settings) (relocSections : List RelocSection) (dataBits : List Bool)
    (s : DataSection) : Outcome (List Bool) :=
  if s.aSpace = c.addressSpace then do
    let start := zeroFillStart c dataBits
    let dataBits ← fillZeros (s.startingAddress.toNat - start) dataBits
    if s.startingAddress.toNat < start then .error (.exception .invalidData)
    else writeData c relocSections s s.length 0 dataBits
  else .ok dataBits

/-- The elements of a bit vector are accessed without a check. -/
def swapBits (dataBits : List Bool) (i j : Nat) : Outcome (List Bool) :=
  match dataBits[i]?, dataBits[j]? with
  | some bit0, some bit1 => .ok ((dataBits.set i bit1).set j bit0)
  | _, _ => .error .undefined

/-- The bits of two MAUs are swapped from the given positions on, which are of type
`unsigned int`. -/
def swapMAUs : Nat → Nat → Nat → List Bool → Outcome (List Bool)
  | 0, _, _, dataBits => .ok dataBits
  | n + 1, first, second, dataBits => do
    let dataBits ← swapBits dataBits (first % 2 ^ 32) (second % 2 ^ 32)
    swapMAUs n (first + 1) (second + 1) dataBits

/-- The MAUs of a line are swapped from the ends to the middle. -/
def reverseLine (width mausPerLine lineOffset : Nat) : Nat → Nat → List Bool → Outcome (List Bool)
  | 0, _, dataBits => .ok dataBits
  | n + 1, k, dataBits => do
    let dataBits ← swapMAUs width (lineOffset + k * width)
      (lineOffset + (mausPerLine - k - 1) * width) dataBits
    reverseLine width mausPerLine lineOffset n (k + 1) dataBits

/-- The last line is padded. The size is a `size_t`, also where the line is subtracted from it, and
the padded size is an `unsigned int`. -/
def padLine (memWidth lineOffset : Nat) (dataBits : List Bool) : List Bool :=
  if dataBits.length % memWidth ≠ 0 ∧ (dataBits.length + 2 ^ 64 - memWidth) % 2 ^ 64 < lineOffset then
    dataBits ++ List.replicate
      ((dataBits.length / memWidth + 1) * memWidth % 2 ^ 32 - dataBits.length) false
  else dataBits

/-- The loop over the lines of a section. `lineOffset` is an `unsigned int`, so a loop that has not
ended after this many iterations does not end. -/
def reverseLines (width mausPerLine : Nat) : Nat → Nat → List Bool → Outcome (List Bool)
  | 0, _, _ => .error .undefined
  | n + 1, lineOffset, dataBits =>
    if lineOffset < dataBits.length then do
      let dataBits := padLine (mausPerLine * width) lineOffset dataBits
      let dataBits ← reverseLine width mausPerLine lineOffset (mausPerLine / 2) 0 dataBits
      reverseLines width mausPerLine n ((lineOffset + mausPerLine * width) % 2 ^ 32) dataBits
    else .ok dataBits

/-- A little-endian section is written and its lines are reversed. -/
def writeLEDataSection (c : Settings) (relocSections : List RelocSection) (dataBits : List Bool)
    (s : DataSection) : Outcome (List Bool) := do
  let lineOffset := dataBits.length % 2 ^ 32
  let dataBits ← writeDataSection c relocSections dataBits s
  reverseLines c.width c.mausPerLine.toNat (2 ^ 33) lineOffset dataBits

/-- `generateDataImage` up to the writer of the output format: the bits of the image. The width of
a line is an `int`. -/
def generateDataImage (c : Settings) (b : Binary) : Outcome (List Bool) := do
  if c.mausPerLine < 1 then .error (.exception .outOfRange)
  else if 2 ^ 31 ≤ c.mausPerLine * c.width then .error .undefined
  else do
    let dataBits ← b.dataSections.foldlM (writeDataSection c b.relocSections) []
    b.leDataSections.foldlM (writeLEDataSection c b.relocSections) dataBits

end DataImage

end OpenAsip
