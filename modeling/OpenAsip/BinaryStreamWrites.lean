import OpenAsip.BigEndian
import OpenAsip.BinaryStreams
import OpenAsip.Blocks

namespace OpenAsip
set_option autoImplicit true

namespace BinaryStream
open BigEndian Reader

/-- `HOST_BIGENDIAN` and `littleEndianStorage_`. -/
structure ByteOrders where
  hostBigEndian : Bool
  littleEndianStorage : Bool
deriving DecidableEq, Repr

def ByteOrders.needsSwap (o : ByteOrders) : Bool :=
  (o.littleEndianStorage && o.hostBigEndian) || (!o.littleEndianStorage && !o.hostBigEndian)

/-- The bytes of an unsigned number in the memory of the host. -/
def hostBytes (o : ByteOrders) (size value : Nat) : List UInt8 :=
  if o.hostBigEndian then bytes size value else (bytes size value).reverse

def hostValue (o : ByteOrders) (buffer : List UInt8) : Nat :=
  if o.hostBigEndian then value buffer else value buffer.reverse

/-- A step of `Swapper::swap`. The source may be the destination. -/
def swapStep (inPlace : Bool) (src : List α) (size : Nat) (dst : List α) (i : Nat) : List α :=
  let src := if inPlace then dst else src
  match src[i]?, src[size - 1 - i]? with
  | some tmp, some b => (dst.set i b).set (size - 1 - i) tmp
  | _, _ => dst

/-- The loop runs as long as `i < size - 1 - i`. -/
def swap (inPlace : Bool) (src dst : List α) (size : Nat) : List α :=
  (List.range (size / 2)).foldl (swapStep inPlace src size) dst

/-- A file that is open for output, with the position of the next byte. -/
structure OutputFile where
  content : List UInt8
  position : Nat
deriving DecidableEq, Repr

def OutputFile.new : OutputFile := ⟨[], 0⟩

/-- The positions are kept in an `unsigned int`. -/
def putByte (f : OutputFile) (byte : UInt8) : Outcome OutputFile :=
  let writePos := f.position % 2 ^ 32
  let eofPos := f.content.length % 2 ^ 32
  if writePos > eofPos then .error (.exception .general)
  else .ok ⟨Blocks.splice writePos [byte] f.content, writePos + 1⟩

/-- `writeByteBlock`. A byte that was never set has no value. -/
def writeBuffer (f : OutputFile) : List (Option UInt8) → Outcome OutputFile
  | [] => .ok f
  | none :: _ => .error .undefined
  | some b :: buffer => do
    let f ← putByte f b
    writeBuffer f buffer

/-- `writeHalfWord` and `writeWord`, for a number of this size. -/
def writeNumber (o : ByteOrders) (size value : Nat) (f : OutputFile) : Outcome OutputFile :=
  let buffer := List.replicate size none
  writeBuffer f
    (if o.needsSwap then swap false ((hostBytes o size value).map some) buffer size else buffer)

/-- `readHalfWord` and `readWord`. -/
def readNumber (o : ByteOrders) (size : Nat) : Reader Nat := do
  let buffer ← readBytes size
  return hostValue o (if o.needsSwap then swap true buffer buffer size else buffer)

/-- What is written or read by one call. -/
inductive Item where
  | byte (b : UInt8)
  | halfWord (x : UInt16)
  | word (x : UInt32)
  | byteBlock (l : List UInt8)
  | halfWordBlock (l : List UInt16)
  | wordBlock (l : List UInt32)
deriving DecidableEq, Repr

inductive Request where
  | byte
  | halfWord
  | word
  | byteBlock (howmany : Nat)
  | halfWordBlock (howmany : Nat)
  | wordBlock (howmany : Nat)
deriving DecidableEq, Repr

def writeHalfWord (o : ByteOrders) (f : OutputFile) (x : UInt16) : Outcome OutputFile :=
  writeNumber o 2 x.toNat f

def writeWord (o : ByteOrders) (f : OutputFile) (x : UInt32) : Outcome OutputFile :=
  writeNumber o 4 x.toNat f

def write (o : ByteOrders) (f : OutputFile) : Item → Outcome OutputFile
  | .byte b => putByte f b
  | .halfWord x => writeHalfWord o f x
  | .word x => writeWord o f x
  | .byteBlock l => writeBuffer f (l.map some)
  | .halfWordBlock l => l.foldlM (writeHalfWord o) f
  | .wordBlock l => l.foldlM (writeWord o) f

def readHalfWord (o : ByteOrders) : Reader UInt16 := do
  let x ← readNumber o 2
  return UInt16.ofNat x

def readWord (o : ByteOrders) : Reader UInt32 := do
  let x ← readNumber o 4
  return UInt32.ofNat x

/-- The loops of the block reads. -/
def readBlock (p : Reader α) : Nat → Reader (List α)
  | 0 => return []
  | n + 1 => do
    let a ← p
    let rest ← readBlock p n
    return a :: rest

def read (o : ByteOrders) : Request → Reader Item
  | .byte => do return .byte (← readByte)
  | .halfWord => do return .halfWord (← readHalfWord o)
  | .word => do return .word (← readWord o)
  | .byteBlock n => do return .byteBlock (← readBlock readByte n)
  | .halfWordBlock n => do return .halfWordBlock (← readBlock (readHalfWord o) n)
  | .wordBlock n => do return .wordBlock (← readBlock (readWord o) n)

/-- Reads one after the other from a stream. -/
def readAll (o : ByteOrders) : List Request → BinaryStream → Outcome (List Item × BinaryStream)
  | [], s => .ok ([], s)
  | r :: requests, s => do
    let (item, s) ← s.run (read o r)
    let (items, s) ← readAll o requests s
    .ok (item :: items, s)

def Item.request : Item → Request
  | .byte _ => .byte
  | .halfWord _ => .halfWord
  | .word _ => .word
  | .byteBlock l => .byteBlock l.length
  | .halfWordBlock l => .halfWordBlock l.length
  | .wordBlock l => .wordBlock l.length

end BinaryStream

end OpenAsip
