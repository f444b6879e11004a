import OpenAsip.PagedArrays

namespace OpenAsip
set_option autoImplicit true

namespace Memory

/-- What the constructor of `Memory` is given. It rejects MAUs wider than a `Word`. -/
structure Settings where
  start : Nat
  stop : Nat
  MAUSize : Nat
  littleEndian : Bool
  start_lt : start < 2 ^ 64
  stop_lt : stop < 2 ^ 64
  MAUSize_pos : 0 < MAUSize
  MAUSize_le : MAUSize ≤ 32

/-- Which of the two functions of a pair is called: the one that follows the memory, the one for big
endian or the one for little endian. -/
inductive ByteOrder where
  | own
  | big
  | little
deriving DecidableEq, Repr

def ByteOrder.isLittle (c : Settings) : ByteOrder → Bool
  | .own => c.littleEndian
  | .big => false
  | .little => true

/-- An uncommitted write. -/
structure WriteRequest where
  data : List Nat
  address : Nat
deriving DecidableEq, Repr

/-- The size of a page of `MemoryContents`. -/
abbrev memChunkSize := 1024

instance instNeZeroMemChunkSize : NeZero memChunkSize := ⟨by decide⟩

/-- The state of an `IdealSRAM`. -/
structure SRAM where
  contents : PagedArray Nat memChunkSize
  writeRequests : List WriteRequest

def maxAccessSize := 64

/-- `mask_`, converted to the type of a `ULongWord`. -/
def mask (c : Settings) : Nat := if c.MAUSize = 32 then 2 ^ 64 - 1 else 2 ^ c.MAUSize - 1

/-- A right shift of an unsigned value of the given width. -/
def shiftRight (width value : Nat) (shiftCount : Int) : Outcome Nat :=
  if 0 ≤ shiftCount ∧ shiftCount < width then .ok (value >>> shiftCount.toNat)
  else .error .undefined

def shiftLeft (width value : Nat) (shiftCount : Int) : Outcome Nat :=
  if 0 ≤ shiftCount ∧ shiftCount < width then .ok ((value <<< shiftCount.toNat) % 2 ^ width)
  else .error .undefined

/-- `checkRange`. The bounds are kept in an `unsigned int`. -/
def checkRange (c : Settings) (startAddress numberOfMAUs : Nat) : Outcome Unit :=
  let low := c.start % 2 ^ 32
  let high := c.stop % 2 ^ 32
  if startAddress < low ∨ startAddress > (high + 2 ^ 32 - numberOfMAUs % 2 ^ 32 + 1) % 2 ^ 32 then
    .error (.exception .outOfRange)
  else .ok ()

/-- The loop of `unpackBE` and `unpackLE`, which differ in where the shift count starts and how it
goes on. -/
def unpackLoop (c : Settings) (value : Nat) (increment : Int) : Nat → Int → Outcome (List Nat)
  | 0, _ => .ok []
  | size + 1, shiftCount => do
    let shifted ← shiftRight 64 value shiftCount
    let rest ← unpackLoop c value increment size (shiftCount + increment)
    return (shifted &&& mask c) % 2 ^ 32 :: rest

def unpackBE (c : Settings) (value size : Nat) : Outcome (List Nat) :=
  unpackLoop c value (-c.MAUSize) size (c.MAUSize * (size - 1))

def unpackLE (c : Settings) (value size : Nat) : Outcome (List Nat) :=
  unpackLoop c value c.MAUSize size 0

def writeUnpacked (c : Settings) (m : SRAM) (address count : Nat)
    (unpacked : Outcome (List Nat)) : Outcome SRAM := do
  checkRange c address count
  if maxAccessSize < count then .error .undefined
  else do
    let data ← unpacked
    return { m with writeRequests := m.writeRequests ++ [⟨data, address % 2 ^ 32⟩] }

def writeBE (c : Settings) (m : SRAM) (address count data : Nat) : Outcome SRAM :=
  writeUnpacked c m address count (unpackBE c data count)

def writeLE (c : Settings) (m : SRAM) (address count data : Nat) : Outcome SRAM :=
  writeUnpacked c m address count (unpackLE c data count)

def write (c : Settings) (m : SRAM) (address count data : Nat) : Outcome SRAM :=
  if c.littleEndian then writeLE c m address count data else writeBE c m address count data

/-- The index of an address in the contents. The index is a `uint32_t`. -/
def index (c : Settings) (address : Nat) : Nat := (address + (2 ^ 64 - c.start)) % 2 ^ 64 % 2 ^ 32

/-- `IdealSRAM::read`. -/
def readMAU (c : Settings) (m : SRAM) (address : Nat) : Outcome Nat :=
  m.contents.readData 0 (index c address)

/-- The loop of `readBE` and `readLE`. The first one shifts a `MAU`, the second one a `ULongWord`,
so they differ also in the width of the shifted type. -/
def readLoop (c : Settings) (m : SRAM) (width : Nat) (increment : Int) :
    Nat → Nat → Int → Nat → Outcome Nat
  | 0, _, _, data => .ok data
  | size + 1, address, shiftCount, data => do
    let mau ← readMAU c m address
    let shifted ← shiftLeft width mau shiftCount
    readLoop c m width increment size (address + 1) (shiftCount + increment) (data ||| shifted)

def readBE (c : Settings) (m : SRAM) (address size : Nat) : Outcome Nat := do
  checkRange c address size
  readLoop c m 32 (-c.MAUSize) size address (c.MAUSize * (size - 1)) 0

def readLE (c : Settings) (m : SRAM) (address size : Nat) : Outcome Nat := do
  checkRange c address size
  readLoop c m 64 c.MAUSize size address 0 0

def read (c : Settings) (m : SRAM) (address size : Nat) : Outcome Nat :=
  if c.littleEndian then readLE c m address size else readBE c m address size

/-- The inner loop of `advanceClock`. The address of a request is a `Word`. -/
def commit (c : Settings) : List Nat → Nat → PagedArray Nat memChunkSize →
    Outcome (PagedArray Nat memChunkSize)
  | [], _, contents => .ok contents
  | d :: data, address, contents => do
    let contents ← contents.writeData (index c (address % 2 ^ 32)) d
    commit c data (address + 1) contents

def advanceClock (c : Settings) (m : SRAM) : Outcome SRAM := do
  let contents ← m.writeRequests.foldlM (fun contents r => commit c r.data r.address contents)
    m.contents
  return ⟨contents, []⟩

/-- The page table is made for one element less than there are addresses. -/
def new (c : Settings) : SRAM :=
  ⟨PagedArray.new ((c.stop + (2 ^ 64 - c.start)) % 2 ^ 64), []⟩

inductive Operation where
  | write (order : ByteOrder) (address count data : Nat)
  | read (order : ByteOrder) (address size : Nat)
  | advanceClock
deriving DecidableEq, Repr

def writeIn (c : Settings) (m : SRAM) : ByteOrder → Nat → Nat → Nat → Outcome SRAM
  | .own => write c m
  | .big => writeBE c m
  | .little => writeLE c m

def readIn (c : Settings) (m : SRAM) : ByteOrder → Nat → Nat → Outcome Nat
  | .own => read c m
  | .big => readBE c m
  | .little => readLE c m

def step (c : Settings) (m : SRAM) : Operation → Outcome SRAM
  | .write order address count data => writeIn c m order address count data
  | .read order address size => do
    let _ ← readIn c m order address size
    return m
  | .advanceClock => advanceClock c m

end Memory

end OpenAsip
