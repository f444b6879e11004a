import OpenAsip.Memory

namespace OpenAsip
set_option autoImplicit true

namespace DirectAccessMemory
open Memory

/-- The index of an address in the contents. `start_` is a `Word` here. -/
def index (c : Settings) (address : Nat) : Nat :=
  (address + (2 ^ 64 - c.start % 2 ^ 32)) % 2 ^ 64 % 2 ^ 32

def mask (c : Settings) : Nat := if 32 ≤ c.MAUSize then 2 ^ 32 - 1 else 2 ^ c.MAUSize - 1

def new (c : Settings) : SRAM :=
  ⟨PagedArray.new ((c.stop % 2 ^ 32 + 2 ^ 32 - c.start % 2 ^ 32) % 2 ^ 32), []⟩

/-- A write of the lowest bits of a value at an index, which is a `Word`. -/
def writeData (c : Settings) (m : SRAM) (index value : Nat) : Outcome SRAM := do
  let contents ← m.contents.writeData (index % 2 ^ 32) (value &&& mask c)
  return { m with contents := contents }

def fastWriteMAU (c : Settings) (m : SRAM) (address data : Nat) : Outcome SRAM :=
  writeData c m (index c address) data

/-- The writes of a `fastWrite` function, which are given by the offsets of the MAUs and the shifts
of the data. -/
def fastWrite (c : Settings) (m : SRAM) (address data : Nat) (parts : List (Nat × Nat)) :
    Outcome SRAM :=
  parts.foldlM (fun m part => do
    let shifted ← shiftRight 64 data part.2
    writeData c m (index c address + part.1) shifted) m

def fastWrite2MAUsBE (c : Settings) (m : SRAM) (address data : Nat) : Outcome SRAM :=
  fastWrite c m address data [(0, c.MAUSize), (1, 0)]

def fastWrite2MAUsLE (c : Settings) (m : SRAM) (address data : Nat) : Outcome SRAM :=
  fastWrite c m address data [(1, c.MAUSize), (0, 0)]

def fastWrite4MAUsBE (c : Settings) (m : SRAM) (address data : Nat) : Outcome SRAM :=
  fastWrite c m address data [(0, c.MAUSize * 3), (1, c.MAUSize * 2), (2, c.MAUSize), (3, 0)]

def fastWrite4MAUsLE (c : Settings) (m : SRAM) (address data : Nat) : Outcome SRAM :=
  fastWrite c m address data [(3, c.MAUSize * 3), (2, c.MAUSize * 2), (1, c.MAUSize), (0, 0)]

def fastReadMAU (c : Settings) (m : SRAM) (address : Nat) : Outcome Nat :=
  m.contents.readData 0 (index c address)

/-- The reads of a `fastRead` function, by the offsets and the shifts. A `MAU` is shifted. -/
def fastRead (c : Settings) (m : SRAM) (address : Nat) (parts : List (Nat × Nat)) : Outcome Nat :=
  parts.foldlM (fun data part => do
    let mau ← m.contents.readData 0 ((index c address + part.1) % 2 ^ 32)
    let shifted ← shiftLeft 32 mau part.2
    return data ||| shifted) 0

def fastRead2MAUsBE (c : Settings) (m : SRAM) (address : Nat) : Outcome Nat :=
  fastRead c m address [(0, c.MAUSize), (1, 0)]

def fastRead2MAUsLE (c : Settings) (m : SRAM) (address : Nat) : Outcome Nat :=
  fastRead c m address [(1, c.MAUSize), (0, 0)]

def fastRead4MAUsBE (c : Settings) (m : SRAM) (address : Nat) : Outcome Nat :=
  fastRead c m address [(0, c.MAUSize * 3), (1, c.MAUSize * 2), (2, c.MAUSize), (3, 0)]

def fastRead4MAUsLE (c : Settings) (m : SRAM) (address : Nat) : Outcome Nat :=
  fastRead c m address [(3, c.MAUSize * 3), (2, c.MAUSize * 2), (1, c.MAUSize), (0, 0)]

/-- `read` of a single MAU. -/
def readMAU (c : Settings) (m : SRAM) (address : Nat) : Outcome Nat := fastReadMAU c m address

/-- `write` of a single MAU. -/
def writeMAU (c : Settings) (m : SRAM) (address data : Nat) : Outcome SRAM :=
  fastWriteMAU c m address data

/-- The reads that `Memory` defines go through `read`, which reads what `IdealSRAM` reads. -/
theorem readMAU_eq (c : Settings) (m : SRAM) (address : Nat) :
    readMAU c m address = Memory.readMAU c m address := by
  have hindex : index c address = Memory.index c address := by
    have hlt := c.start_lt
    rw [index, Memory.index]
    omega
  rw [readMAU, fastReadMAU, hindex, Memory.readMAU]

/-- The inner loop of `Memory::advanceClock`, with `write` as it is overridden. -/
def commit (c : Settings) (m : SRAM) : List Nat → Nat → Outcome SRAM
  | [], _ => .ok m
  | d :: data, address => do
    let m ← writeMAU c m (address % 2 ^ 32) d
    commit c m data (address + 1)

/-- `Memory::advanceClock`, which `advanceClock` itself does not call. -/
def flush (c : Settings) (m : SRAM) : Outcome SRAM := do
  let m ← m.writeRequests.foldlM (fun m r => commit c m r.data r.address) m
  return { m with writeRequests := [] }

def writeBE (c : Settings) (m : SRAM) (address count data : Nat) : Outcome SRAM := do
  let m ← Memory.writeBE c m address count data
  flush c m

/-- The write functions with a size. That of `Memory` for little endian is not overridden. -/
def writeIn (c : Settings) (m : SRAM) (order : ByteOrder) (address count data : Nat) :
    Outcome SRAM :=
  if order.isLittle c then Memory.writeLE c m address count data
  else writeBE c m address count data

/-- The bytes of a floating point number from its bit pattern, from the lowest address on. -/
def floatBytes (little : Bool) (count bits : Nat) : List Nat :=
  (List.range count).map fun i => bits >>> (8 * (if little then i else count - 1 - i)) % 2 ^ 8

/-- `Memory::writeBE` and `writeLE` of a `FloatWord` or a `DoubleWord`, by its bit pattern. -/
def writeFloat (c : Settings) (m : SRAM) (little : Bool) (address count bits : Nat) :
    Outcome SRAM :=
  if c.MAUSize = 8 then do
    checkRange c address count
    return { m with
      writeRequests := m.writeRequests ++ [⟨floatBytes little count bits, address % 2 ^ 32⟩] }
  else .error .assertion

/-- `Memory::read` of units of data. -/
def readIn (c : Settings) (m : SRAM) (order : ByteOrder) (address size : Nat) : Outcome Nat :=
  Memory.readIn c m order address size

/-- The loop of `readBE` and `readLE` for floating point numbers, with the place of each byte. -/
def readBytes (c : Settings) (m : SRAM) (order : ByteOrder) (address : Nat) (places : List Nat) :
    Outcome Nat :=
  match places with
  | [] => .ok 0
  | place :: places => do
    let data ← Memory.readIn c m order address 1
    let rest ← readBytes c m order (address + 1) places
    return (data % 2 ^ 8) <<< (8 * place) ||| rest

/-- The places of the bytes in the bit pattern. -/
def places (little : Bool) (count : Nat) : List Nat :=
  (List.range count).map fun i => if little then i else count - 1 - i

/-- `Memory::readBE` and `readLE` of a `FloatWord`, as its bit pattern. -/
def readFloat (c : Settings) (m : SRAM) (little : Bool) (address : Nat) : Outcome Nat :=
  if c.MAUSize = 8 then do
    checkRange c address 4
    readBytes c m (if little then .little else .big) address (places little 4)
  else .error .assertion

/-- The same for a `DoubleWord`. The range is not checked as a whole. -/
def readDouble (c : Settings) (m : SRAM) (little : Bool) (address : Nat) : Outcome Nat :=
  if c.MAUSize = 8 then
    readBytes c m (if little then .little else .big) address (places little 8)
  else .error .assertion

/-- The accesses. Floating point numbers are given by their bit patterns, and `fast` accesses by
their size, which is 1, 2 or 4. -/
inductive Write where
  | single (address data : Nat)
  | sized (order : ByteOrder) (address count data : Nat)
  | float (order : ByteOrder) (address bits : Nat)
  | double (order : ByteOrder) (address bits : Nat)
  | fast1 (address data : Nat)
  | fast2 (little : Bool) (address data : Nat)
  | fast4 (little : Bool) (address data : Nat)
deriving DecidableEq, Repr

inductive Read where
  | single (address : Nat)
  | sized (order : ByteOrder) (address size : Nat)
  | float (order : ByteOrder) (address : Nat)
  | double (order : ByteOrder) (address : Nat)
  | fast1 (address : Nat)
  | fast2 (little : Bool) (address : Nat)
  | fast4 (little : Bool) (address : Nat)
deriving DecidableEq, Repr

inductive Access where
  | write (w : Write)
  | read (r : Read)
  | advanceClock
deriving DecidableEq, Repr

def write (c : Settings) (m : SRAM) : Write → Outcome SRAM
  | .single address data => writeMAU c m address data
  | .sized order address count data => writeIn c m order address count data
  | .float order address bits => writeFloat c m (order.isLittle c) address 4 bits
  | .double order address bits => writeFloat c m (order.isLittle c) address 8 bits
  | .fast1 address data => fastWriteMAU c m address data
  | .fast2 little address data =>
    if little then fastWrite2MAUsLE c m address data else fastWrite2MAUsBE c m address data
  | .fast4 little address data =>
    if little then fastWrite4MAUsLE c m address data else fastWrite4MAUsBE c m address data

def read (c : Settings) (m : SRAM) : Read → Outcome Nat
  | .single address => readMAU c m address
  | .sized order address size => readIn c m order address size
  | .float order address => readFloat c m (order.isLittle c) address
  | .double order address => readDouble c m (order.isLittle c) address
  | .fast1 address => fastReadMAU c m address
  | .fast2 little address =>
    if little then fastRead2MAUsLE c m address else fastRead2MAUsBE c m address
  | .fast4 little address =>
    if little then fastRead4MAUsLE c m address else fastRead4MAUsBE c m address

/-- One access. `advanceClock` is empty. -/
def step (c : Settings) (m : SRAM) : Access → Outcome SRAM
  | .write w => write c m w
  | .read r => do
    let _ ← read c m r
    return m
  | .advanceClock => .ok m

end DirectAccessMemory

end OpenAsip
