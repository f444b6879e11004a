import Mathlib.Algebra.Ring.Nat
import OpenAsip.Containers
import OpenAsip.Outcomes

namespace OpenAsip
set_option autoImplicit true

namespace RISCVFields

def RISCVRTypeOperations : StdMap String Nat :=
  [("add", 0b00000000000110011), ("sub", 0b01000000000110011), ("xor", 0b00000001000110011),
    ("or", 0b00000001100110011), ("and", 0b00000001110110011), ("sll", 0b00000000010110011),
    ("srl", 0b00000001010110011), ("sra", 0b01000001010110011), ("slt", 0b00000000100110011),
    ("sltu", 0b00000000110110011), ("mul", 0b00000010000110011), ("mulh", 0b00000010010110011),
    ("mulhu", 0b00000010110110011), ("mulhsu", 0b00000010100110011),
    ("div", 0b00000011000110011), ("divu", 0b00000011010110011), ("rem", 0b00000011100110011),
    ("remu", 0b00000011110110011)]

def RISCVITypeOperations : StdMap String Nat :=
  [("addi", 0b0000010011), ("xori", 0b1000010011), ("ori", 0b1100010011),
    ("andi", 0b1110010011), ("slli", 0b00000000010010011), ("srli", 0b00000001010010011),
    ("srai", 0b01000001010010011), ("slti", 0b0100010011), ("sltiu", 0b0110010011),
    ("lb", 0b0000000011), ("lh", 0b0010000011), ("lw", 0b0100000011), ("lbu", 0b1000000011),
    ("lhu", 0b1010000011), ("jalr", 0b0001100111)]

def RISCVSTypeOperations : StdMap String Nat :=
  [("sb", 0b0000100011), ("sh", 0b0010100011), ("sw", 0b0100100011)]

def RISCVBTypeOperations : StdMap String Nat :=
  [("beq", 0b0001100011), ("bne", 0b0011100011), ("blt", 0b1001100011), ("bge", 0b1011100011),
    ("bltu", 0b1101100011), ("bgeu", 0b1111100011)]

def RISCVUTypeOperations : StdMap String Nat := [("lui", 0b0110111), ("auipc", 0b0010111)]

def RISCVJTypeOperations : StdMap String Nat := [("jal", 0b1101111)]

def RISCV_R_TYPE_NAME : String := "riscv_r_type"
def RISCV_I_TYPE_NAME : String := "riscv_i_type"
def RISCV_U_TYPE_NAME : String := "riscv_u_type"
def RISCV_S_TYPE_NAME : String := "riscv_s_type"
def RISCV_J_TYPE_NAME : String := "riscv_j_type"
def RISCV_B_TYPE_NAME : String := "riscv_b_type"
def RISCV_R3R_TYPE_NAME : String := "riscv_r3r_type"
def RISCV_R1R_TYPE_NAME : String := "riscv_r1r_type"
def RISCV_R1_TYPE_NAME : String := "riscv_r1_type"

end RISCVFields

namespace RISCVTools

def getFunc3Int (encoding : Nat) : Nat := (encoding &&& 0b1110000000) >>> 7

def getFunc7Int (encoding : Nat) : Nat := (encoding &&& 0b11111110000000000) >>> 10

def getFunc2Int (encoding : Nat) : Nat := (encoding &&& 0b11000000000000000) >>> 15

def getOpcodeInt (encoding : Nat) : Nat := encoding &&& 0b1111111

/-- The bits that `getFunc2Str` prints: `std::bitset<2>` keeps the two low bits of funct7. -/
def getFunc2StrBits (encoding : Nat) : Nat := getFunc7Int encoding % 4

/-- A field under a mask that ends `k` bits from the right and is `w` bits wide. -/
theorem masked_field (x : Nat) {m k w : Nat} (hm : m >>> k = 2 ^ w - 1) :
    (x &&& m) >>> k = x / 2 ^ k % 2 ^ w := by
  rw [Nat.shiftRight_and_distrib, hm, Nat.and_two_pow_sub_one_eq_mod, Nat.shiftRight_eq_div_pow]

theorem getOpcodeInt_eq (x : Nat) : getOpcodeInt x = x % 128 :=
  Nat.and_two_pow_sub_one_eq_mod x 7

theorem getFunc3Int_eq (x : Nat) : getFunc3Int x = x / 128 % 8 :=
  masked_field x (k := 7) (w := 3) rfl

theorem getFunc7Int_eq (x : Nat) : getFunc7Int x = x / 1024 % 128 :=
  masked_field x (k := 10) (w := 7) rfl

theorem getFunc2Int_eq (x : Nat) : getFunc2Int x = x / 32768 % 4 :=
  masked_field x (k := 15) (w := 2) rfl

end RISCVTools

/-- `TCEString::lower`. -/
def lower (s : String) : String := String.ofList (s.toList.map Char.toLower)

structure OperationTriggeredFormat where
  name : String
  operations : List String
deriving DecidableEq, Repr

structure OperationTriggeredField where
  index : Nat
  start : Nat
  width : Nat
deriving DecidableEq, Repr

structure OperationTriggeredEncoding where
  name : String
  fields : List OperationTriggeredField
deriving DecidableEq, Repr

/-- An instruction format of the binary encoding map. -/
structure InstructionFormat where
  name : String
  encodings : List OperationTriggeredEncoding
  operations : StdMap String Nat
deriving DecidableEq, Repr

def InstructionFormat.addOperation (f : InstructionFormat) (op : String) (encoding : Nat) :
    Outcome InstructionFormat :=
  if (f.operations.lookup op).isSome then .error (.exception .objectAlreadyExists)
  else .ok { f with operations := f.operations.insert op encoding }

namespace BEMGenerator
open RISCVFields

def OPC_CUSTOM_0 : Nat := 0b0001011
def OPC_CUSTOM_1 : Nat := 0b0101011

/-- The loop over the operations of a format. `encode` gives the encoding of an operation and the
number of custom operations after it, or fails an assertion. -/
def encodeOperations (encode : String → Nat → Outcome (Nat × Nat)) (operations : List String)
    (instrFormat : InstructionFormat) (amountOfRCustomOps : Nat) :
    Outcome (InstructionFormat × Nat) :=
  operations.foldlM (fun s op => do
    let r ← encode op s.2
    let instrFormat ← s.1.addOperation op r.1
    .ok (instrFormat, r.2)) (instrFormat, amountOfRCustomOps)

/-- An operation with an encoding of its own keeps it, any other one takes the next number. -/
def numberedEncoding (fixed : String → Option Nat) (customEncoding : Nat → Nat) (limit : Nat)
    (op : String) (amountOfRCustomOps : Nat) : Outcome (Nat × Nat) :=
  match fixed op with
  | some encoding => .ok (encoding, amountOfRCustomOps)
  | none =>
    if amountOfRCustomOps + 1 < limit then
      .ok (customEncoding amountOfRCustomOps, amountOfRCustomOps + 1)
    else .error .assertion

/-- The body of the loop of `BEMGenerator::funcencodeRiscv`. -/
def funcencodeRiscv (rocc : Bool) (custom_op rocc_f3 : Nat) :
    String → Nat → Outcome (Nat × Nat) :=
  numberedEncoding (fun op => RISCVRTypeOperations.lookup op)
    (fun n => if rocc then (rocc_f3 <<< 7) + custom_op + (n <<< 10) else custom_op + (n <<< 7))
    1024

/-- The operations without a result. The count is checked for `stdout` as well, which takes no
number. -/
def r1Encoding (op : String) (amountOfRCustomOps : Nat) : Outcome (Nat × Nat) :=
  let r := if lower op = "stdout" then (OPC_CUSTOM_0, amountOfRCustomOps)
    else (OPC_CUSTOM_0 + (amountOfRCustomOps <<< 7), amountOfRCustomOps + 1)
  if r.2 < 1024 then .ok r else .error .assertion

def r3rEncoding : String → Nat → Outcome (Nat × Nat) :=
  numberedEncoding (fun op => RISCVRTypeOperations.lookup op)
    (fun n => OPC_CUSTOM_1 + (n <<< 7)) 32

/-- The formats without custom operations. -/
def tableEncoding (table : StdMap String Nat) (op : String) (amountOfRCustomOps : Nat) :
    Outcome (Nat × Nat) :=
  match table.lookup op with
  | some encoding => .ok (encoding, amountOfRCustomOps)
  | none => .error .assertion

/-- The fields that `BEMGenerator::addRiscvFormat` gives a format of the name, and how it encodes
the operations. There are none for an unknown name, where it fails `assert(false)`. -/
def riscvFormat (rocc : Bool) (name : String) :
    Option (List OperationTriggeredEncoding × (String → Nat → Outcome (Nat × Nat))) :=
  if name = RISCV_R_TYPE_NAME then
    some ([⟨"rs1", [⟨0, 15, 5⟩]⟩, ⟨"rs2", [⟨0, 20, 5⟩]⟩, ⟨"rd", [⟨0, 7, 5⟩]⟩,
      ⟨"opcode", [⟨0, 0, 7⟩, ⟨1, 12, 3⟩, ⟨2, 25, 7⟩]⟩], funcencodeRiscv rocc OPC_CUSTOM_0 0b111)
  else if name = RISCV_I_TYPE_NAME then
    some ([⟨"rs1", [⟨0, 15, 5⟩]⟩, ⟨"imm", [⟨0, 25, 12⟩]⟩, ⟨"rd", [⟨0, 7, 5⟩]⟩,
      ⟨"opcode", [⟨0, 0, 7⟩, ⟨1, 12, 3⟩, ⟨2, 25, 7⟩]⟩], tableEncoding RISCVITypeOperations)
  else if name = RISCV_S_TYPE_NAME then
    some ([⟨"rs1", [⟨0, 15, 5⟩]⟩, ⟨"imm", [⟨0, 7, 5⟩, ⟨1, 25, 7⟩]⟩, ⟨"rs2", [⟨0, 20, 5⟩]⟩,
      ⟨"opcode", [⟨0, 0, 7⟩, ⟨1, 12, 3⟩]⟩], tableEncoding RISCVSTypeOperations)
  else if name = RISCV_B_TYPE_NAME then
    some ([⟨"rs1", [⟨0, 15, 5⟩]⟩,
      ⟨"imm", [⟨0, 8, 4⟩, ⟨1, 25, 6⟩, ⟨2, 11, 1⟩, ⟨3, 31, 1⟩]⟩, ⟨"rs2", [⟨0, 20, 5⟩]⟩,
      ⟨"opcode", [⟨0, 0, 7⟩, ⟨1, 12, 3⟩]⟩], tableEncoding RISCVBTypeOperations)
  else if name = RISCV_U_TYPE_NAME then
    some ([⟨"rd", [⟨0, 7, 5⟩]⟩, ⟨"opcode", [⟨0, 0, 7⟩]⟩, ⟨"imm", [⟨0, 12, 20⟩]⟩],
      tableEncoding RISCVUTypeOperations)
  else if name = RISCV_J_TYPE_NAME then
    some ([⟨"rd", [⟨0, 7, 5⟩]⟩, ⟨"opcode", [⟨0, 0, 7⟩]⟩,
      ⟨"imm", [⟨0, 20, 10⟩, ⟨1, 20, 1⟩, ⟨2, 15, 8⟩, ⟨3, 31, 1⟩]⟩],
      tableEncoding RISCVJTypeOperations)
  else if name = RISCV_R1R_TYPE_NAME then
    some ([⟨"rs1", [⟨0, 15, 5⟩]⟩, ⟨"rd", [⟨0, 7, 5⟩]⟩,
      ⟨"opcode", [⟨0, 0, 7⟩, ⟨1, 12, 3⟩, ⟨2, 25, 7⟩]⟩], funcencodeRiscv rocc OPC_CUSTOM_0 0b110)
  else if name = RISCV_R1_TYPE_NAME then
    some ([⟨"rs1", [⟨0, 15, 5⟩]⟩, ⟨"opcode", [⟨0, 0, 7⟩, ⟨1, 12, 3⟩, ⟨2, 25, 7⟩]⟩], r1Encoding)
  else if name = RISCV_R3R_TYPE_NAME then
    some ([⟨"rs1", [⟨0, 15, 5⟩]⟩, ⟨"rs2", [⟨0, 20, 5⟩]⟩, ⟨"rs3", [⟨0, 27, 5⟩]⟩,
      ⟨"rd", [⟨0, 7, 5⟩]⟩, ⟨"opcode", [⟨0, 0, 7⟩, ⟨1, 12, 3⟩, ⟨2, 25, 2⟩]⟩], r3rEncoding)
  else none

/-- `BEMGenerator::addRiscvFormat`, with the instruction formats of the map and the number of
custom operations after it. -/
def addRiscvFormat (rocc : Bool) (s : List InstructionFormat × Nat)
    (format : OperationTriggeredFormat) : Outcome (List InstructionFormat × Nat) :=
  if s.1.any (·.name = format.name) then .error (.exception .objectAlreadyExists)
  else
    match riscvFormat rocc format.name with
    | none => .error .assertion
    | some (encodings, encode) => do
      let r ← encodeOperations encode format.operations ⟨format.name, encodings, []⟩ s.2
      .ok (s.1 ++ [r.1], r.2)

/-- The operation-triggered formats at the end of `BEMGenerator::addTopLevelFields`: the first
numbers are reserved for special cases. -/
def addTopLevelFields (rocc : Bool) (formats : List OperationTriggeredFormat) :
    Outcome (List InstructionFormat) := do
  let r ← formats.foldlM (addRiscvFormat rocc) ([], 10)
  .ok r.1

end BEMGenerator

end OpenAsip
