import OpenAsip.BitMatrix
import OpenAsip.ImageRows
import OpenAsip.PagedArrays

namespace OpenAsip
set_option autoImplicit true

namespace PIG

abbrev Text := List Char

/-- The nearest integer of a quotient, on a tie the even one. -/
def roundedQuotient (a b : Nat) : Nat :=
  if b < 2 * (a % b) ∨ 2 * (a % b) = b ∧ a / b % 2 = 1 then a / b + 1 else a / b

/-- `ceil` of the quotient of two floating point numbers that are integers. The numbers have
`precision` binary places behind the first one. -/
def ceilQuotient (precision x y : Nat) : Nat :=
  if x < y then (if x = 0 then 0 else 1)
  else
    let exponent := (x / y).log2
    (roundedQuotient (x * 2 ^ precision) (y * 2 ^ exponent) * 2 ^ exponent + 2 ^ precision - 1) /
      2 ^ precision

/-- A `double` that is converted to `int`. -/
def toCInt (x : Nat) : Outcome Nat := if x < 2 ^ 31 then .ok x else .error .undefined

/-- `static_cast<int>(ceil(static_cast<double>(size) / rowLength))`. -/
def lineCount (size rowLength : Nat) : Outcome Nat :=
  toCInt (ceilQuotient 52 (toDouble size) rowLength)

def bitChar (b : Bool) : Char := if b then '1' else '0'

/-- The loop of `AsciiImageWriter::writeImage` from a bit on, which is written into a column. -/
def asciiRows (rowLength : Nat) : List Bool → Nat → Text
  | [], _ => []
  | [b], column => bitChar b :: List.replicate (rowLength - (column + 1)) '0'
  | b :: next :: rest, column =>
    if column + 1 = rowLength then bitChar b :: '\n' :: asciiRows rowLength (next :: rest) 0
    else bitChar b :: asciiRows rowLength (next :: rest) (column + 1)

/-- `AsciiImageWriter::writeImage`. -/
def asciiImage (bits : List Bool) (rowLength : Nat) : Outcome Text :=
  .ok (asciiRows rowLength bits 0)

/-- The indexes are of the type `unsigned int`. With the last one of its numbers as last index the
loop does not end. -/
def writeSequence (bits : List Bool) (nextBitIndex length : Nat) (padEnd : Bool) :
    Outcome (Text × Nat) :=
  let lastIndex := (nextBitIndex + length + 2 ^ 32 - 1) % 2 ^ 32
  if bits.length ≤ lastIndex ∧ padEnd = false then .error (.exception .outOfRange)
  else if lastIndex = 2 ^ 32 - 1 then .error .undefined
  else
    .ok ((List.range' nextBitIndex (lastIndex + 1 - nextBitIndex)).map fun index =>
      bitChar (bits[index]?.getD false), lastIndex + 1)

/-- The bits are read without a check when `padEnd` is set. The number of bits of the padded row is
an `int`, and they are read by fours. -/
def writeHexSequence (bits : List Bool) (nextBitIndex length : Nat) (padEnd : Bool) :
    Outcome (Text × Nat) :=
  let lastIndex := (nextBitIndex + length + 2 ^ 32 - 1) % 2 ^ 32
  if bits.length ≤ lastIndex ∧ padEnd = false then .error (.exception .outOfRange)
  else if bits.length ≤ lastIndex ∨ lastIndex = 2 ^ 32 - 1 then .error .undefined
  else
    let nibbleCount := (length + 3) / 4
    if 2 ^ 31 ≤ 4 * nibbleCount then .error .undefined
    else
      let bitRow := List.replicate (4 * nibbleCount - length) false ++
        (bits.drop nextBitIndex).take (lastIndex + 1 - nextBitIndex)
      if bitRow.length % 4 ≠ 0 then .error .undefined
      else
        let nibbles := (rowsOf 4 (bitRow.length / 4) bitRow).map binaryValue
        .ok (nibbles.map Nat.digitChar, (nextBitIndex + length) % 2 ^ 32)

/-- Rows that are written one after the other, with what stands before and behind them. -/
def writeRows (write : Nat → Outcome (List α × Nat)) (line : Nat → List α → List α) :
    Nat → Nat → Nat → Outcome (List α × Nat)
  | 0, _, nextBitIndex => .ok ([], nextBitIndex)
  | count + 1, address, nextBitIndex => do
    let (row, nextBitIndex) ← write nextBitIndex
    let (rest, nextBitIndex) ← writeRows write line count (address + 1) nextBitIndex
    .ok (line address row ++ rest, nextBitIndex)

/-- `ArrayImageWriter::writeImage`. -/
def arrayImage (bits : List Bool) (rowLength : Nat) : Outcome Text := do
  let lineCount ← lineCount bits.length rowLength
  let (lines, nextBitIndex) ← writeRows (writeSequence bits · rowLength false)
    (fun _ row => ['"'] ++ row ++ ['"', ',', '\n']) (lineCount - 1) 0 0
  let (last, _) ← writeSequence bits nextBitIndex rowLength true
  .ok (lines ++ (['"'] ++ last ++ ['"']))

def coeHeader : Text :=
  ("; Created by generatebits\n" ++ "memory_initialization_radix=2;\n" ++
    "memory_initialization_vector=\n").toList

/-- `CoeImageWriter::writeImage`. -/
def coeImage (bits : List Bool) (rowLength : Nat) : Outcome Text := do
  let lineCount ← lineCount bits.length rowLength
  if lineCount = 0 then
    .ok (coeHeader ++ (List.replicate rowLength '0' ++ [';', '\n']))
  else do
    let (lines, nextBitIndex) ← writeRows (writeSequence bits · rowLength false)
      (fun _ row => row ++ [',', '\n']) (lineCount - 1) 0 0
    let (last, _) ← writeSequence bits nextBitIndex rowLength true
    .ok (coeHeader ++ (lines ++ last ++ [';', '\n']))

/-- `static_cast<int>(ceil((float)size / rowLength))`. -/
def mifWordCount (size rowLength : Nat) : Nat := ceilQuotient 23 (toFloat size) (toFloat rowLength)

namespace Mif

def comment : Text := "-- Memory initialization file".toList

def width : Text := "WIDTH = ".toList

def depth : Text := "DEPTH = ".toList

def aRadix : Text := "ADDRESS_RADIX = DEC;".toList

def dRadix : Text := "DATA_RADIX = BIN;".toList

def contentBegin : Text := "CONTENT BEGIN".toList

def contentEnd : Text := "END;".toList

def indent : Text := "   ".toList

end Mif

open Mif

/-- `MifImageWriter::writeHeader` with the depth it has computed. -/
def mifHeader (rowLength wordCount : Nat) : Text :=
  (comment ++ ['\n']) ++ (width ++ Nat.toDigits 10 rowLength ++ [';', '\n']) ++
    (depth ++ Nat.toDigits 10 wordCount ++ [';', '\n']) ++ (aRadix ++ ['\n']) ++
    (dRadix ++ ['\n', '\n']) ++ (contentBegin ++ ['\n'])

def mifLine (address : Nat) (row : Text) : Text :=
  Nat.toDigits 10 address ++ indent ++ [':'] ++ indent ++ row ++ [';', '\n']

/-- `MifImageWriter::writeImage`. -/
def mifImage (bits : List Bool) (rowLength : Nat) : Outcome Text := do
  let wordCount ← toCInt (mifWordCount bits.length rowLength)
  if wordCount = 0 then
    .ok (mifHeader rowLength 1 ++ (mifLine 0 (List.replicate rowLength '0') ++
      (contentEnd ++ ['\n'])))
  else do
    let (lines, nextBitIndex) ← writeRows (writeSequence bits · rowLength false) mifLine
      (wordCount - 1) 0 0
    let (last, _) ← writeSequence bits nextBitIndex rowLength true
    .ok (mifHeader rowLength wordCount ++ (lines ++ mifLine (wordCount - 1) last ++
      (contentEnd ++ ['\n'])))

/-- `HexImageWriter::writeImage`. The quotient by 4 is that of integers. -/
def hexImage (bits : List Bool) (rowLength : Nat) : Outcome Text := do
  let lineCount ← lineCount bits.length rowLength
  if lineCount = 0 then .ok (List.leftpad (rowLength / 4) '0' ['0'] ++ ['\n'])
  else do
    let (lines, _) ← writeRows (writeHexSequence bits · rowLength false)
      (fun _ row => row ++ ['\n']) lineCount 0 0
    .ok lines

/-- `Bin2nImageWriter::character`. The first bit is read without a check. -/
def character (bits : List Bool) (startIndex length : Nat) : Outcome Nat :=
  match bits[startIndex]? with
  | none => .error .undefined
  | some first =>
    .ok ((List.range' 1 (length - 1)).foldl
      (fun character i => 2 * character % 2 ^ 8 + (bits[startIndex + i]?.getD false).toNat)
      (if first && decide (0 < length) then 1 else 0))

/-- The loop of `nextPowerOf2`, which ends after at most 31 rounds for the numbers of `int`. -/
def doubled (n : Nat) : Nat → Nat → Nat
  | 0, p => p
  | rounds + 1, p => if p < n then doubled n rounds (2 * p) else p

def nextPowerOf2 (n : Nat) : Nat := if n &&& (n - 1) = 0 then n else doubled n 31 1

/-- The number of bytes that are put before a row so that its width is a power of 2. -/
def zeroBytes (length : Nat) : Nat := (nextPowerOf2 length + 2 ^ 32 - length) % 2 ^ 32 / 8

/-- `Bin2nImageWriter::writeSequence`. All indexes are below the size, which is an
`unsigned int`. -/
def bin2nSequence (bits : List Bool) (nextBitIndex length : Nat) : Outcome (List Nat × Nat) :=
  if length = 0 then .ok ([], nextBitIndex)
  else do
    let lastIndex := nextBitIndex + length - 1
    let zeros := List.replicate (zeroBytes length) 0
    let partialCharLen := length % 8
    let partialChar ← if partialCharLen ≠ 0 then do
        let c ← character bits nextBitIndex partialCharLen
        .ok [c]
      else .ok []
    let start := nextBitIndex + partialCharLen
    let full ← (List.range ((lastIndex + 8 - start) / 8)).mapM fun i =>
      character bits (start + 8 * i) 8
    .ok ((zeros ++ partialChar ++ full).reverse, lastIndex + 1)

/-- `Bin2nImageWriter::writeImage`. The size is an `unsigned int`. -/
def bin2nImage (bits : List Bool) (rowLength : Nat) : Outcome (List Nat) := do
  let (bytes, _) ← writeRows (bin2nSequence bits · rowLength) (fun _ row => row)
    (bits.length % 2 ^ 32 / rowLength) 0 0
  .ok bytes

end PIG

end OpenAsip
