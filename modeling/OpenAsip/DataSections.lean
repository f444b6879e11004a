import OpenAsip.BigEndian
import OpenAsip.Blocks
import OpenAsip.InstructionTemplates

namespace OpenAsip
set_option autoImplicit true

namespace Tpef

/-- `MAUsToBytes(1)`. -/
def mauInBytes (mau : Nat) : Nat := (mau + 7) / 8

/-- The bytes of a section are counted by a `Word` and make up whole MAUs. -/
structure DataSection where
  /-- `aSpace()->MAU()` -/
  mau : Nat
  data : List UInt8
  mau_pos : 0 < mau
  mau_le : mau ≤ 32
  length_lt : data.length < 2 ^ 32
  aligned : mauInBytes mau ∣ data.length

inductive DataSectionType where
  | data
  | ledata
deriving DecidableEq, Repr

namespace DataSection

def lengthInMAUs (d : DataSection) : Nat := d.data.length / mauInBytes d.mau

/-- `byteOffset + j`, where `byteOffset` is an `int` made of `MAUsToBytes(index)`. -/
def byteOffset (mau index j : Nat) : Outcome Nat :=
  let byteOffset := (BitVec.ofNat 32 (index * mauInBytes mau)).toInt + j
  if byteOffset < 2 ^ 31 then .ok (byteOffset % 2 ^ 32).toNat else .error .undefined

def byte (d : DataSection) (offset : Nat) : Outcome UInt8 :=
  match d.data[offset]? with
  | some b => .ok b
  | none => .error .undefined

def setByte (d : DataSection) (offset : Nat) (aByte : UInt8) : Outcome DataSection :=
  if offset ≥ d.data.length then .error .assertion
  else .ok { d with
    data := d.data.set offset aByte
    length_lt := by rw [List.length_set]; exact d.length_lt
    aligned := by rw [List.length_set]; exact d.aligned }

/-- The loop of `MAU` with the number of bytes that are left. -/
def mauLoop (d : DataSection) (index : Nat) : Nat → Nat → Nat → Outcome Nat
  | 0, _, retVal => .ok retVal
  | n + 1, i, retVal => do
    let offset ← byteOffset d.mau index i
    let b ← d.byte offset
    mauLoop d index n (i + 1) (retVal <<< 8 % 2 ^ 32 ||| b.toNat)

def MAU (d : DataSection) (index : Nat) : Outcome Nat := d.mauLoop index (mauInBytes d.mau) 0 0

/-- The loop of `addMAU` over the bytes that are full. -/
def addedRest (aMAU : Nat) : Nat → List UInt8
  | 0 => []
  | n + 1 => UInt8.ofNat (aMAU >>> (8 * n)) :: addedRest aMAU n

/-- The first bits are added without a mask. -/
def addedBytes (mau aMAU : Nat) : List UInt8 :=
  let modulo := mau % 8
  if modulo ≠ 0 then UInt8.ofNat (aMAU >>> (mau - modulo)) :: addedRest aMAU ((mau - modulo) / 8)
  else addedRest aMAU (mau / 8)

/-- The data afterwards, which may have more bytes than a `Word` counts. -/
def addMAU (d : DataSection) (aMAU : BitVec 32) : Outcome (List UInt8) :=
  if MathTools.requiredBits aMAU.toNat > d.mau ∧
      MathTools.requiredBitsSigned aMAU.toInt > d.mau then .error (.exception .outOfRange)
  else .ok (d.data ++ addedBytes d.mau aMAU.toNat)

/-- The loop that writes the bytes of a MAU from the last one on. -/
def writeMAU (index : Nat) : Nat → Nat → DataSection → Outcome DataSection
  | 0, _, d => .ok d
  | j + 1, currentMAU, d => do
    let offset ← byteOffset d.mau index j
    let d ← d.setByte offset (UInt8.ofNat currentMAU)
    writeMAU index j (currentMAU >>> 8) d

/-- A loop of `writeValue` over the MAUs, the one of the lowest bits first. -/
def writeLoop (currentMAU : Nat → Nat) (nextShiftCount : Nat → Outcome Nat) :
    List Nat → Nat → DataSection → Outcome DataSection
  | [], _, d => .ok d
  | index :: indices, shiftCount, d => do
    let next ← nextShiftCount shiftCount
    let d ← writeMAU index (mauInBytes d.mau) (currentMAU shiftCount) d
    writeLoop currentMAU nextShiftCount indices next d

def mauMask (mau : Nat) : Nat := (2 ^ 32 - 1) >>> (32 - mau)

def unsignedMAU (mau : Nat) (value : BitVec 64) (shiftCount : Nat) : Nat :=
  if shiftCount < 64 then (value.toNat >>> shiftCount &&& mauMask mau) % 2 ^ 32 else 0

/-- The count is an `int`. -/
def unsignedNext (mau shiftCount : Nat) : Outcome Nat :=
  if shiftCount + mau < 2 ^ 31 then .ok (shiftCount + mau) else .error .undefined

/-- All bits of the word are set where the value has none. -/
def signedMAU (mau : Nat) (value : BitVec 64) (shiftCount : Nat) : Nat :=
  if shiftCount < 64 then ((value.sshiftRight shiftCount).toNat &&& mauMask mau) % 2 ^ 32
  else 2 ^ 32 - 1

def signedNext (mau shiftCount : Nat) : Outcome Nat :=
  .ok (if shiftCount < 64 then shiftCount + mau else shiftCount)

/-- The MAUs in the order in which the loop goes over them. The loop of `DataSection` counts down
from an `int`, so it does not start when there are more MAUs than an `int` has values. -/
def indices : DataSectionType → Nat → Nat → List Nat
  | .data, index, numOfMAUs =>
    if numOfMAUs ≤ 2 ^ 31 then (List.range' index numOfMAUs).reverse else []
  | .ledata, index, numOfMAUs => List.range' index numOfMAUs

def writeUnsigned (type : DataSectionType) (d : DataSection) (index numOfMAUs : Nat)
    (value : BitVec 64) : Outcome DataSection :=
  writeLoop (unsignedMAU d.mau value) (unsignedNext d.mau) (indices type index numOfMAUs) 0 d

def writeSigned (type : DataSectionType) (d : DataSection) (index numOfMAUs : Nat)
    (value : BitVec 64) : Outcome DataSection :=
  writeLoop (signedMAU d.mau value) (signedNext d.mau) (indices type index numOfMAUs) 0 d

/-- The section of the comment on `writeValue`, -3 in four MAUs of ten bits. -/
example : ((⟨10, List.replicate 8 0, by decide, by decide, by decide, by decide⟩ :
    DataSection).writeSigned .data 0 4 (-3)).map (·.data) =
      .ok [3, 255, 3, 255, 3, 255, 3, 253] := by decide

end DataSection

end Tpef

end OpenAsip
