import OpenAsip.Containers
import OpenAsip.MathTools

namespace OpenAsip
set_option autoImplicit true

namespace Pig
open MathTools

/-- The part of a long immediate that a slot encodes: the bits of the value from the left index down
to the right one. -/
structure LimmSlice where
  limmWidth : Nat
  limmLeftIndex : Nat
  limmRightIndex : Nat
deriving DecidableEq, Repr

/-- `IndexBound`. The slice is there when the address is encoded in a long immediate. -/
structure IndexBound where
  slotStartIndex : Nat
  slotEndIndex : Nat
  limm : Option LimmSlice
deriving DecidableEq, Repr

/-- `incrStartIndex` and `incrEndIndex`. -/
def IndexBound.incr (b : IndexBound) (increment : Nat) : IndexBound where
  slotStartIndex := (b.slotStartIndex + increment) % 2 ^ 32
  slotEndIndex := (b.slotEndIndex + increment) % 2 ^ 32
  limm := b.limm

def IndexBound.width (b : IndexBound) : Nat := b.slotEndIndex + 1 - b.slotStartIndex

/-- A bound covers an index. -/
def IndexBound.Covers (b : IndexBound) (i : Nat) : Prop :=
  b.slotStartIndex ≤ i ∧ i ≤ b.slotEndIndex

/-- A bound moved to the right, without the limits of `unsigned`. -/
def IndexBound.shift (n : Nat) (b : IndexBound) : IndexBound :=
  ⟨b.slotStartIndex + n, b.slotEndIndex + n, b.limm⟩

abbrev IndexBoundTable := List IndexBound

/-- The identity of an `Instruction` object. -/
abbrev InstructionId := Nat

namespace InstructionBitVector

def availableSize (indexes : IndexBoundTable) : Nat :=
  indexes.foldl (fun size b => size + (b.slotEndIndex - b.slotStartIndex + 1)) 0

/-- What `fixBits` writes: the required bits of the value, and zeros above them. -/
def newBit (value stopBit currentBit : Nat) : Outcome Bool :=
  if currentBit ≤ stopBit then bit value currentBit else .ok false

/-- The inner loop of `fixBits`, which goes down from `index` and has `count` bits left. -/
def fixRange (value stopBit : Nat) : Nat → Nat → Nat → List Bool → Outcome (List Bool)
  | 0, _, _, bits => .ok bits
  | count + 1, index, currentBit, bits =>
    if index < bits.length then do
      let b ← newBit value stopBit currentBit
      fixRange value stopBit count (index - 1) (currentBit + 1) (bits.set index b)
    else .error .undefined

/-- The current and the last bit of the value when a bound is entered. -/
def enterBound (b : IndexBound) (currentBit stopBit : Nat) : Outcome (Nat × Nat) :=
  match b.limm with
  | none => .ok (currentBit, stopBit)
  | some l =>
    if l.limmLeftIndex + 1 = l.limmRightIndex + l.limmWidth then
      .ok (l.limmRightIndex, l.limmLeftIndex)
    else .error .assertion

/-- The outer loop of `fixBits`. The inner one counts an unsigned index down to the start of the
bound, so a bound that starts at 0 makes it leave the vector. -/
def fixBounds (value : Nat) : List IndexBound → Nat → Nat → List Bool → Outcome (List Bool)
  | [], _, _, bits => .ok bits
  | b :: bounds, currentBit, stopBit, bits => do
    let entry ← enterBound b currentBit stopBit
    if b.slotStartIndex = 0 then .error .undefined
    else do
      let bits ← fixRange value entry.2 b.width b.slotEndIndex entry.1 bits
      fixBounds value bounds (entry.1 + b.width) entry.2 bits

def fixBits (bits : List Bool) (indexes : IndexBoundTable) (value : Nat) : Outcome (List Bool) :=
  if requiredBits value > availableSize indexes then .error (.exception .outOfRange)
  else fixBounds value indexes.reverse 0 (requiredBits value) bits

end InstructionBitVector

open InstructionBitVector

/-- A part of the bit vector that refers to the address of an instruction. -/
abbrev Reference := InstructionId × IndexBoundTable

structure InstructionBitVector where
  bits : List Bool
  references : List Reference
  instructionBoundaries : List Nat
  instructionAddresses : StdMap InstructionId Nat
deriving DecidableEq

namespace InstructionBitVector

/-- The loops over the references whose instruction has an address. -/
def fixReferences (address : InstructionId → Option Nat) (references : List Reference)
    (bits : List Bool) : Outcome (List Bool) :=
  references.foldlM (fun bits r =>
    match address r.1 with
    | none => .ok bits
    | some value => fixBits bits r.2 value) bits

/-- `addIndexBoundTables`, for one reference. -/
def rebase (size : Nat) (r : Reference) : Reference := (r.1, r.2.map fun b => b.incr size)

def pushBack (v : InstructionBitVector) (bits : InstructionBitVector) :
    Outcome InstructionBitVector := do
  let bitsCopy ← fixReferences (fun i => v.instructionAddresses.lookup i) bits.references
    bits.bits
  return { v with
    references := v.references ++ bits.references.map (rebase v.bits.length)
    bits := v.bits ++ bitsCopy }

/-- The loop of `markInstructionStartingPoint` over the boundaries. -/
def insertBoundary (position : Nat) : List Nat → Outcome (List Nat)
  | [] => .error .assertion
  | boundary :: boundaries =>
    if boundary > position then .ok (position :: boundary :: boundaries)
    else if boundary = position then .ok (boundary :: boundaries)
    else do
      let rest ← insertBoundary position boundaries
      .ok (boundary :: rest)

def markInstructionStartingPoint (v : InstructionBitVector) (position : Nat) :
    Outcome InstructionBitVector :=
  match v.instructionBoundaries.getLast? with
  | none => .ok { v with instructionBoundaries := [position] }
  | some back =>
    if back < position then
      .ok { v with instructionBoundaries := v.instructionBoundaries ++ [position] }
    else do
      let boundaries ← insertBoundary position v.instructionBoundaries
      .ok { v with instructionBoundaries := boundaries }

def fixInstructionAddress (v : InstructionBitVector) (instruction : InstructionId)
    (address : Nat) : Outcome InstructionBitVector := do
  let bits ← fixReferences (fun i => if i = instruction then some address else none)
    v.references v.bits
  return { v with
    instructionAddresses := v.instructionAddresses.insert instruction address
    bits := bits }

/-- The bits of the value that are read at the indexes of the bounds. After a slice of a long
immediate, higher bits than its last one are zeros that belong to no bit of the value. -/
def boundsLayout : List IndexBound → Nat → Option Nat → List (Nat × Nat)
  | [], _, _ => []
  | b :: bounds, currentBit, stopBit =>
    let entry := match b.limm with
      | none => (currentBit, stopBit)
      | some l => (l.limmRightIndex, some l.limmLeftIndex)
    ((List.range b.width).map fun j => (b.slotEndIndex - j, entry.1 + j)).filter
        (fun p => ∀ stop ∈ entry.2, p.2 ≤ stop) ++
      boundsLayout bounds (entry.1 + b.width) entry.2

/-- The indexes of a reference with the bits of the address that stand there. -/
def layout (indexes : IndexBoundTable) : List (Nat × Nat) := boundsLayout indexes.reverse 0 none

/-- The address that a reference has in the vector. -/
def readReference (bits : List Bool) (indexes : IndexBoundTable) : Nat :=
  (layout indexes).foldl (fun n p => n ||| (bits.getD p.1 false).toNat <<< p.2) 0

end InstructionBitVector

end Pig

end OpenAsip
