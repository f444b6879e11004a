import Mathlib.Algebra.Ring.Int.Defs
import Mathlib.Data.List.Sort
import OpenAsip.MathTools

namespace OpenAsip
set_option autoImplicit true

namespace MathTools

/-- The loop of `MathTools::requiredBitsSigned`. The fuel bounds the distance to 0 or -1. -/
def requiredBitsSignedLoop : Nat → Int → Nat → Nat
  | 0, _, bits => bits
  | fuel + 1, number, bits =>
    if number ≠ -1 ∧ number ≠ 0 then requiredBitsSignedLoop fuel (number / 2) (bits + 1) else bits

def requiredBitsSigned (number : Int) : Nat := requiredBitsSignedLoop number.natAbs number 1

/-- The conversion of a 64-bit unsigned number to a signed one. -/
def toSLongWord (number : Nat) : Int :=
  if number % 2 ^ 64 < 2 ^ 63 then (number % 2 ^ 64 : Nat)
  else (number % 2 ^ 64 : Nat) - 2 ^ 64

end MathTools

/-- `INT_WORD_SIZE`. -/
def intWordSize : Nat := 32

/-- A value with a width. The bits are those of the raw data, which may go beyond the width. -/
structure SimValue where
  bits : Nat
  width : Nat
deriving DecidableEq, Repr

namespace SimValue

/-- The low bits of a number, as an unsigned and as a signed number. -/
def zeroExtend (bits width : Nat) : Int := (bits % 2 ^ width : Nat)

def signExtend (bits width : Nat) : Int :=
  if bits % 2 ^ width < 2 ^ (width - 1) then (bits % 2 ^ width : Nat)
  else (bits % 2 ^ width : Nat) - 2 ^ width

/-- `SimValue(SLongWord value, int width)`, which copies whole bytes. -/
def ofSLongWord (value : Int) (width : Nat) : SimValue where
  bits := (value % 2 ^ (8 * if width < 64 then (width + 7) / 8 else 8)).toNat
  width := width

def unsignedValue (v : SimValue) : Nat := v.bits % 2 ^ min v.width 32

def intValue (v : SimValue) : Int := signExtend v.bits (min v.width 32)

end SimValue

namespace ITemplate

/-- The two extension modes of immediate units. -/
inductive Extension where
  | zero
  | sign
deriving DecidableEq, Repr

/-- A terminal of a constant. Addresses are not known before the program is laid out. -/
inductive TerminalImmediate where
  | value (v : SimValue)
  | instructionAddress
  | basicBlockReference
  | codeSymbolReference (symbol : String)
deriving DecidableEq, Repr

/-- A long immediate write. Units are known by their names. -/
structure Immediate where
  value : TerminalImmediate
  unit : String
  index : Nat
deriving DecidableEq, Repr

structure TemplateSlot where
  slot : String
  width : Nat
  destination : String
deriving DecidableEq, Repr

structure InstructionTemplate where
  name : String
  slots : List TemplateSlot
deriving DecidableEq, Repr

namespace InstructionTemplate

def usesSlot (t : InstructionTemplate) (slotName : String) : Prop :=
  ∃ s ∈ t.slots, s.slot = slotName

instance (t : InstructionTemplate) (slotName : String) : Decidable (t.usesSlot slotName) :=
  inferInstanceAs (Decidable (∃ s ∈ t.slots, s.slot = slotName))

def isOneOfDestinations (t : InstructionTemplate) (dstUnit : String) : Prop :=
  ∃ s ∈ t.slots, s.destination = dstUnit

instance (t : InstructionTemplate) (dstUnit : String) : Decidable (t.isOneOfDestinations dstUnit) :=
  inferInstanceAs (Decidable (∃ s ∈ t.slots, s.destination = dstUnit))

def destinationOfSlot (t : InstructionTemplate) (slotName : String) : Option String :=
  (t.slots.find? fun s => s.slot = slotName).map TemplateSlot.destination

/-- The bits that all slots of the unit transport together. -/
def supportedWidth (t : InstructionTemplate) (dstUnit : String) : Nat :=
  ((t.slots.filter fun s => s.destination = dstUnit).map TemplateSlot.width).sum

end InstructionTemplate

/-- What the brokers read of the target machine. -/
structure Machine where
  buses : List String
  extensionMode : String → Extension
  templates : List InstructionTemplate
  names_nodup : (templates.map InstructionTemplate.name).Nodup
  instructionSpaceEnd : Nat
  dataSpaceEnd : Nat

namespace Machine

/-- The buses that a template uses as slots are its dependent resources of group 0. -/
def dependentBuses (m : Machine) (t : InstructionTemplate) : List String :=
  m.buses.filter fun b => t.usesSlot b

/-- The units that these slots write are the dependent resources of group 1. A slot that is no bus
adds no resource to either group. -/
def dependentUnits (m : Machine) (t : InstructionTemplate) : List String :=
  (m.dependentBuses t).filterMap t.destinationOfSlot

/-- Resources are compared by their names. -/
def hasDependentResource (m : Machine) (t : InstructionTemplate) (name : String) : Prop :=
  name ∈ m.dependentBuses t ∨ name ∈ m.dependentUnits t

instance (m : Machine) (t : InstructionTemplate) (name : String) :
    Decidable (m.hasDependentResource t name) :=
  inferInstanceAs (Decidable (_ ∨ _))

/-- The bits that an address up to the given one needs. -/
def addressWidth (m : Machine) (unit : String) (last : Nat) : Nat :=
  match m.extensionMode unit with
  | .sign => MathTools.requiredBitsSigned (MathTools.toSLongWord last)
  | .zero => MathTools.requiredBits last

/-- The tests that `findITemplates` makes on the value of an immediate. A value of more than a word
has to fit as a whole. -/
def transports (m : Machine) (t : InstructionTemplate) (imm : Immediate) : Bool :=
  match imm.value with
  | .value v =>
    (v.width ≤ intWordSize || v.width ≤ t.supportedWidth imm.unit) &&
      match m.extensionMode imm.unit with
      | .zero => MathTools.requiredBits v.unsignedValue ≤ t.supportedWidth imm.unit
      | .sign => MathTools.requiredBitsSigned v.intValue ≤ t.supportedWidth imm.unit
  | .instructionAddress =>
    m.addressWidth imm.unit m.instructionSpaceEnd ≤ t.supportedWidth imm.unit
  | .basicBlockReference =>
    m.addressWidth imm.unit m.instructionSpaceEnd ≤ t.supportedWidth imm.unit
  | .codeSymbolReference symbol =>
    m.addressWidth imm.unit (if symbol = "_end" then m.dataSpaceEnd else m.instructionSpaceEnd) ≤
      t.supportedWidth imm.unit

/-- The loop of `findITemplates` over the immediates, with the units written so far. -/
def immediatesFit (m : Machine) (t : InstructionTemplate) : List String → List Immediate → Bool
  | _, [] => true
  | unitWriten, imm :: rest =>
    if imm.unit ∈ unitWriten then false
    else if ¬ t.isOneOfDestinations imm.unit then false
    else if ¬ m.transports t imm then false
    else m.immediatesFit t (unitWriten ++ [imm.unit]) rest

/-- The loop over the buses of the moves. -/
def movesFit (m : Machine) (t : InstructionTemplate) (buses : List String) : Bool :=
  buses.all fun b => ¬ m.hasDependentResource t b

/-- The template can carry the moves and the immediates. Without dependent resources there is no
group 1 whose size could be compared. -/
def fits (m : Machine) (t : InstructionTemplate) (buses : List String)
    (immediates : List Immediate) : Bool :=
  (m.dependentBuses t = [] || immediates.length ≤ (m.dependentUnits t).length) &&
    (m.immediatesFit t [] immediates && m.movesFit t buses)

end Machine
end ITemplate
end OpenAsip
