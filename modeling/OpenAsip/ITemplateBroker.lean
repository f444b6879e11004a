import OpenAsip.InstructionTemplates

namespace OpenAsip
set_option autoImplicit true

namespace ITemplate

/-- An instruction under construction. A move is kept with the bus it was assigned, an immediate is
an object of its own, named by its node. -/
structure Instruction (ν : Type) where
  template : InstructionTemplate
  moves : List (ν × String)
  immediates : List ν
deriving DecidableEq, Repr

/-- The bookkeeping of `ITemplateBroker` and of its resources, and the immediates, which the broker
changes in place. Cycles are instruction indices except in `cycle`. -/
structure State (ν : Type) where
  instructions : Nat → Option (Instruction ν)
  resourceRecord : String → Nat → Nat
  immediate : ν → Immediate
  cycle : ν → Option Nat
  immediateCycles : ν → Option Nat

/-- The nodes of the program. The constant of a move is its source, that of an immediate the value
it writes into its destination. -/
structure Program (ν : Type) where
  isMove : ν → Bool
  constant : ν → TerminalImmediate
  unit : ν → String
  index : ν → Nat

/-- A long immediate that `IUBroker` has chosen for a move: the cycle of the write and the
register. -/
structure ImmediateWrite where
  immediateWriteCycle : Nat
  unit : String
  index : Nat
deriving DecidableEq, Repr

def instructionIndex (ii cycle : Nat) : Nat := if ii ≠ 0 then cycle % ii else cycle

section Broker
variable {ν : Type} [DecidableEq ν]

namespace State

def initial (program : Program ν) : State ν where
  instructions _ := none
  resourceRecord _ _ := 0
  immediate n := ⟨program.constant n, program.unit n, program.index n⟩
  cycle _ := none
  immediateCycles _ := none

def setInstruction (s : State ν) (c : Nat) (ins : Instruction ν) : State ν :=
  { s with instructions := Function.update s.instructions c (some ins) }

def setImmediate (s : State ν) (n : ν) (imm : Immediate) : State ν :=
  { s with immediate := Function.update s.immediate n imm }

def setCycle (s : State ν) (n : ν) (cycle : Option Nat) : State ν :=
  { s with cycle := Function.update s.cycle n cycle }

def setImmediateCycle (s : State ν) (n : ν) (cycle : Option Nat) : State ν :=
  { s with immediateCycles := Function.update s.immediateCycles n cycle }

def setRecord (s : State ν) (name : String) (c count : Nat) : State ν :=
  { s with
    resourceRecord := Function.update s.resourceRecord name
      (Function.update (s.resourceRecord name) c count) }

end State

/-- `ITemplateResource::isInUse`. -/
def isInUse (s : State ν) (t : InstructionTemplate) (c : Nat) : Prop := s.resourceRecord t.name c ≠ 0

instance (s : State ν) (t : InstructionTemplate) (c : Nat) : Decidable (isInUse s t c) :=
  inferInstanceAs (Decidable (_ ≠ _))

/-- `ITemplateResource::assign`. The counter of a free template is 0, so that both ways of raising
it leave 1. -/
def assignResource (s : State ν) (t : InstructionTemplate) (c : Nat) : State ν :=
  if isInUse s t c then s else s.setRecord t.name c 1

/-- `ITemplateResource::unassign`. -/
def unassignResource (s : State ν) (t : InstructionTemplate) (c : Nat) : State ν :=
  if isInUse s t c then s.setRecord t.name c (s.resourceRecord t.name c - 1) else s

/-- The buses and the immediates of the instruction that is already there. -/
def busesAt (s : State ν) (c : Nat) : List String :=
  match s.instructions c with
  | some ins => ins.moves.map Prod.snd
  | none => []

def immediatesAt (s : State ν) (c : Nat) : List Immediate :=
  match s.instructions c with
  | some ins => ins.immediates.map s.immediate
  | none => []

/-- `ITemplateBroker::findITemplates`. Template resources have no use counts, so the result is
sorted by name. -/
def findITemplates (m : Machine) (s : State ν) (c : Nat) (buses : List String)
    (immediates : List Immediate) : List InstructionTemplate :=
  (m.templates.filter fun t => m.fits t (buses ++ busesAt s c) (immediates ++ immediatesAt s c)).insertionSort
    fun t t' => t.name ≤ t'.name

/-- `SimValue` compares the words of two values. The words of two references are equal when the
references are. -/
def sameValue : TerminalImmediate → TerminalImmediate → Bool
  | .value v, .value w => v.unsignedValue = w.unsignedValue
  | a, b => a = b

/-- `ITemplateBroker::isImmediateInTemplate`. -/
def isImmediateInTemplate (s : State ν) (c : Nat) (imm : Immediate) : Bool :=
  (immediatesAt s c).any fun i =>
    sameValue i.value imm.value && (i.unit = imm.unit && i.index = imm.index)

/-- The number that the unit extends. -/
def extended : Extension → SimValue → Int
  | .zero, v => v.unsignedValue
  | .sign, v => v.intValue

/-- A change of the template in `assign` makes the values narrower that no longer fit by their
width. References are left as they are. -/
def narrowed (m : Machine) (t : InstructionTemplate) (imm : Immediate) : Immediate :=
  match imm.value with
  | .value v =>
    if v.width > t.supportedWidth imm.unit then
      { imm with
        value := .value (.ofSLongWord (extended (m.extensionMode imm.unit) v)
          (t.supportedWidth imm.unit)) }
    else imm
  | _ => imm

def narrowAll (m : Machine) (t : InstructionTemplate) (s : State ν) (nodes : List ν) : State ν :=
  nodes.foldl (fun s n => s.setImmediate n (narrowed m t (s.immediate n))) s

/-- The first part of `ITemplateBroker::assign`: the instruction gets the template. -/
def selectTemplate (m : Machine) (s : State ν) (c : Nat) (t : InstructionTemplate) : State ν :=
  match s.instructions c with
  | some ins =>
    if ins.template.name ≠ t.name then
      assignResource ((narrowAll m t (unassignResource s ins.template c) ins.immediates).setInstruction c
        { ins with template := t }) t c
    else s
  | none => assignResource (s.setInstruction c ⟨t, [], []⟩) t c

/-- `Instruction::addMove` and `addImmediate` on the instruction of a cycle. -/
def addMove (s : State ν) (c : Nat) (n : ν) (bus : String) : State ν :=
  match s.instructions c with
  | some ins => s.setInstruction c { ins with moves := ins.moves ++ [(n, bus)] }
  | none => s

def addImmediate (s : State ν) (c : Nat) (n : ν) : State ν :=
  match s.instructions c with
  | some ins => s.setInstruction c { ins with immediates := ins.immediates ++ [n] }
  | none => s

def removeMove (s : State ν) (c : Nat) (n : ν) : State ν :=
  match s.instructions c with
  | some ins => s.setInstruction c { ins with moves := ins.moves.eraseP fun mv => mv.1 = n }
  | none => s

def removeImmediate (s : State ν) (c : Nat) (n : ν) : State ν :=
  match s.instructions c with
  | some ins => s.setInstruction c { ins with immediates := ins.immediates.erase n }
  | none => s

def setInstructionTemplate (s : State ν) (c : Nat) (t : InstructionTemplate) : State ν :=
  match s.instructions c with
  | some ins => s.setInstruction c { ins with template := t }
  | none => s

/-- `assignImmediate` gives a number the width of the template. -/
def atWidth (m : Machine) (t : InstructionTemplate) (imm : Immediate) : Immediate :=
  match imm.value with
  | .value v =>
    if t.supportedWidth imm.unit ≤ intWordSize then
      { imm with
        value := .value (.ofSLongWord (extended (m.extensionMode imm.unit) v)
          (t.supportedWidth imm.unit)) }
    else imm
  | _ => imm

/-- `ITemplateBroker::assignImmediate`. The resource of the old template is freed even when the
template stays the same. -/
def assignImmediate (m : Machine) (s : State ν) (c : Nat) (n : ν) (imm : Immediate) :
    Outcome (State ν) :=
  match findITemplates m s c [] [imm] with
  | [] => .error .assertion
  | t :: _ =>
    let s := match s.instructions c with
      | some ins => unassignResource s ins.template c
      | none => s.setInstruction c ⟨t, [], []⟩
    let s := assignResource (s.setImmediate n (atWidth m t imm)) t c
    .ok (addImmediate (setInstructionTemplate s c t) c n)

/-- `ITemplateBroker::assign` of a move. A move that reads a long immediate also writes it. -/
def assignMove (m : Machine) (program : Program ν) (ii : Nat) (s : State ν) (cycle : Nat) (n : ν)
    (bus : String) (write : Option ImmediateWrite) (t : InstructionTemplate) :
    Outcome (State ν) :=
  let c := instructionIndex ii cycle
  let s := (addMove (selectTemplate m s c t) c n bus).setCycle n (some cycle)
  match write with
  | none => .ok s
  | some w =>
    let defCycle := instructionIndex ii w.immediateWriteCycle
    let imm := ⟨program.constant n, w.unit, w.index⟩
    if isImmediateInTemplate s defCycle imm then .error .assertion
    else (assignImmediate m s defCycle n imm).map fun s => s.setImmediateCycle n (some defCycle)

/-- `ITemplateBroker::assign` of a long immediate. -/
def assignNode (m : Machine) (ii : Nat) (s : State ν) (cycle : Nat) (n : ν)
    (t : InstructionTemplate) : State ν :=
  let c := instructionIndex ii cycle
  (addImmediate (selectTemplate m s c t) c n).setCycle n (some cycle)

/-- `ITemplateBroker::reselectTemplate`. The resource of the template the instruction had is not
freed here. -/
def reselectTemplate (m : Machine) (s : State ν) (c : Nat) : Outcome (State ν) :=
  match findITemplates m s c [] [] with
  | [] => .error .assertion
  | t :: _ => .ok (assignResource (setInstructionTemplate s c t) t c)

/-- The first immediate of the unit is taken out of the instruction. -/
def removeUnit (s : State ν) (c : Nat) (unit : String) : State ν :=
  match s.instructions c with
  | some ins =>
    s.setInstruction c
      { ins with immediates := ins.immediates.eraseP fun n => (s.immediate n).unit = unit }
  | none => s

/-- `ITemplateBroker::unassignImmediate`. -/
def unassignImmediate (m : Machine) (s : State ν) (c : Nat) (unit : String) :
    Outcome (State ν) :=
  match s.instructions c with
  | none => .ok s
  | some ins => reselectTemplate m (removeUnit (unassignResource s ins.template c) c unit) c

/-- `ITemplateBroker::unassign` of a node. The brokers before it have put the constant of a move
back that read a long immediate. -/
def unassign (m : Machine) (program : Program ν) (ii : Nat) (s : State ν) (n : ν) :
    Outcome (State ν) :=
  match s.cycle n with
  | none => .error (.exception .invalidData)
  | some cycle =>
    let c := instructionIndex ii cycle
    if program.isMove n then do
      let s ← match s.immediateCycles n with
        | some defCycle =>
          if isImmediateInTemplate (removeMove s c n) defCycle (s.immediate n) then
            (unassignImmediate m (removeMove s c n) defCycle (s.immediate n).unit).map
              fun s => s.setImmediateCycle n none
          else .error .assertion
        | none => .ok (removeMove s c n)
      let s ← reselectTemplate m s c
      .ok (s.setCycle n none)
    else do
      let s ← reselectTemplate m (removeImmediate s c n) c
      .ok (s.setCycle n none)

/-- `ITemplateBroker::instruction`, which makes the instruction of a cycle that has none. -/
def instruction (m : Machine) (ii : Nat) (s : State ν) (cycle : Nat) : Outcome (State ν) :=
  let c := instructionIndex ii cycle
  match s.instructions c with
  | some _ => .ok s
  | none =>
    match findITemplates m s c [] [] with
    | [] => .error (.exception .invalidData)
    | t :: _ => .ok ((assignResource s t c).setInstruction c ⟨t, [], []⟩)

/-- The calls that a resource manager makes of the broker. -/
inductive Call (ν : Type) where
  | assignMove (cycle : Nat) (n : ν) (bus : String) (write : Option ImmediateWrite)
      (t : InstructionTemplate)
  | assignNode (cycle : Nat) (n : ν) (t : InstructionTemplate)
  | unassign (n : ν)
  | instruction (cycle : Nat)

def step (m : Machine) (program : Program ν) (ii : Nat) (s : State ν) :
    Call ν → Outcome (State ν)
  | .assignMove cycle n bus write t => assignMove m program ii s cycle n bus write t
  | .assignNode cycle n t => .ok (assignNode m ii s cycle n t)
  | .unassign n => unassign m program ii s n
  | .instruction cycle => instruction m ii s cycle

end Broker
end ITemplate
end OpenAsip
