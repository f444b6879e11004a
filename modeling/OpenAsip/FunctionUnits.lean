import OpenAsip.Containers
import OpenAsip.ExecutionPipelineCalls
import OpenAsip.ResourceVectors

namespace OpenAsip
set_option autoImplicit true

namespace MOM
open ConflictDetection (ResourceSet ResourceVector isValidComponentName)

structure FUPort where
  name : String
  width : Nat
  triggers : Bool
  setsOpcode : Bool
  bindingString : String
deriving DecidableEq

/-- Operands are bound to ports, which are known by their names in the function unit. -/
structure HWOperation where
  name : String
  operandBinding : List (Int × String)
  pipeline : ExecutionPipeline
deriving DecidableEq

structure FunctionUnit where
  ports : List FUPort
  pipelineElements : List String
  operations : List HWOperation
  addressSpace : Option String
deriving DecidableEq

namespace HWOperation

def port (op : HWOperation) (operand : Int) : Option String :=
  (op.operandBinding.find? fun binding => binding.1 = operand).map Prod.snd

/-- The operand that is bound to the port. -/
def io (op : HWOperation) (port : String) : Option Int :=
  (op.operandBinding.find? fun binding => binding.2 = port).map Prod.fst

end HWOperation

/-- The strings of a sorted set with commas between them. -/
def joined (s : Finset String) : String := ",".intercalate s.sort

def stringToUpper (s : String) : String := String.ofList (s.toList.map Char.toUpper)

def stringToLower (s : String) : String := String.ofList (s.toList.map Char.toLower)

/-- `ResourceVector::toString` from a cycle on. -/
def vectorText : Nat → List ResourceSet → String
  | _, [] => ""
  | cycle, s :: l => "[" ++ cycle.repr ++ ":\x7b" ++ joined s ++ "\x7d]" ++ vectorText (cycle + 1) l

/-- `ResourceVector::operator==`. -/
def vectorsEqual (v v' : ResourceVector) : Bool :=
  vectorText 0 v.resources = vectorText 0 v'.resources

/-- The keys are upper case. A value replaces the one that was there. -/
def setVector (m : StdMap String ResourceVector) (name : String) (v : ResourceVector) :
    StdMap String ResourceVector :=
  (stringToUpper name, v) :: m.filter fun entry => entry.1 ≠ stringToUpper name

/-- `ResourceVectorSet::operator==`. -/
def vectorSetsEqual (m m' : StdMap String ResourceVector) : Bool :=
  m.length = m'.length && m.all fun entry =>
    (m'.find? fun entry' => entry'.1 = stringToUpper entry.1).any fun entry' =>
      vectorsEqual entry.2 entry'.2

namespace FUPort

def isArchitectureEqual (p q : FUPort) : Bool :=
  p.triggers = q.triggers ∧ p.setsOpcode = q.setsOpcode ∧ p.width = q.width ∧
    p.bindingString = q.bindingString

/-- The comparison of ports whose widths and bindings may differ. -/
def isKindEqual (p q : FUPort) : Bool := p.triggers = q.triggers ∧ p.setsOpcode = q.setsOpcode

end FUPort

namespace FunctionUnit

/-- The operands that are bound to a port, each after the name of its operation. -/
def bindings (fu : FunctionUnit) (port : String) : Finset String :=
  (fu.operations.filterMap fun op =>
    (op.io port).map fun io => op.name ++ ("." ++ io.repr)).toFinset

/-- What `FUPort::updateBindingString` computes. -/
def updatedBindingString (fu : FunctionUnit) (port : String) : String := joined (fu.bindings port)

/-- The port of the unit that the operand is bound to. -/
def operandPort (fu : FunctionUnit) (op : HWOperation) (operand : Int) : Option FUPort := do
  let name ← op.port operand
  fu.ports.find? fun port => port.name = name

/-- The prefix is in front of the whole binding string of the port. -/
def portResource (fu : FunctionUnit) (op : HWOperation) (operand : Int) : String :=
  "port:" ++ ((fu.operandPort op operand).elim "" FUPort.bindingString)

def cycleResources (fu : FunctionUnit) (op : HWOperation) (u : CycleUsage) : ResourceSet :=
  (u.resources.image fun name => "res:" ++ name) ∪ u.reads.image (fu.portResource op) ∪
    u.writes.image (fu.portResource op)

/-- All operands in use are bound. -/
def hasPorts (fu : FunctionUnit) (op : HWOperation) : Bool :=
  op.pipeline.usage.all fun u =>
    decide (∀ operand ∈ u.reads ∪ u.writes, (fu.operandPort op operand).isSome)

/-- The constructor of `ResourceVector`. An operand without port is a null pointer. -/
def resourceVector (fu : FunctionUnit) (op : HWOperation) : Outcome ResourceVector :=
  if fu.hasPorts op then .ok ⟨op.pipeline.usage.map (fu.cycleResources op)⟩
  else .error .undefined

def resourceVectorSet (fu : FunctionUnit) : Outcome (StdMap String ResourceVector) :=
  fu.operations.foldlM (fun m op => do
    let v ← fu.resourceVector op
    .ok (setVector m op.name v)) []

def isArchitectureEqual (fu other : FunctionUnit) (checkPortWidths : Bool) : Outcome Bool :=
  if fu.operations.length ≠ other.operations.length then .ok false
  else if fu.ports.length ≠ other.ports.length then .ok false
  else if fu.pipelineElements.length ≠ other.pipelineElements.length then .ok false
  else if fu.addressSpace ≠ other.addressSpace then .ok false
  else if fu.pipelineElements.any (· ∈ other.pipelineElements) then .ok false
  else if (fu.ports.zip other.ports).any fun pair =>
      if checkPortWidths then !pair.1.isArchitectureEqual pair.2
      else !pair.1.isKindEqual pair.2 then .ok false
  else do
    let vectors ← fu.resourceVectorSet
    let vectors' ← other.resourceVectorSet
    .ok (vectorSetsEqual vectors vectors')

/-- A port that is loaded. The unit is still under construction, so that `setTriggering` finds no
parent and the binding string is empty. -/
def loadPort (ports : List FUPort) (port : FUPort) : Outcome (List FUPort) :=
  if port.setsOpcode ∧ ports.any FUPort.setsOpcode then .error (.exception .general)
  else if port.setsOpcode ∧ ¬ port.triggers then .error (.exception .general)
  else .ok (ports ++ [{ port with setsOpcode := port.triggers, bindingString := "" }])

/-- `HWOperation::bindPort` of the operation that has been added last. -/
def bindPort (fu : FunctionUnit) (op : HWOperation) (binding : Int × String) :
    FunctionUnit × HWOperation :=
  let op := { op with
    operandBinding := op.operandBinding.filter (fun b => b.1 ≠ binding.1) ++ [binding] }
  let fu := { fu with operations := fu.operations.dropLast ++ [op] }
  ({ fu with ports := fu.ports.map fun port =>
      if port.name = binding.2 then
        { port with bindingString := fu.updatedBindingString port.name }
      else port }, op)

def loadBinding (state : FunctionUnit × HWOperation) (binding : Int × String) :
    Outcome (FunctionUnit × HWOperation) :=
  if ¬ state.1.ports.any fun port => port.name = binding.2 then .error (.exception .general)
  else if (state.2.io binding.2).isSome then .error (.exception .general)
  else if (state.2.port binding.1).isSome then .error (.exception .general)
  else if binding.1 < 1 then .error (.exception .general)
  else .ok (bindPort state.1 state.2 binding)

def pipelineUnit (fu : FunctionUnit) : PipelineUnit fu.operations.length :=
  ⟨fu.pipelineElements, fun i => (fu.operations.get i).pipeline⟩

def withPipelines (fu : FunctionUnit) (unit : PipelineUnit fu.operations.length) : FunctionUnit :=
  { fu with
    pipelineElements := unit.elements
    operations := List.ofFn fun i => { fu.operations.get i with pipeline := unit.pipelines i } }

/-- The pipeline of the operation that has been added last. -/
def loadPipeline (fu : FunctionUnit) (state : List (UseRange Use)) : Outcome FunctionUnit :=
  if h : 0 < fu.operations.length then do
    let unit ← fu.pipelineUnit.loadState ⟨fu.operations.length - 1, by omega⟩ state
    .ok (fu.withPipelines unit)
  else .error .undefined

/-- The constructor of an operation from its state, which has the name, the bindings and the
pipeline. -/
def loadOperation (fu : FunctionUnit) (state : HWOperation) : Outcome FunctionUnit :=
  let name := stringToLower state.name
  if fu.operations.any fun op => op.name = name then .error (.exception .general)
  else if ¬ isValidComponentName name then .error (.exception .general)
  else do
    let op : HWOperation := ⟨name, [], ⟨[]⟩⟩
    let (fu, _) ← state.operandBinding.foldlM loadBinding
      ({ fu with operations := fu.operations ++ [op] }, op)
    fu.loadPipeline state.pipeline.saveState

/-- The unit is made from its saved state, without references to components outside. -/
def copy (fu : FunctionUnit) : Outcome FunctionUnit := do
  let ports ← fu.ports.foldlM loadPort []
  fu.operations.foldlM loadOperation ⟨ports, [], [], none⟩

end FunctionUnit

/-- A function unit as the object model keeps it: names are valid and differ, those of operations
are in lower case, operands are bound to ports of the unit, each port to one operand of an
operation, and the pipelines use elements of the unit. -/
structure MachineUnit extends FunctionUnit where
  valid_names : ∀ op ∈ operations, isValidComponentName op.name = true
  lower_names : ∀ op ∈ operations, stringToLower op.name = op.name
  nodup_names : (operations.map HWOperation.name).Nodup
  nodup_portNames : (ports.map FUPort.name).Nodup
  sorted_operands : ∀ op ∈ operations, (op.operandBinding.map Prod.fst).Pairwise (· < ·)
  operand_pos : ∀ op ∈ operations, ∀ binding ∈ op.operandBinding, 1 ≤ binding.1
  nodup_ports : ∀ op ∈ operations, (op.operandBinding.map Prod.snd).Nodup
  mem_ports : ∀ op ∈ operations, ∀ binding ∈ op.operandBinding, ∃ port ∈ ports,
    port.name = binding.2
  sound : ∀ op ∈ operations, op.pipeline.Sound
  mem_elements : ∀ op ∈ operations, ∀ u ∈ op.pipeline.usage, ∀ name ∈ u.resources,
    name ∈ pipelineElements

end MOM

end OpenAsip
