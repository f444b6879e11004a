import OpenAsip.BindingStrings
import OpenAsip.UseRanges

namespace OpenAsip
set_option autoImplicit true

namespace MOM
open ConflictDetection (isValidComponentName)

/-- What a pipeline uses in one cycle. Pipeline elements are known by their names, which are unique
in a function unit. -/
structure CycleUsage where
  resources : Finset String
  reads : Finset Int
  writes : Finset Int
deriving DecidableEq

namespace CycleUsage

def empty : CycleUsage := ⟨∅, ∅, ∅⟩

def isEmpty (u : CycleUsage) : Bool := u.resources = ∅ ∧ u.reads = ∅ ∧ u.writes = ∅

end CycleUsage

/-- The vectors `resourceUsage_`, `opReads_` and `opWrites_`, which are resized together. -/
structure ExecutionPipeline where
  usage : List CycleUsage
deriving DecidableEq

namespace ExecutionPipeline

def latency (p : ExecutionPipeline) : Nat := p.usage.length

def usageAt (p : ExecutionPipeline) (cycle : Nat) : CycleUsage := p.usage.getD cycle .empty

/-- A resource or an operand that is used for some cycles. -/
def update (p : ExecutionPipeline) (start stop : Nat) (f : CycleUsage → CycleUsage) :
    ExecutionPipeline :=
  ⟨p.usage.mapIdx fun cycle u => if start ≤ cycle ∧ cycle < stop then f u else u⟩

def adjustLatency (p : ExecutionPipeline) (newLatency : Nat) : ExecutionPipeline :=
  if p.latency < newLatency then
    ⟨p.usage ++ List.replicate (newLatency - p.latency) .empty⟩
  else ⟨p.usage.take newLatency ++ (p.usage.drop newLatency).rdropWhile CycleUsage.isEmpty⟩

/-- `StartTooLate` and the other exceptions of pipelines are not told apart. -/
def checkStartCycle (p : ExecutionPipeline) (startCycle : Int) : Outcome Unit :=
  if startCycle < 0 then .error (.exception .outOfRange)
  else if startCycle ≤ 1 then .ok ()
  else if p.latency = 0 then .error (.exception .general)
  else if p.latency = 1 ∧ (p.usageAt 0).resources = ∅ ∧ (p.usageAt 0).reads = ∅ then
    .error (.exception .general)
  else if 2 ≤ p.latency ∧ (p.usageAt 0).resources = ∅ ∧ (p.usageAt 1).resources = ∅ ∧
      (p.usageAt 0).reads = ∅ ∧ (p.usageAt 1).reads = ∅ then .error (.exception .general)
  else .ok ()

def checkDuration (duration : Int) : Outcome Unit :=
  if duration < 1 then .error (.exception .outOfRange) else .ok ()

def checkResourceName (name : String) : Outcome Unit :=
  if isValidComponentName name then .ok () else .error (.exception .general)

def isOperandWritten (p : ExecutionPipeline) (operand : Int) : Bool :=
  p.usage.any fun u => operand ∈ u.writes

def isOperandRead (p : ExecutionPipeline) (operand : Int) : Bool :=
  p.usage.any fun u => operand ∈ u.reads

def checkInputOperand (p : ExecutionPipeline) (operand : Int) : Outcome Unit :=
  if operand < 1 then .error (.exception .outOfRange)
  else if p.isOperandWritten operand then .error (.exception .general)
  else .ok ()

def checkOutputOperand (p : ExecutionPipeline) (operand : Int) : Outcome Unit :=
  if operand < 1 then .error (.exception .outOfRange)
  else if p.isOperandRead operand then .error (.exception .general)
  else .ok ()

/-- The sum of a start cycle and a duration, which is an `int`. -/
def stopCycle (start duration : Int) : Outcome Nat :=
  if start + duration < 2 ^ 31 then .ok (start + duration).toNat else .error .undefined

/-- Some cycle of the pipeline from the start to the stop cycle has the property. -/
def anyCycle (p : ExecutionPipeline) (start stop : Nat) (f : CycleUsage → Bool) : Bool :=
  ((p.usage.take stop).drop start).any f

/-- The pipeline element is looked up in the function unit. -/
def checkResourceAvailability (elements : List String) (p : ExecutionPipeline) (resource : String)
    (start duration : Int) : Outcome Unit :=
  if resource ∉ elements then .ok ()
  else do
    let stop ← stopCycle start duration
    if p.anyCycle start.toNat stop fun u => resource ∈ u.resources then
      .error (.exception .notAvailable)
    else .ok ()

def checkOperandAvailability (p : ExecutionPipeline) (operand start duration : Int) :
    Outcome Unit := do
  let stop ← stopCycle start duration
  if p.anyCycle start.toNat stop fun u => operand ∈ u.reads ∨ operand ∈ u.writes then
    .error (.exception .notAvailable)
  else .ok ()

def startsWith (u : CycleUsage) : Bool := u.resources ≠ ∅ ∨ u.reads ≠ ∅

/-- -1 is `none`. -/
def firstCycle (p : ExecutionPipeline) : Option Nat := p.usage.findIdx? startsWith

def startsWithout (resource : String) (u : CycleUsage) : Bool :=
  u.reads ≠ ∅ ∨ 1 < u.resources.card ∨ u.resources.card = 1 ∧ resource ∉ u.resources

def firstCycleWithoutResource (elements : List String) (p : ExecutionPipeline)
    (resource : String) : Option Nat :=
  if resource ∉ elements then p.firstCycle else p.usage.findIdx? (startsWithout resource)

/-- The first cycle behind the given one. -/
def firstCycleAfter (p : ExecutionPipeline) (cycle : Nat) : Option Nat :=
  ((p.usage.drop (cycle + 1)).findIdx? startsWith).map (cycle + 1 + ·)

def firstCycleWithoutResourceAt (elements : List String) (p : ExecutionPipeline)
    (resource : String) (cycle : Nat) : Option Nat :=
  if p.firstCycle ≠ some cycle then p.firstCycle
  else if resource ∉ elements then p.firstCycle
  else if startsWithout resource (p.usageAt cycle) then some cycle
  else p.firstCycleAfter cycle

def firstCycleWithoutOperandUse (p : ExecutionPipeline) (operand : Int) (cycle : Nat) :
    Option Nat :=
  if p.firstCycle ≠ some cycle then p.firstCycle
  else if 1 < (p.usageAt cycle).reads.card ∨
      (p.usageAt cycle).reads.card = 1 ∧ operand ∉ (p.usageAt cycle).reads then some cycle
  else if (p.usageAt cycle).resources ≠ ∅ then some cycle
  else p.firstCycleAfter cycle

def isTooLate (first : Option Nat) : Bool := first.any (1 < ·)

def addResource (name : String) (u : CycleUsage) : CycleUsage :=
  { u with resources := insert name u.resources }

def addRead (operand : Int) (u : CycleUsage) : CycleUsage :=
  { u with reads := insert operand u.reads }

def addWrite (operand : Int) (u : CycleUsage) : CycleUsage :=
  { u with writes := insert operand u.writes }

def removeResource (name : String) (u : CycleUsage) : CycleUsage :=
  { u with resources := u.resources.erase name }

def removeOperand (operand : Int) (u : CycleUsage) : CycleUsage :=
  { u with reads := u.reads.erase operand, writes := u.writes.erase operand }

def usedResources (p : ExecutionPipeline) : Finset String :=
  p.usage.foldr (fun u s => u.resources ∪ s) ∅

end ExecutionPipeline

/-- The pipeline elements of a function unit and the pipelines of its operations. -/
structure PipelineUnit (n : Nat) where
  elements : List String
  pipelines : Fin n → ExecutionPipeline
deriving DecidableEq

namespace PipelineUnit
open ExecutionPipeline

def new (n : Nat) : PipelineUnit n := ⟨[], fun _ => ⟨[]⟩⟩

def setPipeline (fu : PipelineUnit n) (i : Fin n) (p : ExecutionPipeline) : PipelineUnit n :=
  { fu with pipelines := Function.update fu.pipelines i p }

def isUsed (fu : PipelineUnit n) (resource : String) : Bool :=
  (List.finRange n).any fun i => (fu.pipelines i).usage.any fun u => resource ∈ u.resources

/-- The element is deleted when it is not used by any operation. Its destructor calls
`removeResourceUse`, which finds no element any more. -/
def cleanup (fu : PipelineUnit n) (resource : String) : PipelineUnit n :=
  if resource ∉ fu.elements then fu
  else if fu.isUsed resource then fu
  else { fu with elements := fu.elements.erase resource }

def internalAddResourceUse (fu : PipelineUnit n) (i : Fin n) (name : String)
    (start duration : Int) : Outcome (PipelineUnit n) := do
  let elements := if name ∈ fu.elements then fu.elements else fu.elements ++ [name]
  let stop ← stopCycle start duration
  .ok ((⟨elements, fu.pipelines⟩ : PipelineUnit n).setPipeline i
    (((fu.pipelines i).adjustLatency stop).update start.toNat stop (addResource name)))

def addResourceUse (fu : PipelineUnit n) (i : Fin n) (name : String) (start duration : Int) :
    Outcome (PipelineUnit n) := do
  (fu.pipelines i).checkStartCycle start
  checkDuration duration
  checkResourceName name
  checkResourceAvailability fu.elements (fu.pipelines i) name start duration
  fu.internalAddResourceUse i name start duration

/-- The latency is adjusted only upwards. -/
def internalAddPortUse (fu : PipelineUnit n) (i : Fin n) (start duration : Int)
    (add : CycleUsage → CycleUsage) : Outcome (PipelineUnit n) := do
  let stop ← stopCycle start duration
  let p := fu.pipelines i
  let p := if p.latency < stop then p.adjustLatency stop else p
  .ok (fu.setPipeline i (p.update start.toNat stop add))

def addPortRead (fu : PipelineUnit n) (i : Fin n) (operand start duration : Int) :
    Outcome (PipelineUnit n) := do
  (fu.pipelines i).checkStartCycle start
  checkDuration duration
  (fu.pipelines i).checkInputOperand operand
  (fu.pipelines i).checkOperandAvailability operand start duration
  fu.internalAddPortUse i start duration (addRead operand)

def addPortWrite (fu : PipelineUnit n) (i : Fin n) (operand start duration : Int) :
    Outcome (PipelineUnit n) :=
  if start < 0 then .error (.exception .outOfRange)
  else do
    checkDuration duration
    (fu.pipelines i).checkOutputOperand operand
    (fu.pipelines i).checkOperandAvailability operand start duration
    fu.internalAddPortUse i start duration (addWrite operand)

def internalRemoveResourceUse (fu : PipelineUnit n) (i : Fin n) (name : String)
    (start duration : Nat) : PipelineUnit n :=
  if name ∉ fu.elements then fu
  else
    (fu.setPipeline i (((fu.pipelines i).update start (start + duration)
      (removeResource name)).adjustLatency 0)).cleanup name

def removeResourceUse (fu : PipelineUnit n) (i : Fin n) (name : String) :
    Outcome (PipelineUnit n) :=
  if name ∉ fu.elements then .ok fu
  else if isTooLate ((fu.pipelines i).firstCycleWithoutResource fu.elements name) then
    .error (.exception .general)
  else .ok (fu.internalRemoveResourceUse i name 0 (fu.pipelines i).latency)

def removeResourceUseAt (fu : PipelineUnit n) (i : Fin n) (name : String) (cycle : Int) :
    Outcome (PipelineUnit n) :=
  if name ∉ fu.elements then .ok fu
  else if cycle < 0 then .error (.exception .outOfRange)
  else if (fu.pipelines i).latency ≤ cycle then .ok fu
  else if (cycle = 0 ∨ cycle = 1) ∧
      isTooLate ((fu.pipelines i).firstCycleWithoutResourceAt fu.elements name cycle.toNat) then
    .error (.exception .general)
  else .ok (fu.internalRemoveResourceUse i name cycle.toNat 1)

def removeOperandUse (fu : PipelineUnit n) (i : Fin n) (operand cycle : Int) :
    Outcome (PipelineUnit n) :=
  if cycle < 0 ∨ operand < 1 then .error (.exception .outOfRange)
  else if (fu.pipelines i).latency ≤ cycle then .ok fu
  else if isTooLate ((fu.pipelines i).firstCycleWithoutOperandUse operand cycle.toNat) then
    .error (.exception .general)
  else
    .ok (fu.setPipeline i (((fu.pipelines i).update cycle.toNat (cycle.toNat + 1)
      (removeOperand operand)).adjustLatency 0))

/-- Sets of pipeline elements are sorted by name, the greatest one first. -/
def removeAllResourceUses (fu : PipelineUnit n) (i : Fin n) : PipelineUnit n :=
  ((fu.pipelines i).usedResources.sort fun a b => b ≤ a).foldl cleanup (fu.setPipeline i ⟨[]⟩)

end PipelineUnit

/-- What a range of cycles in a saved pipeline is about. -/
inductive Use where
  | resource (name : String)
  | read (operand : Int)
  | write (operand : Int)
deriving DecidableEq, Repr

namespace ExecutionPipeline

/-- The uses of one kind in the order in which they are saved. -/
def usesOf (p : ExecutionPipeline) (uses : CycleUsage → List Use) : List (Use × Nat) :=
  p.usage.zipIdx.flatMap fun cycle => (uses cycle.1).map fun use => (use, cycle.2)

/-- The children of the state: one for each range of cycles in which `saveResourceUse` and
`saveOperandUse` find the same use. -/
def saveState (p : ExecutionPipeline) : List (UseRange Use) :=
  UseRange.recordAll
    (p.usesOf (fun u => (u.resources.sort fun a b => b ≤ a).map .resource) ++
      p.usesOf (fun u => u.reads.sort.map .read) ++
      p.usesOf (fun u => u.writes.sort.map .write)) []

/-- All uses in the order in which they are saved. -/
def savedUses (p : ExecutionPipeline) : List (Use × Nat) :=
  p.usesOf (fun u => (u.resources.sort fun a b => b ≤ a).map .resource) ++
    p.usesOf (fun u => u.reads.sort.map .read) ++ p.usesOf (fun u => u.writes.sort.map .write)

end ExecutionPipeline

namespace PipelineUnit

def loadUse (fu : PipelineUnit n) (i : Fin n) (range : UseRange Use) : Outcome (PipelineUnit n) :=
  match range.key with
  | .resource name => fu.addResourceUse i name range.start range.cycles
  | .read operand => fu.addPortRead i operand range.start range.cycles
  | .write operand => fu.addPortWrite i operand range.start range.cycles

/-- The exceptions of the calls become `ObjectStateLoadingException`. -/
def loadState (fu : PipelineUnit n) (i : Fin n) (state : List (UseRange Use)) :
    Outcome (PipelineUnit n) :=
  match (UseRange.sortByStart state).foldlM (fun fu range => fu.loadUse i range)
      (fu.removeAllResourceUses i) with
  | .error (.exception _) => .error (.exception .general)
  | r => r

end PipelineUnit

end MOM

end OpenAsip
