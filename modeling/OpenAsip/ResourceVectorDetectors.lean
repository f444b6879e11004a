import OpenAsip.BindingStrings
import OpenAsip.ResourceVectors

namespace OpenAsip
set_option autoImplicit true

namespace ConflictDetection
open Reservations

namespace BoundFunctionUnit
variable (fu : BoundFunctionUnit)

/-- A port without operation is a null pointer. -/
def portResource (op : BoundOperation) (operand : Nat) : Outcome String :=
  match op.port operand with
  | some port => .ok ("port:" ++ fu.bindingString port)
  | none => .error .undefined

def cycleResources (op : BoundOperation) (usage : PipelineCycle) : Outcome ResourceSet := do
  let ports ← (usage.opReads ++ usage.opWrites).mapM (fu.portResource op)
  .ok (usage.resourceUsage.map ("res:" ++ ·) ++ ports).toFinset

/-- The constructor from a pipeline. -/
def resourceVector (op : BoundOperation) : Outcome ResourceVector := do
  let resources ← op.pipeline.mapM (fu.cycleResources op)
  .ok ⟨resources⟩

/-- `ResourceVectorSet`. -/
def resourceVectors : Outcome (List ResourceVector) := fu.operations.mapM fu.resourceVector

end BoundFunctionUnit

/-- The state of `ResourceVectorFUResourceConflictDetector`. -/
structure ResourceVectorDetector where
  vectors : List ResourceVector
  compositeVector : ResourceVector

namespace ResourceVectorDetector

def create (fu : BoundFunctionUnit) : Outcome ResourceVectorDetector := do
  let vectors ← fu.resourceVectors
  .ok ⟨vectors, ⟨[]⟩⟩

/-- The composite vector starts one cycle before the issue. -/
def issueOperation (d : ResourceVectorDetector) (id : Nat) :
    Outcome (Bool × ResourceVectorDetector) :=
  match d.vectors[id]? with
  | some operationVector =>
    if d.compositeVector.conflictsWith operationVector 1 then .ok (false, d)
    else .ok (true, { d with compositeVector := d.compositeVector.mergeWith operationVector 1 })
  | none => .error .undefined

def advanceCycle (d : ResourceVectorDetector) : Outcome ResourceVectorDetector :=
  .ok { d with compositeVector := d.compositeVector.shiftLeft }

def detector (fu : BoundFunctionUnit) :
    Detector Fault ResourceVectorDetector (Fin fu.toFunctionUnit.operationCount) where
  issue d id := d.issueOperation id
  advance := advanceCycle

def run (fu : BoundFunctionUnit) (issues : List (Option (Fin fu.toFunctionUnit.operationCount))) :
    Outcome (List Bool) := do
  let d ← create fu
  (detector fu).answers d issues

end ResourceVectorDetector

/-- The operands that pipelines use are bound to ports. -/
def BoundFunctionUnit.OperandsBound (fu : BoundFunctionUnit) : Prop :=
  ∀ op ∈ fu.operations, ∀ usage ∈ op.pipeline, ∀ operand ∈ usage.opReads ++ usage.opWrites,
    ∃ port, op.port operand = some port

section Vectors
variable {fu : BoundFunctionUnit}

/-- A resource of the unit as the vectors write it. -/
def BoundFunctionUnit.resourceName (fu : BoundFunctionUnit) : Resource → String
  | .port name => "port:" ++ fu.bindingString name
  | .element name => "res:" ++ name

theorem mapM_portResource (fu : BoundFunctionUnit) {op : BoundOperation} {operands : List Nat}
    (h : ∀ operand ∈ operands, ∃ port, op.port operand = some port) :
    ∃ ports, operands.mapM (fu.portResource op) = .ok ports ∧ ∀ r, r ∈ ports ↔
      ∃ operand ∈ operands, ∃ port, op.port operand = some port ∧
        "port:" ++ fu.bindingString port = r := by
  induction operands with
  | nil => exact ⟨[], rfl, by simp⟩
  | cons operand operands ih =>
    obtain ⟨port, hport⟩ := h operand List.mem_cons_self
    obtain ⟨ports, he, hmem⟩ := ih fun operand' ho => h operand' (List.mem_cons_of_mem operand ho)
    refine ⟨("port:" ++ fu.bindingString port) :: ports, ?_, fun r => ?_⟩
    · rw [List.mapM_cons, BoundFunctionUnit.portResource, hport, he]
      rfl
    · rw [List.mem_cons, hmem, List.exists_mem_cons_iff]
      simp only [hport, Option.some.injEq, exists_eq_left', eq_comm]

theorem cycleResources_ok (fu : BoundFunctionUnit) {op : BoundOperation} {usage : PipelineCycle}
    (h : ∀ operand ∈ usage.opReads ++ usage.opWrites, ∃ port, op.port operand = some port) :
    ∃ s, fu.cycleResources op usage = .ok s ∧ ∀ r, r ∈ s ↔
      (∃ name ∈ usage.resourceUsage, "res:" ++ name = r) ∨
      ∃ operand ∈ usage.opReads ++ usage.opWrites, ∃ port, op.port operand = some port ∧
        "port:" ++ fu.bindingString port = r := by
  obtain ⟨ports, he, hmem⟩ := mapM_portResource fu h
  refine ⟨_, by rw [BoundFunctionUnit.cycleResources, he]; rfl, fun r => ?_⟩
  rw [List.mem_toFinset, List.mem_append, List.mem_map, hmem]

/-- A vector has the resources that the pipeline uses. -/
theorem resourceVector_ok (fu : BoundFunctionUnit) {op : BoundOperation}
    (h : ∀ usage ∈ op.pipeline, ∀ operand ∈ usage.opReads ++ usage.opWrites,
      ∃ port, op.port operand = some port) :
    ∃ v, fu.resourceVector op = .ok v ∧ ∀ r cycle, v.Uses r cycle ↔
      ∃ usage, op.pipeline[cycle]? = some usage ∧
        ((∃ name ∈ usage.resourceUsage, "res:" ++ name = r) ∨
          ∃ operand ∈ usage.opReads ++ usage.opWrites, ∃ port, op.port operand = some port ∧
            "port:" ++ fu.bindingString port = r) := by
  obtain ⟨resources, he, hall⟩ := Except.mapM_forall₂ fun usage hu =>
    cycleResources_ok fu (h usage hu)
  refine ⟨⟨resources⟩, by rw [BoundFunctionUnit.resourceVector, he]; rfl, fun r cycle => ?_⟩
  rw [ResourceVector.Uses, ResourceVector.usedAt, List.getD_eq_getElem?_getD]
  by_cases hc : cycle < op.pipeline.length
  · have hc' : cycle < resources.length := hall.length_eq ▸ hc
    rw [List.getElem?_eq_getElem hc', List.getElem?_eq_getElem hc]
    simp only [Option.getD_some, Option.some.injEq, exists_eq_left']
    exact hall.get hc hc' r
  · rw [List.getElem?_eq_none (hall.length_eq ▸ Nat.le_of_not_lt hc),
      List.getElem?_eq_none (Nat.le_of_not_lt hc)]
    simp

theorem isPortUsed_iff {op : HWOperation} : op.isPortUsed name cycle = true ↔
    ∃ usage, op.pipeline[cycle]? = some usage ∧
      ∃ operand ∈ usage.opReads ++ usage.opWrites, op.port operand = some name := by
  cases husage : op.pipeline[cycle]? with
  | none => simp [HWOperation.isPortUsed, HWOperation.isPortRead, HWOperation.isPortWritten, husage]
  | some usage =>
    simp only [HWOperation.isPortUsed, HWOperation.isPortRead, HWOperation.isPortWritten,
      HWOperation.isOperandBound, husage, ← List.any_append, List.any_eq_true, decide_eq_true_iff,
      Option.some.injEq, exists_eq_left']

theorem isResourceUsed_iff {op : HWOperation} : op.isResourceUsed name cycle = true ↔
    ∃ usage, op.pipeline[cycle]? = some usage ∧ name ∈ usage.resourceUsage := by
  cases husage : op.pipeline[cycle]? with
  | none => simp [HWOperation.isResourceUsed, husage]
  | some usage => simp [HWOperation.isResourceUsed, husage]

/-- The uses of a vector are those of the operation, under the names of the resources. -/
theorem uses_iff {op : BoundOperation} (hop : op ∈ fu.operations)
    {v : ResourceVector} {i : Fin fu.toFunctionUnit.operationCount}
    (hi : fu.toFunctionUnit.operations.get i = op.toHWOperation)
    (hv : ∀ r cycle, v.Uses r cycle ↔ ∃ usage, op.pipeline[cycle]? = some usage ∧
      ((∃ name ∈ usage.resourceUsage, "res:" ++ name = r) ∨
        ∃ operand ∈ usage.opReads ++ usage.opWrites, ∃ port, op.port operand = some port ∧
          "port:" ++ fu.bindingString port = r)) :
    v.Uses r cycle ↔ ∃ R, fu.resourceName R = r ∧ fu.toFunctionUnit.Uses i R cycle := by
  rw [hv]
  constructor
  · rintro ⟨usage, husage, hr⟩
    have hmem := List.mem_of_getElem? husage
    rcases hr with ⟨name, hname, rfl⟩ | ⟨operand, hoperand, port, hport, rfl⟩
    · refine ⟨.element name, rfl, fu.mem_pipelineElements op hop usage hmem name hname, ?_⟩
      rw [hi, isResourceUsed_iff]
      exact ⟨usage, husage, hname⟩
    · refine ⟨.port port, rfl,
        fu.mem_operationPorts op hop _ (BoundFunctionUnit.port_mem hport), ?_⟩
      rw [hi, isPortUsed_iff]
      exact ⟨usage, husage, operand, hoperand, hport⟩
  · rintro ⟨R, rfl, huse⟩
    cases R with
    | element name =>
      obtain ⟨-, hused⟩ := huse
      rw [hi, isResourceUsed_iff] at hused
      obtain ⟨usage, husage, hname⟩ := hused
      exact ⟨usage, husage, .inl ⟨name, hname, rfl⟩⟩
    | port name =>
      obtain ⟨-, hused⟩ := huse
      rw [hi, isPortUsed_iff] at hused
      obtain ⟨usage, husage, operand, hoperand, hport⟩ := hused
      exact ⟨usage, husage, .inr ⟨operand, hoperand, name, hport, rfl⟩⟩

/-- Different resources in use have different names. -/
theorem resourceName_inj {i j : Fin fu.toFunctionUnit.operationCount}
    (h : fu.toFunctionUnit.Uses i R cycle) (h' : fu.toFunctionUnit.Uses j R' cycle')
    (he : fu.resourceName R = fu.resourceName R') : R = R' := by
  have hbound : ∀ {k : Fin fu.toFunctionUnit.operationCount} {name c},
      fu.toFunctionUnit.Uses k (.port name) c → fu.IsBound name := by
    intro k name c huse
    obtain ⟨-, hused⟩ := huse
    obtain ⟨op, hop, hget⟩ := List.mem_map.1 (List.get_mem fu.toFunctionUnit.operations k)
    rw [← hget, isPortUsed_iff] at hused
    obtain ⟨-, -, operand, -, hport⟩ := hused
    exact ⟨op, hop, operand, hport⟩
  cases R with
  | port name =>
    cases R' with
    | port name' =>
      rw [(hbound h).bindingString_inj (hbound h') ((String.append_right_inj "port:").1 he)]
    | element name' =>
      have hchars := congrArg String.toList he
      simp only [BoundFunctionUnit.resourceName, String.toList_append] at hchars
      exact absurd (congrArg List.head? hchars) (by simp)
  | element name =>
    cases R' with
    | port name' =>
      have hchars := congrArg String.toList he
      simp only [BoundFunctionUnit.resourceName, String.toList_append] at hchars
      exact absurd (congrArg List.head? hchars) (by simp)
    | element name' => rw [(String.append_right_inj "res:").1 he]

/-- The vectors of a unit, by the operations. -/
structure Represents (fu : BoundFunctionUnit) (vectors : List ResourceVector) : Prop where
  length : vectors.length = fu.toFunctionUnit.operationCount
  uses : ∀ (i : Fin fu.toFunctionUnit.operationCount) v, vectors[(i : Nat)]? = some v →
    ∀ r cycle, v.Uses r cycle ↔ ∃ R, fu.resourceName R = r ∧ fu.toFunctionUnit.Uses i R cycle

theorem resourceVectors_ok (h : fu.OperandsBound) :
    ∃ vectors, fu.resourceVectors = .ok vectors ∧ Represents fu vectors := by
  obtain ⟨vectors, he, hall⟩ := Except.mapM_forall₂ fun op hop =>
    resourceVector_ok fu (h op hop)
  have hcount : fu.toFunctionUnit.operationCount = fu.operations.length := by
    rw [FunctionUnit.operationCount, BoundFunctionUnit.toFunctionUnit, List.length_map]
  refine ⟨vectors, he, hall.length_eq.symm.trans hcount.symm, fun i v hi r cycle => ?_⟩
  obtain ⟨hlt, rfl⟩ := List.getElem?_eq_some_iff.1 hi
  have hlt' : (i : Nat) < fu.operations.length := hcount ▸ i.2
  exact uses_iff (List.getElem_mem hlt') (List.getElem_map _) (hall.get hlt' hlt)

end Vectors

/-- The resources of an operation, under their names. -/
def NamedUses (fu : BoundFunctionUnit) (i : Fin fu.toFunctionUnit.operationCount) (r : String)
    (cycle : Nat) : Prop :=
  ∃ R, fu.resourceName R = r ∧ fu.toFunctionUnit.Uses i R cycle

section Names
variable {fu : BoundFunctionUnit} {i j : Fin fu.toFunctionUnit.operationCount}

theorem exists_namedUses : (∃ r, NamedUses fu i r cycle) ↔
    ∃ R, fu.toFunctionUnit.Uses i R cycle := by
  constructor
  · rintro ⟨-, R, -, huse⟩
    exact ⟨R, huse⟩
  · rintro ⟨R, huse⟩
    exact ⟨_, R, rfl, huse⟩

theorem commonUse_namedUses : CommonUse (NamedUses fu) i j distance cycle ↔
    CommonUse fu.toFunctionUnit.Uses i j distance cycle := by
  constructor
  · rintro ⟨r, ⟨R, rfl, huse⟩, R', he, huse'⟩
    obtain rfl := resourceName_inj huse' huse he
    exact ⟨R', huse, huse'⟩
  · rintro ⟨R, huse, huse'⟩
    exact ⟨_, ⟨R, rfl, huse⟩, R, rfl, huse'⟩

theorem collides_namedUses : Collides (NamedUses fu) i j distance ↔
    Collides fu.toFunctionUnit.Uses i j distance := by
  rw [collides_iff_commonUse, collides_iff_commonUse]
  exact exists_congr fun cycle => commonUse_namedUses

theorem noGap_namedUses : NoGap (NamedUses fu) i j distance ↔
    NoGap fu.toFunctionUnit.Uses i j distance := by
  simp only [NoGap, commonUse_namedUses, exists_namedUses]

end Names
end ConflictDetection
end OpenAsip
