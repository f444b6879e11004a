import Mathlib
import OpenAsip.ConflictAgreement
import OpenAsip.Containers

namespace OpenAsip
set_option autoImplicit true

namespace ConflictDetection

/-- An operation with the map of its operands to ports, in the order of the operands. -/
structure BoundOperation where
  name : String
  operandBinding : List (Nat × String)
  pipeline : List PipelineCycle
deriving DecidableEq

namespace BoundOperation

def port (op : BoundOperation) (operand : Nat) : Option String :=
  (op.operandBinding.find? fun binding => binding.1 = operand).map Prod.snd

/-- The operand that is bound to the port. -/
def io (op : BoundOperation) (port : String) : Option Nat :=
  (op.operandBinding.find? fun binding => binding.2 = port).map Prod.fst

def toHWOperation (op : BoundOperation) : HWOperation := ⟨op.name, op.port, op.pipeline⟩

end BoundOperation

/-- `MachineTester::isValidComponentName`. -/
def isValidComponentName (name : String) : Bool :=
  match name.toList with
  | [] => false
  | c :: l => c.isAlpha && l.all fun c => c.isAlpha || c.isDigit || c = '_' || c = ':'

/-- A function unit as the object model keeps it: names are valid and those of operations differ,
operands are bound to ports of the unit, each port to one operand of an operation, and pipelines use
elements of the unit. -/
structure BoundFunctionUnit where
  operationPorts : List String
  pipelineElements : List String
  operations : List BoundOperation
  valid_names : ∀ op ∈ operations, isValidComponentName op.name = true
  nodup_names : (operations.map BoundOperation.name).Nodup
  nodup_operands : ∀ op ∈ operations, (op.operandBinding.map Prod.fst).Nodup
  nodup_ports : ∀ op ∈ operations, (op.operandBinding.map Prod.snd).Nodup
  mem_operationPorts : ∀ op ∈ operations, ∀ binding ∈ op.operandBinding, binding.2 ∈ operationPorts
  mem_pipelineElements : ∀ op ∈ operations, ∀ usage ∈ op.pipeline, ∀ name ∈ usage.resourceUsage,
    name ∈ pipelineElements

namespace BoundFunctionUnit

def toFunctionUnit (fu : BoundFunctionUnit) : FunctionUnit where
  operationPorts := fu.operationPorts
  pipelineElements := fu.pipelineElements
  operations := fu.operations.map BoundOperation.toHWOperation

/-- The operands that are bound to a port, each after the name of its operation. -/
def bindings (fu : BoundFunctionUnit) (port : String) : List String :=
  fu.operations.filterMap fun op => (op.io port).map fun io => op.name ++ ("." ++ io.repr)

/-- `FUPort::updateBindingString`. The bindings go through a sorted set. -/
def bindingString (fu : BoundFunctionUnit) (port : String) : String :=
  ",".intercalate ((fu.bindings port).dedup.mergeSort fun a b => decide (a ≤ b))

section Names
variable {name : String}

theorem not_mem_of_isValidComponentName (h : isValidComponentName name = true) {c : Char}
    (halpha : c.isAlpha = false) (hdigit : c.isDigit = false) (hother : c ≠ '_' ∧ c ≠ ':') :
    c ∉ name.toList := by
  intro hc
  rw [isValidComponentName] at h
  cases hl : name.toList with
  | nil =>
    rw [hl] at hc
    cases hc
  | cons d l =>
    simp only [hl, Bool.and_eq_true, List.all_eq_true] at h
    rw [hl] at hc
    rcases List.mem_cons.1 hc with rfl | hc
    · rw [halpha] at h
      cases h.1
    · have hall := h.2 c hc
      simp only [halpha, hdigit, hother.1, hother.2, decide_false, Bool.or_self] at hall
      cases hall

theorem not_mem_repr {c : Char} (hdigit : c.isDigit = false) (n : Nat) : c ∉ n.repr.toList := by
  intro hc
  rw [Nat.toList_repr] at hc
  rw [Nat.isDigit_of_mem_toDigits (by decide) (by decide) hc] at hdigit
  cases hdigit

end Names

variable {fu : BoundFunctionUnit}

theorem mem_bindings : binding ∈ fu.bindings port ↔
    ∃ op ∈ fu.operations, ∃ io, op.io port = some io ∧ op.name ++ ("." ++ io.repr) = binding := by
  simp only [bindings, List.mem_filterMap, Option.map_eq_some_iff]

/-- A comma separates the bindings only. -/
theorem comma_not_mem (h : binding ∈ fu.bindings port) : ',' ∉ binding.toList := by
  obtain ⟨op, hop, io, -, rfl⟩ := mem_bindings.1 h
  rw [String.toList_append, String.toList_append, List.mem_append, List.mem_append]
  rintro (hname | hdot | hio)
  · exact not_mem_of_isValidComponentName (fu.valid_names op hop) rfl rfl (by decide) hname
  · revert hdot
    decide
  · exact not_mem_repr rfl io hio

/-- The dot separates the operand from the name. -/
theorem append_dot_inj {name name' suffix suffix' : List Char} (h : '.' ∉ name) (h' : '.' ∉ name')
    (he : name ++ '.' :: suffix = name' ++ '.' :: suffix') : name = name' ∧ suffix = suffix' := by
  induction name generalizing name' with
  | nil =>
    cases name' with
    | nil => exact ⟨rfl, (List.cons.inj he).2⟩
    | cons c name' =>
      obtain ⟨rfl, -⟩ := List.cons.inj he
      exact (h' List.mem_cons_self).elim
  | cons c name ih =>
    cases name' with
    | nil =>
      obtain ⟨rfl, -⟩ := List.cons.inj he
      exact (h List.mem_cons_self).elim
    | cons d name' =>
      obtain ⟨rfl, htail⟩ := List.cons.inj he
      obtain ⟨rfl, hsuffix⟩ := ih (fun hm => h (List.mem_cons_of_mem c hm))
        (fun hm => h' (List.mem_cons_of_mem c hm)) htail
      exact ⟨rfl, hsuffix⟩

theorem binding_inj {op op' : BoundOperation} {io io' : Nat} (hop : op ∈ fu.operations)
    (hop' : op' ∈ fu.operations)
    (h : op.name ++ ("." ++ io.repr) = op'.name ++ ("." ++ io'.repr)) : op = op' ∧ io = io' := by
  have hl := congrArg String.toList h
  simp only [String.toList_append] at hl
  have hdot : ".".toList = ['.'] := rfl
  rw [hdot, List.singleton_append, List.singleton_append] at hl
  obtain ⟨hname, hio⟩ := append_dot_inj
    (not_mem_of_isValidComponentName (fu.valid_names op hop) rfl rfl (by decide))
    (not_mem_of_isValidComponentName (fu.valid_names op' hop') rfl rfl (by decide)) hl
  exact ⟨List.inj_on_of_nodup_map fu.nodup_names hop hop' (String.toList_injective hname),
    Nat.repr_injective (String.toList_injective hio)⟩

theorem bindings_eq (hp : fu.bindings p ≠ []) (hq : fu.bindings q ≠ [])
    (h : fu.bindingString p = fu.bindingString q) (b : String) :
    b ∈ fu.bindings p ↔ b ∈ fu.bindings q := by
  have hsplit : ∀ port, fu.bindings port ≠ [] →
      (fu.bindingString port).toList.splitOn ',' =
        ((fu.bindings port).dedup.mergeSort fun a b => decide (a ≤ b)).map String.toList := by
    intro port hport
    rw [bindingString, String.toList_intercalate]
    apply List.splitOn_intercalate
    · intro l hl
      obtain ⟨binding, hb, rfl⟩ := List.mem_map.1 hl
      rw [List.mem_mergeSort, List.mem_dedup] at hb
      exact comma_not_mem hb
    · intro hnil
      obtain ⟨b, l, hbl⟩ := List.exists_cons_of_ne_nil hport
      have hb : b ∈ (fu.bindings port).dedup.mergeSort fun a b => decide (a ≤ b) := by
        rw [List.mem_mergeSort, List.mem_dedup, hbl]
        exact List.mem_cons_self
      rw [List.map_eq_nil_iff.1 hnil] at hb
      cases hb
  have hchars := congrArg (List.splitOn ',') (congrArg String.toList h)
  have hmap := (hsplit p hp).symm.trans (hchars.trans (hsplit q hq))
  have hlist := List.map_injective_iff.2 (fun _ _ => String.toList_injective) hmap
  have hmem : ∀ port, b ∈ fu.bindings port ↔
      b ∈ (fu.bindings port).dedup.mergeSort fun a b => decide (a ≤ b) := by
    intro port
    rw [List.mem_mergeSort, List.mem_dedup]
  rw [hmem, hlist, ← hmem]

theorem port_mem {op : BoundOperation} (h : op.port operand = some port) :
    (operand, port) ∈ op.operandBinding := by
  obtain ⟨binding, hfind, rfl⟩ := Option.map_eq_some_iff.1 h
  obtain ⟨hmem, rfl⟩ := mem_of_find?_key hfind
  exact hmem

theorem io_mem {op : BoundOperation} (h : op.io port = some operand) :
    (operand, port) ∈ op.operandBinding := by
  obtain ⟨binding, hfind, rfl⟩ := Option.map_eq_some_iff.1 h
  obtain ⟨hmem, rfl⟩ := mem_of_find?_key hfind
  exact hmem

theorem exists_io {op : BoundOperation} (h : op.port operand = some port) :
    ∃ operand', op.io port = some operand' := by
  have hsome : (op.operandBinding.find? fun binding => binding.2 = port).isSome := by
    rw [List.find?_isSome]
    exact ⟨_, port_mem h, decide_eq_true rfl⟩
  obtain ⟨binding, hbinding⟩ := Option.isSome_iff_exists.1 hsome
  exact ⟨binding.1, by rw [BoundOperation.io, hbinding]; rfl⟩

/-- Some operation has an operand at the port. -/
def IsBound (fu : BoundFunctionUnit) (port : String) : Prop :=
  ∃ op ∈ fu.operations, ∃ operand, op.port operand = some port

theorem IsBound.binding (h : fu.IsBound port) : ∃ binding, binding ∈ fu.bindings port := by
  obtain ⟨op, hop, operand, hport⟩ := h
  obtain ⟨io, hio⟩ := exists_io hport
  exact ⟨_, mem_bindings.2 ⟨op, hop, io, hio, rfl⟩⟩

/-- The binding strings tell the bound ports apart. -/
theorem IsBound.bindingString_inj (hp : fu.IsBound p) (hq : fu.IsBound q)
    (h : fu.bindingString p = fu.bindingString q) : p = q := by
  obtain ⟨b, hb⟩ := hp.binding
  obtain ⟨b', hb'⟩ := hq.binding
  have hbq := (bindings_eq (List.ne_nil_of_mem hb) (List.ne_nil_of_mem hb') h b).1 hb
  obtain ⟨op, hop, io, hio, rfl⟩ := mem_bindings.1 hb
  obtain ⟨op', hop', io', hio', he⟩ := mem_bindings.1 hbq
  obtain ⟨rfl, rfl⟩ := binding_inj hop' hop he
  have hsame := List.inj_on_of_nodup_map (fu.nodup_operands op' hop) (io_mem hio) (io_mem hio') rfl
  exact congrArg Prod.snd hsame

end BoundFunctionUnit
end ConflictDetection
end OpenAsip
