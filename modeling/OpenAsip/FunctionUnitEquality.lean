import OpenAsip.FunctionUnitAgreement

namespace OpenAsip
set_option autoImplicit true

namespace MOM

theorem reject_ok {p : Prop} [Decidable p] {x : Outcome Bool} :
    (if p then .ok false else x) = .ok true ↔ ¬ p ∧ x = .ok true := by
  split
  · rename_i h
    constructor
    · intro hok
      cases hok
    · intro hok
      exact (hok.1 h).elim
  · rename_i h
    exact (and_iff_right h).symm

theorem FUPort.isArchitectureEqual_iff {p q : FUPort} : p.isArchitectureEqual q = true ↔
    p.triggers = q.triggers ∧ p.setsOpcode = q.setsOpcode ∧ p.width = q.width ∧
      p.bindingString = q.bindingString := by
  rw [FUPort.isArchitectureEqual, decide_eq_true_iff]

namespace FunctionUnit
variable {fu other : FunctionUnit}

/-- What is checked before the vectors are made. -/
structure PassesChecks (fu other : FunctionUnit) : Prop where
  operationCount : fu.operations.length = other.operations.length
  pipelineElementCount : fu.pipelineElements.length = other.pipelineElements.length
  addressSpace : fu.addressSpace = other.addressSpace
  elements : ∀ name ∈ fu.pipelineElements, name ∉ other.pipelineElements
  ports : List.Forall₂ (fun p q => p.isArchitectureEqual q = true) fu.ports other.ports

theorem isArchitectureEqual_ok : fu.isArchitectureEqual other true = .ok true ↔
    fu.PassesChecks other ∧ ∃ m m', fu.resourceVectorSet = .ok m ∧
      other.resourceVectorSet = .ok m' ∧ vectorSetsEqual m m' = true := by
  have hvectors : (do
      let vectors ← fu.resourceVectorSet
      let vectors' ← other.resourceVectorSet
      .ok (vectorSetsEqual vectors vectors') : Outcome Bool) = .ok true ↔
      ∃ m m', fu.resourceVectorSet = .ok m ∧ other.resourceVectorSet = .ok m' ∧
        vectorSetsEqual m m' = true := by
    constructor
    · intro h
      obtain ⟨m, hm, h⟩ := Except.bind_ok h
      obtain ⟨m', hm', h⟩ := Except.bind_ok h
      exact ⟨m, m', hm, hm', Except.ok.inj h⟩
    · rintro ⟨m, m', hm, hm', h⟩
      rw [hm, hm']
      exact congrArg Except.ok h
  have hports : ¬ ((fu.ports.zip other.ports).any fun pair =>
      !pair.1.isArchitectureEqual pair.2) = true ↔
      ∀ pair ∈ fu.ports.zip other.ports, pair.1.isArchitectureEqual pair.2 = true := by
    rw [Bool.not_eq_true, List.any_eq_false]
    simp only [Bool.not_eq_true', Bool.not_eq_false]
  have helements : ¬ (fu.pipelineElements.any fun name => name ∈ other.pipelineElements) = true ↔
      ∀ name ∈ fu.pipelineElements, name ∉ other.pipelineElements := by
    rw [Bool.not_eq_true, List.any_eq_false]
    simp only [decide_eq_true_iff]
  rw [isArchitectureEqual, reject_ok, reject_ok, reject_ok, reject_ok, reject_ok, reject_ok,
    hvectors, helements]
  simp only [if_true]
  rw [hports]
  simp only [Decidable.not_not]
  constructor
  · rintro ⟨hcount, hlength, helements, hspace, hnone, hall, hv⟩
    exact ⟨⟨hcount, helements, hspace, hnone,
      List.forall₂_iff_zip.2 ⟨hlength, fun {p q} hpq => hall (p, q) hpq⟩⟩, hv⟩
  · rintro ⟨h, hv⟩
    obtain ⟨hlength, hall⟩ := List.forall₂_iff_zip.1 h.ports
    exact ⟨h.operationCount, hlength, h.pipelineElementCount, h.addressSpace, h.elements,
      fun _ hpair => hall hpair, hv⟩

end FunctionUnit

namespace MachineUnit
open FunctionUnit
variable {f g : MachineUnit}

theorem samePorts_iff (hf : f.Plain) (hg : g.Plain) :
    List.Forall₂ (fun p q => p.isArchitectureEqual q = true) f.ports g.ports ↔
      List.Forall₂ (SamePort f.toFunctionUnit g.toFunctionUnit) f.ports g.ports := by
  rw [List.forall₂_iff_zip, List.forall₂_iff_zip]
  apply and_congr_right
  intro _
  have hsame : ∀ p ∈ f.ports, ∀ q ∈ g.ports, p.isArchitectureEqual q = true ↔
      SamePort f.toFunctionUnit g.toFunctionUnit p q := by
    intro p hp q hq
    rw [FUPort.isArchitectureEqual_iff, hf.fresh p hp, hg.fresh q hq]
    constructor
    · rintro ⟨htriggers, hopcode, hwidth, hstring⟩
      exact ⟨htriggers, hopcode, hwidth, bindings_eq hstring⟩
    · intro h
      refine ⟨h.triggers, h.setsOpcode, h.width, ?_⟩
      rw [updatedBindingString, h.bindings]
      rfl
  constructor
  · intro h p q hpq
    exact (hsame p (List.of_mem_zip hpq).1 q (List.of_mem_zip hpq).2).1 (h hpq)
  · intro h p q hpq
    exact (hsame p (List.of_mem_zip hpq).1 q (List.of_mem_zip hpq).2).2 (h hpq)

/-- Units of which each operation has a counterpart have the same operations. -/
theorem names_perm (hcount : f.operations.length = g.operations.length)
    (h : ∀ op ∈ f.operations, ∃ op' ∈ g.operations, op'.name = op.name) :
    (f.operations.map HWOperation.name).Perm (g.operations.map HWOperation.name) := by
  apply List.Subperm.perm_of_length_le
  · apply f.nodup_names.subperm
    intro name hname
    obtain ⟨op, hop, rfl⟩ := List.mem_map.1 hname
    obtain ⟨op', hop', heq⟩ := h op hop
    rw [← heq]
    exact List.mem_map_of_mem hop'
  · rw [List.length_map, List.length_map, hcount]

theorem isArchitectureEqual_iff (hf : f.Plain) (hg : g.Plain) :
    f.isArchitectureEqual g.toFunctionUnit true = .ok true ↔
      f.Agree g.toFunctionUnit := by
  have hvectors : (∃ m m', f.resourceVectorSet = .ok m ∧ g.resourceVectorSet = .ok m' ∧
      vectorSetsEqual m m' = true) ↔
      f.operations.length = g.operations.length ∧ ∀ op ∈ f.operations, ∃ op' ∈ g.operations,
        op'.name = op.name ∧ vectorsEqual (f.vector op) (g.vector op') = true := by
    rw [← vectorSetsEqual_iff]
    constructor
    · rintro ⟨m, m', hm, hm', heq⟩
      rw [resourceVectorSet_ok] at hm hm'
      rw [← hm.2, ← hm'.2]
      exact heq
    · intro heq
      exact ⟨_, _, (resourceVectorSet_ok f).2 ⟨hf.bound, rfl⟩,
        (resourceVectorSet_ok g).2 ⟨hg.bound, rfl⟩, heq⟩
  rw [isArchitectureEqual_ok, hvectors]
  constructor
  · rintro ⟨h, hcount, hall⟩
    have hports := (samePorts_iff hf hg).1 h.ports
    refine ⟨hports, names_perm hcount ?_, ?_⟩
    · intro op hop
      obtain ⟨op', hop', hname, -⟩ := hall op hop
      exact ⟨op', hop', hname⟩
    · intro op hop op' hop' hname
      obtain ⟨op'', hop'', hname'', heq⟩ := hall op hop
      rw [op_ext hop' hop'' (hname.trans hname''.symm)]
      exact (vectorsEqual_iff hf hg hports hop hop'' hname'').1 heq
  · intro h
    have hcount : f.operations.length = g.operations.length := by
      rw [← List.length_map HWOperation.name, h.names.length_eq, List.length_map]
    refine ⟨⟨hcount, ?_, ?_, ?_, (samePorts_iff hf hg).2 h.ports⟩, hcount, ?_⟩
    · rw [hf.noElements, hg.noElements]
    · rw [hf.noAddressSpace, hg.noAddressSpace]
    · intro name hname
      rw [hf.noElements] at hname
      cases hname
    · intro op hop
      have hmem : op.name ∈ g.operations.map HWOperation.name :=
        h.names.mem_iff.1 (List.mem_map_of_mem hop)
      obtain ⟨op', hop', hname⟩ := List.mem_map.1 hmem
      exact ⟨op', hop', hname, (vectorsEqual_iff hf hg h.ports hop hop' hname).2
        (h.operands op hop op' hop' hname)⟩

end MachineUnit

namespace FunctionUnit
variable {fu other third : FunctionUnit}

theorem Agree.symm (h : fu.Agree other) : other.Agree fu := by
  refine ⟨samePorts_symm h.ports, h.names.symm, ?_⟩
  intro op hop op' hop' hname
  exact (h.operands op' hop' op hop hname.symm).symm

theorem samePorts_trans {l l' l'' : List FUPort}
    (h : List.Forall₂ (SamePort fu other) l l') (h' : List.Forall₂ (SamePort other third) l' l'') :
    List.Forall₂ (SamePort fu third) l l'' := by
  induction h generalizing l'' with
  | nil =>
    cases h'
    exact .nil
  | cons hpq _ ih =>
    cases h' with
    | cons hqr htail =>
      refine .cons ⟨hpq.triggers.trans hqr.triggers, hpq.setsOpcode.trans hqr.setsOpcode,
        hpq.width.trans hqr.width, hpq.bindings.trans hqr.bindings⟩ (ih htail)

theorem Agree.trans (h : fu.Agree other) (h' : other.Agree third) : fu.Agree third := by
  refine ⟨samePorts_trans h.ports h'.ports, h.names.trans h'.names, ?_⟩
  intro op hop op'' hop'' hname
  have hmem : op.name ∈ other.operations.map HWOperation.name :=
    h.names.mem_iff.1 (List.mem_map_of_mem hop)
  obtain ⟨op', hop', hname'⟩ := List.mem_map.1 hmem
  exact (h.operands op hop op' hop' hname').trans
    (h'.operands op' hop' op'' hop'' (hname.trans hname'.symm))

end FunctionUnit

theorem MachineUnit.agree_refl (f : MachineUnit) : f.Agree f.toFunctionUnit := by
  refine ⟨List.forall₂_same.2 fun p _ => FunctionUnit.SamePort.refl _ p, .refl _, ?_⟩
  intro op hop op' hop' hname
  rw [MachineUnit.op_ext hop' hop hname]

end MOM

end OpenAsip
