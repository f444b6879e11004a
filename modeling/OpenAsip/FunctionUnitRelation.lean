import OpenAsip.FunctionUnitCopies
import OpenAsip.FunctionUnitEquality

namespace OpenAsip
set_option autoImplicit true

namespace MOM

namespace FunctionUnit

/-- The pipelines of the operations with the same name use the same elements and read and write the
same operands in the same cycles. -/
structure SameUses (fu other : FunctionUnit) : Prop where
  names : (fu.operations.map HWOperation.name).Perm (other.operations.map HWOperation.name)
  uses : ∀ op ∈ fu.operations, ∀ op' ∈ other.operations, op'.name = op.name →
    ∀ k c, op.pipeline.Uses k c ↔ op'.pipeline.Uses k c

/-- No operand is read in one unit in a cycle in which it is written in the other one. -/
def NotCrossed (fu other : FunctionUnit) : Prop :=
  ∀ op ∈ fu.operations, ∀ op' ∈ other.operations, op'.name = op.name →
    ∀ operand c, op.pipeline.Uses (.read operand) c → ¬ op'.pipeline.Uses (.write operand) c

theorem mem_operands {p : ExecutionPipeline} : operand ∈ (p.usageAt c).operands ↔
    p.Uses (.read operand) c ∨ p.Uses (.write operand) c := Finset.mem_union

theorem Agree.operands_usageAt {fu other : FunctionUnit} (h : fu.Agree other)
    (hop : op ∈ fu.operations) (hop' : op' ∈ other.operations) (hname : op'.name = op.name)
    (c : Nat) : (op.pipeline.usageAt c).operands = (op'.pipeline.usageAt c).operands := by
  have hgetD : ∀ p : ExecutionPipeline,
      (p.usageAt c).operands = (p.usage.map CycleUsage.operands).getD c ∅ := by
    intro p
    have hempty : CycleUsage.empty.operands = ∅ := rfl
    rw [ExecutionPipeline.usageAt, ← hempty, List.getD_map]
  rw [hgetD, hgetD, h.operands op hop op' hop' hname]

end FunctionUnit

namespace MachineUnit
open FunctionUnit
variable {f g : MachineUnit}

theorem uses_read (h : f.Agree g.toFunctionUnit) (hcross : f.NotCrossed g.toFunctionUnit)
    (hop : op ∈ f.operations) (hop' : op' ∈ g.operations) (hname : op'.name = op.name)
    (huse : op.pipeline.Uses (.read operand) c) : op'.pipeline.Uses (.read operand) c := by
  have hmem := mem_operands.2 (.inl huse)
  rw [h.operands_usageAt hop hop' hname, mem_operands] at hmem
  exact hmem.resolve_right (hcross op hop op' hop' hname operand c huse)

theorem uses_write (h : f.Agree g.toFunctionUnit) (hcross : g.NotCrossed f.toFunctionUnit)
    (hop : op ∈ f.operations) (hop' : op' ∈ g.operations) (hname : op'.name = op.name)
    (huse : op.pipeline.Uses (.write operand) c) : op'.pipeline.Uses (.write operand) c := by
  have hmem := mem_operands.2 (.inr huse)
  rw [h.operands_usageAt hop hop' hname, mem_operands] at hmem
  refine hmem.resolve_left ?_
  intro hread
  exact hcross op' hop' op hop hname.symm operand c hread huse

theorem sameUses_of_agree (hf : f.Plain) (hg : g.Plain) (h : f.Agree g.toFunctionUnit)
    (hcross : f.NotCrossed g.toFunctionUnit) (hcross' : g.NotCrossed f.toFunctionUnit) :
    f.SameUses g.toFunctionUnit := by
  refine ⟨h.names, ?_⟩
  intro op hop op' hop' hname k c
  cases k with
  | resource name =>
    constructor
    · intro huse
      exact ((f.noResources hf.noElements op hop).2 name c huse).elim
    · intro huse
      exact ((g.noResources hg.noElements op' hop').2 name c huse).elim
  | read operand =>
    exact ⟨uses_read h hcross hop hop' hname,
      uses_read h.symm hcross' hop' hop hname.symm⟩
  | write operand =>
    exact ⟨uses_write h hcross' hop hop' hname,
      uses_write h.symm hcross hop' hop hname.symm⟩

theorem notCrossed_of_sameUses (h : f.SameUses g.toFunctionUnit) :
    f.NotCrossed g.toFunctionUnit := by
  intro op hop op' hop' hname operand c hread hwrite
  rw [← h.uses op hop op' hop' hname] at hwrite
  exact (f.sound op hop).direction (.read operand) (.write operand) c c rfl hread hwrite

/-- A plain unit is copied as it is. -/
theorem copy_of_plain (h : f.Plain) : f.copy = .ok f.toFunctionUnit := by
  rw [copy_eq h.noElements, loadPorts_ok h.opcodes]
  refine ⟨⟨fun _ hp => (List.not_mem_nil hp).elim, h.oneTrigger⟩, ?_⟩
  have hports : (fresh (f.ports.map FUPort.loaded) f.operations).ports = f.ports := by
    rw [fresh, List.map_map]
    apply (List.map_congr_left ?_).trans (List.map_id f.ports)
    intro port hport
    change (⟨port.name, port.width, port.triggers, port.triggers,
      f.updatedBindingString port.name⟩ : FUPort) = port
    rw [← h.fresh port hport]
    exact congrArg (fun setsOpcode => { port with setsOpcode := setsOpcode })
      (h.opcodes port hport).symm
  have hunit : (⟨f.ports, f.pipelineElements, f.operations, f.addressSpace⟩ : FunctionUnit) =
      f.toFunctionUnit := rfl
  rw [← hunit, h.noElements, h.noAddressSpace]
  exact congrArg (fun ports => (⟨ports, [], f.operations, none⟩ : FunctionUnit)) hports

theorem plain_of_copy (hrefl : f.isArchitectureEqual f.toFunctionUnit true = .ok true)
    (hcopy : f.copy = .ok f') (h : f.isArchitectureEqual f' true = .ok true) : f.Plain := by
  obtain ⟨hself, m, _, hm, -⟩ := isArchitectureEqual_ok.1 hrefl
  have hempty : f.pipelineElements = [] := by
    apply List.eq_nil_iff_forall_not_mem.2
    intro name hname
    exact hself.elements name hname hname
  rw [copy_eq hempty] at hcopy
  obtain ⟨hload, rfl⟩ := hcopy
  obtain ⟨hchecks, -⟩ := isArchitectureEqual_ok.1 h
  have hports := hchecks.ports
  rw [fresh, List.map_map, List.forall₂_map_right_iff, List.forall₂_same] at hports
  have hopcodes : ∀ port ∈ f.ports, port.setsOpcode = port.triggers :=
    fun port hport => (FUPort.isArchitectureEqual_iff.1 (hports port hport)).2.1
  refine ⟨hempty, hchecks.addressSpace, hopcodes, ((loadPorts_ok hopcodes).1 hload).2, ?_,
    ((resourceVectorSet_ok f).1 hm).1⟩
  intro port hport
  exact (FUPort.isArchitectureEqual_iff.1 (hports port hport)).2.2.2

/-- What is claimed of the comparison of the units. -/
structure RightOn (units : Set MachineUnit) : Prop where
  refl : ∀ f ∈ units, f.isArchitectureEqual f.toFunctionUnit true = .ok true
  copy : ∀ f ∈ units, ∃ f', f.copy = .ok f' ∧ f.isArchitectureEqual f' true = .ok true
  symm : ∀ f ∈ units, ∀ g ∈ units, f.isArchitectureEqual g.toFunctionUnit true = .ok true →
    g.isArchitectureEqual f.toFunctionUnit true = .ok true
  trans : ∀ f ∈ units, ∀ g ∈ units, ∀ h ∈ units,
    f.isArchitectureEqual g.toFunctionUnit true = .ok true →
    g.isArchitectureEqual h.toFunctionUnit true = .ok true →
    f.isArchitectureEqual h.toFunctionUnit true = .ok true
  sound : ∀ f ∈ units, ∀ g ∈ units, f.isArchitectureEqual g.toFunctionUnit true = .ok true →
    f.SameUses g.toFunctionUnit

theorem rightOn_iff (units : Set MachineUnit) : RightOn units ↔
    (∀ f ∈ units, f.Plain) ∧ ∀ f ∈ units, ∀ g ∈ units, f.Agree g.toFunctionUnit →
      f.NotCrossed g.toFunctionUnit := by
  constructor
  · intro h
    have hplain : ∀ f ∈ units, f.Plain := by
      intro f hf
      obtain ⟨f', hcopy, hequal⟩ := h.copy f hf
      exact plain_of_copy (h.refl f hf) hcopy hequal
    refine ⟨hplain, ?_⟩
    intro f hf g hg hagree
    apply notCrossed_of_sameUses
    exact h.sound f hf g hg ((isArchitectureEqual_iff (hplain f hf) (hplain g hg)).2 hagree)
  · rintro ⟨hplain, hcross⟩
    have heq : ∀ f ∈ units, ∀ g ∈ units,
        f.isArchitectureEqual g.toFunctionUnit true = .ok true ↔ f.Agree g.toFunctionUnit :=
      fun f hf g hg => isArchitectureEqual_iff (hplain f hf) (hplain g hg)
    constructor
    · intro f hf
      exact (heq f hf f hf).2 f.agree_refl
    · intro f hf
      exact ⟨f.toFunctionUnit, copy_of_plain (hplain f hf), (heq f hf f hf).2 f.agree_refl⟩
    · intro f hf g hg h
      exact (heq g hg f hf).2 ((heq f hf g hg).1 h).symm
    · intro f hf g hg k hk h h'
      exact (heq f hf k hk).2 (((heq f hf g hg).1 h).trans ((heq g hg k hk).1 h'))
    · intro f hf g hg h
      have hagree := (heq f hf g hg).1 h
      exact sameUses_of_agree (hplain f hf) (hplain g hg) hagree (hcross f hf g hg hagree)
        (hcross g hg f hf hagree.symm)

/-- A multiplication that keeps an element of the unit busy. -/
def mulPipeline : ExecutionPipeline :=
  ⟨[⟨{"mul"}, {1, 2}, ∅⟩, ⟨{"mul"}, ∅, ∅⟩, ⟨∅, ∅, {3}⟩]⟩

theorem sound_mulPipeline : mulPipeline.Sound := by
  let calls : List PipelineUnit.Call := [.addPortRead 2 0 1, .addPortRead 1 0 1,
    .addResourceUse "mul" 0 2, .addPortWrite 3 2 1]
  have hcalls : (do
      let fu ← calls.foldlM (fun (fu : PipelineUnit 1) call => fu.call 0 call) (PipelineUnit.new 1)
      .ok (fu.pipelines 0)) = .ok mulPipeline := by
    decide +kernel
  obtain ⟨fu, hok, hpipeline⟩ := Except.bind_ok hcalls
  rw [← Except.ok.inj hpipeline]
  exact (foldlM_invariant (fun _ _ _ hinv hcall => PipelineUnit.Inv.call hinv hcall)
    (PipelineUnit.inv_new 1) hok).sound 0

def multiplier : MachineUnit where
  ports := [⟨"trigger", 32, true, true, "mul.1"⟩, ⟨"operand", 32, false, false, "mul.2"⟩,
    ⟨"result", 32, false, false, "mul.3"⟩]
  pipelineElements := ["mul"]
  operations := [⟨"mul", [(1, "trigger"), (2, "operand"), (3, "result")], mulPipeline⟩]
  addressSpace := none
  valid_names := by decide +kernel
  lower_names := by decide +kernel
  nodup_names := by decide +kernel
  nodup_portNames := by decide +kernel
  sorted_operands := by decide +kernel
  operand_pos := by decide +kernel
  nodup_ports := by decide +kernel
  mem_ports := by decide +kernel
  sound := by
    intro op hop
    rw [List.mem_singleton.1 hop]
    exact sound_mulPipeline
  mem_elements := by decide +kernel

theorem not_rightOn_multiplier : ¬ RightOn {multiplier} := by
  intro h
  have hrefl := h.refl multiplier rfl
  have hfalse : multiplier.isArchitectureEqual multiplier.toFunctionUnit true = .ok false := by
    decide +kernel
  rw [hfalse] at hrefl
  cases hrefl

end MachineUnit

end MOM

end OpenAsip
