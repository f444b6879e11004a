import OpenAsip.ExecutionPipelineRuns
import OpenAsip.FunctionUnitBindings

namespace OpenAsip
set_option autoImplicit true

namespace MOM

namespace FUPort

/-- A port as it is loaded. -/
def loaded (port : FUPort) : FUPort :=
  { port with setsOpcode := port.triggers, bindingString := "" }

end FUPort

namespace FunctionUnit

section Ports
variable {ports acc ports' : List FUPort} {port : FUPort}

theorem loadPort_ok : loadPort ports port = .ok ports' ↔
    ¬ (port.setsOpcode = true ∧ ports.any FUPort.setsOpcode = true) ∧
      ¬ (port.setsOpcode = true ∧ ¬ port.triggers = true) ∧ ports ++ [port.loaded] = ports' := by
  rw [loadPort, Except.check_ok, Except.check_ok, Except.ok.injEq]
  rfl

theorem loadPorts_eq (h : ports.foldlM loadPort acc = .ok ports') :
    ports' = acc ++ ports.map FUPort.loaded := by
  induction ports generalizing acc with
  | nil =>
    cases h
    rw [List.map_nil, List.append_nil]
  | cons port ports ih =>
    rw [List.foldlM_cons] at h
    obtain ⟨acc', hacc, h⟩ := Except.bind_ok h
    rw [ih h, ← (loadPort_ok.1 hacc).2.2, List.append_assoc]
    rfl

/-- Of the ports that are loaded only one may trigger. -/
theorem loadPorts_ok (hopcodes : ∀ port ∈ ports, port.setsOpcode = port.triggers) :
    (∃ ports', ports.foldlM loadPort acc = .ok ports') ↔
      (∀ p ∈ acc, ∀ q ∈ ports, ¬ (p.setsOpcode = true ∧ q.triggers = true)) ∧
        ports.Pairwise fun p q => ¬ (p.triggers = true ∧ q.triggers = true) := by
  induction ports generalizing acc with
  | nil =>
    constructor
    · exact fun _ => ⟨fun _ _ _ hq => (List.not_mem_nil hq).elim, .nil⟩
    · exact fun _ => ⟨acc, rfl⟩
  | cons port ports ih =>
    have hopcode := hopcodes port List.mem_cons_self
    have hstep : loadPort acc port = .ok (acc ++ [port.loaded]) ↔
        ∀ p ∈ acc, ¬ (p.setsOpcode = true ∧ port.triggers = true) := by
      rw [loadPort_ok, hopcode, List.any_eq_true]
      constructor
      · rintro ⟨hone, -, -⟩ p hp ⟨hset, htriggers⟩
        exact hone ⟨htriggers, p, hp, hset⟩
      · intro hone
        refine ⟨?_, fun h => h.2 h.1, rfl⟩
        rintro ⟨htriggers, p, hp, hset⟩
        exact hone p hp ⟨hset, htriggers⟩
    rw [List.pairwise_cons]
    constructor
    · rintro ⟨ports', h⟩
      rw [List.foldlM_cons] at h
      obtain ⟨acc', hacc, h⟩ := Except.bind_ok h
      have heq := (loadPort_ok.1 hacc).2.2
      subst heq
      obtain ⟨hbefore, hpairs⟩ :=
        (ih fun q hq => hopcodes q (List.mem_cons_of_mem port hq)).1 ⟨ports', h⟩
      refine ⟨?_, ?_, hpairs⟩
      · intro p hp q hq
        rcases List.mem_cons.1 hq with rfl | hq
        · exact hstep.1 hacc p hp
        · exact hbefore p (List.mem_append_left _ hp) q hq
      · intro q hq
        exact hbefore port.loaded (List.mem_append_right _ List.mem_cons_self) q hq
    · rintro ⟨hbefore, hone, hpairs⟩
      have hok := hstep.2 fun p hp => hbefore p hp port List.mem_cons_self
      rw [List.foldlM_cons, hok]
      apply (ih fun q hq => hopcodes q (List.mem_cons_of_mem port hq)).2
      refine ⟨?_, hpairs⟩
      intro p hp q hq
      rcases List.mem_append.1 hp with hp | hp
      · exact hbefore p hp q (List.mem_cons_of_mem port hq)
      · rw [List.mem_singleton.1 hp]
        exact hone q hq

end Ports

/-- Binding strings depend on the names of the operations and on their bindings. -/
theorem updatedBindingString_congr {fu other : FunctionUnit}
    (h : (fu.operations.map fun op => (op.name, op.io port)) =
      other.operations.map fun op => (op.name, op.io port)) :
    fu.updatedBindingString port = other.updatedBindingString port := by
  have hmap : ∀ fu : FunctionUnit, fu.bindings port =
      ((fu.operations.map fun op => (op.name, op.io port)).filterMap fun pair =>
        pair.2.map fun io => pair.1 ++ ("." ++ io.repr)).toFinset := by
    intro fu
    rw [List.filterMap_map]
    rfl
  rw [updatedBindingString, updatedBindingString, hmap, hmap, h]

/-- A unit without elements whose binding strings are up to date. -/
def fresh (ports : List FUPort) (operations : List HWOperation) : FunctionUnit where
  ports := ports.map fun port => { port with
    bindingString := updatedBindingString ⟨ports, [], operations, none⟩ port.name }
  pipelineElements := []
  operations := operations
  addressSpace := none

section Bindings
variable {ports : List FUPort} {before : List HWOperation} {name : String}
  {bound rest : List (Int × String)} {binding : Int × String}

/-- An operation while its bindings are loaded. -/
def loading (name : String) (bound : List (Int × String)) : HWOperation := ⟨name, bound, ⟨[]⟩⟩

/-- A binding to another port is not in the binding string. -/
theorem updatedBindingString_other {port : String} (h : port ≠ binding.2) :
    updatedBindingString ⟨ports, [], before ++ [loading name (bound ++ [binding])], none⟩ port =
      updatedBindingString ⟨ports, [], before ++ [loading name bound], none⟩ port := by
  have hio : (loading name (bound ++ [binding])).io port = (loading name bound).io port := by
    rw [HWOperation.io, HWOperation.io, loading, loading, List.find?_append,
      List.find?_cons_of_neg (by rw [decide_eq_true_iff]; exact fun heq => h heq.symm),
      List.find?_nil, Option.or_none]
  apply updatedBindingString_congr
  rw [List.map_append, List.map_append]
  exact congrArg (fun io => before.map (fun op => (op.name, op.io port)) ++ [(name, io)]) hio

/-- An operation without bindings does not change the binding strings. -/
theorem fresh_unbound (ports : List FUPort) (before : List HWOperation) (name : String) :
    { fresh ports before with operations := before ++ [loading name []] } =
      fresh ports (before ++ [loading name []]) := by
  have hstring : ∀ port, updatedBindingString ⟨ports, [], before ++ [loading name []], none⟩ port =
      updatedBindingString ⟨ports, [], before, none⟩ port := by
    intro port
    rw [updatedBindingString, updatedBindingString, bindings, bindings, List.filterMap_append]
    exact congrArg (fun l => joined (List.toFinset l)) (List.append_nil _)
  simp only [fresh, hstring]

theorem any_fresh (ports : List FUPort) (operations : List HWOperation) (name : String) :
    ((fresh ports operations).ports.any fun port => port.name = name) = true ↔
      ∃ port ∈ ports, port.name = name := by
  simp only [fresh, List.any_map, List.any_eq_true, Function.comp_apply, decide_eq_true_iff]

theorem bindPort_fresh (hoperand : binding.1 ∉ bound.map Prod.fst) :
    bindPort (fresh ports (before ++ [loading name bound])) (loading name bound) binding =
      (fresh ports (before ++ [loading name (bound ++ [binding])]),
        loading name (bound ++ [binding])) := by
  have hfilter : bound.filter (fun b => b.1 ≠ binding.1) = bound := by
    apply List.filter_eq_self.2
    intro b hb
    rw [decide_eq_true_iff]
    intro heq
    exact hoperand (heq ▸ List.mem_map_of_mem hb)
  have hlast : (fresh ports (before ++ [loading name bound])).operations.dropLast = before :=
    List.dropLast_concat
  rw [bindPort, hlast]
  simp only [loading, hfilter]
  congr 1
  simp only [fresh, FunctionUnit.mk.injEq, List.map_map, and_self, and_true]
  apply List.map_congr_left
  intro port _
  rw [Function.comp_apply]
  by_cases hport : port.name = binding.2
  · rw [if_pos hport]
    rfl
  · rw [if_neg hport]
    exact congrArg (fun s => { port with bindingString := s })
      (updatedBindingString_other hport).symm

theorem loadBinding_fresh (hport : ∃ port ∈ ports, port.name = binding.2)
    (hpos : 1 ≤ binding.1) (hoperand : binding.1 ∉ bound.map Prod.fst)
    (hfree : binding.2 ∉ bound.map Prod.snd) :
    loadBinding (fresh ports (before ++ [loading name bound]), loading name bound) binding =
      .ok (fresh ports (before ++ [loading name (bound ++ [binding])]),
        loading name (bound ++ [binding])) := by
  have hio : (loading name bound).io binding.2 = none := by
    rw [HWOperation.io, Option.map_eq_none_iff, List.find?_eq_none]
    intro b hb heq
    rw [decide_eq_true_iff] at heq
    exact hfree (heq ▸ List.mem_map_of_mem hb)
  have hoperandFree : (loading name bound).port binding.1 = none := by
    rw [HWOperation.port, Option.map_eq_none_iff, List.find?_eq_none]
    intro b hb heq
    rw [decide_eq_true_iff] at heq
    exact hoperand (heq ▸ List.mem_map_of_mem hb)
  rw [loadBinding, if_neg (Decidable.not_not.2 ((any_fresh ports _ binding.2).2 hport)),
    if_neg, if_neg, if_neg (by omega), bindPort_fresh hoperand]
  · rw [hoperandFree]
    exact Bool.false_ne_true
  · rw [hio]
    exact Bool.false_ne_true

theorem loadBindings_fresh (hports : ∀ binding ∈ rest, ∃ port ∈ ports, port.name = binding.2)
    (hpos : ∀ binding ∈ rest, 1 ≤ binding.1)
    (hoperands : ((bound ++ rest).map Prod.fst).Nodup)
    (hfree : ((bound ++ rest).map Prod.snd).Nodup) :
    rest.foldlM loadBinding (fresh ports (before ++ [loading name bound]), loading name bound) =
      .ok (fresh ports (before ++ [loading name (bound ++ rest)]),
        loading name (bound ++ rest)) := by
  induction rest generalizing bound with
  | nil =>
    rw [List.append_nil]
    rfl
  | cons binding rest ih =>
    have hnew : ∀ {β : Type} (key : Int × String → β),
        ((bound ++ binding :: rest).map key).Nodup → key binding ∉ bound.map key := by
      intro β key hnodup hmem
      rw [List.map_append, List.nodup_append] at hnodup
      exact hnodup.2.2 _ hmem _ (List.mem_map_of_mem List.mem_cons_self) rfl
    rw [List.foldlM_cons, loadBinding_fresh (hports binding List.mem_cons_self)
      (hpos binding List.mem_cons_self) (hnew Prod.fst hoperands) (hnew Prod.snd hfree)]
    rw [List.append_cons bound binding rest] at hoperands hfree ⊢
    exact ih (fun b hb => hports b (List.mem_cons_of_mem binding hb))
      (fun b hb => hpos b (List.mem_cons_of_mem binding hb)) hoperands hfree

end Bindings

section Pipelines
variable {ports : List FUPort} {before : List HWOperation} {op : HWOperation}

/-- No operation uses an element. -/
def NoResources (operations : List HWOperation) : Prop :=
  ∀ op ∈ operations, op.pipeline.Sound ∧ ∀ name c, ¬ op.pipeline.Uses (.resource name) c

theorem inv_fresh (ports : List FUPort) {l : List HWOperation} (h : NoResources l) :
    (fresh ports l).pipelineUnit.Inv := by
  have hmem : ∀ i, (fresh ports l).operations.get i ∈ l := fun i => List.get_mem _ i
  constructor
  · intro i
    exact (h _ (hmem i)).1
  · constructor
    · exact List.nodup_nil
    · intro name
      constructor
      · intro hname
        cases hname
      · rintro ⟨i, c, huse⟩
        exact ((h _ (hmem i)).2 name c huse).elim

theorem noResources_loading (h : NoResources (before ++ [op])) (name : String)
    (bound : List (Int × String)) : NoResources (before ++ [loading name bound]) := by
  intro op' hop'
  rcases List.mem_append.1 hop' with hop' | hop'
  · exact h op' (List.mem_append_left _ hop')
  · rw [List.mem_singleton.1 hop']
    exact ⟨ExecutionPipeline.sound_new, fun name => ExecutionPipeline.not_uses_new _⟩

/-- The pipelines of a unit after one of them has been loaded. -/
structure Reloaded (operations : List HWOperation) (op : HWOperation)
    (unit : PipelineUnit operations.length) (last : Fin operations.length) : Prop where
  inv : unit.Inv
  self : unit.pipelines last = op.pipeline
  others : ∀ i, i ≠ last → unit.pipelines i = (operations.get i).pipeline

theorem ofFn_reloaded {name : String} {bound : List (Int × String)}
    {unit : PipelineUnit (before ++ [loading name bound]).length}
    {last : Fin (before ++ [loading name bound]).length} (hlast : last.val = before.length)
    (h : Reloaded (before ++ [loading name bound]) op unit last) :
    (List.ofFn fun i => { (before ++ [loading name bound]).get i with
      pipeline := unit.pipelines i }) = before ++ [⟨name, bound, op.pipeline⟩] := by
  apply List.ext_getElem
  · rw [List.length_ofFn, List.length_append, List.length_append]
    rfl
  · intro i hi hi'
    rw [List.getElem_ofFn]
    by_cases hbefore : i < before.length
    · rw [h.others, List.get_eq_getElem, List.getElem_append_left hbefore,
        List.getElem_append_left hbefore]
      intro heq
      have hval := congrArg Fin.val heq
      simp only [hlast] at hval
      exact absurd hval (Nat.ne_of_lt hbefore)
    · rw [List.length_append, List.length_singleton] at hi'
      have hval : i = before.length := by omega
      subst hval
      have hself : unit.pipelines ⟨before.length, hlast ▸ last.isLt⟩ = op.pipeline := by
        rw [← h.self]
        congr 1
        exact Fin.ext hlast.symm
      rw [hself, List.get_eq_getElem, List.getElem_concat_length, List.getElem_concat_length]
      · rfl
      · rfl
      · rfl

theorem elements_reloaded {operations : List HWOperation} (h : NoResources operations)
    (hop : ∀ name c, ¬ op.pipeline.Uses (.resource name) c)
    {unit : PipelineUnit operations.length} {last : Fin operations.length}
    (hunit : Reloaded operations op unit last) : unit.elements = [] := by
  apply List.eq_nil_iff_forall_not_mem.2
  intro name hname
  obtain ⟨i, c, huse⟩ := (hunit.inv.exact.mem_iff name).1 hname
  by_cases hi : i = last
  · rw [hi, hunit.self] at huse
    exact hop name c huse
  · rw [hunit.others i hi] at huse
    exact (h _ (List.get_mem _ i)).2 name c huse

/-- The pipeline of the last operation is loaded as it was saved. -/
theorem loadPipeline_fresh (h : NoResources (before ++ [op])) :
    (fresh ports (before ++ [loading op.name op.operandBinding])).loadPipeline
        op.pipeline.saveState =
      .ok (fresh ports (before ++ [op])) := by
  have hop := h op (List.mem_append_right _ List.mem_cons_self)
  have hloading := noResources_loading h op.name op.operandBinding
  have hlength : (fresh ports (before ++ [loading op.name op.operandBinding])).operations.length =
      before.length + 1 := by
    rw [fresh, List.length_append, List.length_singleton]
  have hpos : 0 < (fresh ports (before ++ [loading op.name op.operandBinding])).operations.length :=
    by omega
  obtain ⟨unit, hok, hinv, hpipelines⟩ := PipelineUnit.loadState_saveState
    (inv_fresh ports hloading) ⟨_, Nat.sub_one_lt_of_lt hpos⟩ hop.1
  have hunit : Reloaded (before ++ [loading op.name op.operandBinding]) op unit
      ⟨_, Nat.sub_one_lt_of_lt hpos⟩ := by
    refine ⟨hinv, ?_, ?_⟩
    · rw [hpipelines]
      exact Function.update_self ..
    · intro i hi
      rw [hpipelines]
      exact Function.update_of_ne hi ..
  have hlast : (fresh ports (before ++ [loading op.name op.operandBinding])).operations.length - 1 =
      before.length := by
    omega
  rw [loadPipeline, dif_pos hpos, hok]
  change Except.ok (withPipelines _ unit) = _
  rw [withPipelines, elements_reloaded hloading hop.2 hunit]
  have hops := ofFn_reloaded hlast hunit
  have hstring : ∀ port, updatedBindingString ⟨ports, [], before ++
      [loading op.name op.operandBinding], none⟩ port =
      updatedBindingString ⟨ports, [], before ++ [op], none⟩ port := by
    intro port
    apply updatedBindingString_congr
    rw [List.map_append, List.map_append]
    rfl
  simp only [fresh, hstring, FunctionUnit.mk.injEq, true_and, and_true, Except.ok.injEq]
  exact hops

end Pipelines

end FunctionUnit

namespace MachineUnit
open FunctionUnit
variable {f : MachineUnit} {ports : List FUPort} {before rest : List HWOperation}
  {op : HWOperation}

theorem noResources (h : f.pipelineElements = []) : NoResources f.operations := by
  intro op hop
  refine ⟨f.sound op hop, ?_⟩
  intro name c huse
  have hmem := f.mem_elements op hop _ (ExecutionPipeline.usageAt_mem huse.lt_latency) name huse
  rw [h] at hmem
  cases hmem

theorem loadOperation_fresh (h : f.pipelineElements = [])
    (hports : ports.map FUPort.name = f.ports.map FUPort.name)
    (hbefore : before ++ op :: rest = f.operations) :
    (fresh ports before).loadOperation op = .ok (fresh ports (before ++ [op])) := by
  have hop : op ∈ f.operations := by
    rw [← hbefore]
    exact List.mem_append_right _ List.mem_cons_self
  have hnames := f.nodup_names
  rw [← hbefore, List.map_append, List.nodup_append] at hnames
  have hnew : ¬ ((fresh ports before).operations.any fun op' => op'.name = op.name) = true := by
    rw [List.any_eq_true]
    rintro ⟨op', hop', heq⟩
    rw [decide_eq_true_iff] at heq
    exact hnames.2.2 _ (List.mem_map_of_mem hop') _ (List.mem_map_of_mem List.mem_cons_self) heq
  have hpart : NoResources (before ++ [op]) := by
    intro op' hop'
    apply f.noResources h op'
    rw [← hbefore]
    rcases List.mem_append.1 hop' with hop' | hop'
    · exact List.mem_append_left _ hop'
    · rw [List.mem_singleton.1 hop']
      exact List.mem_append_right _ List.mem_cons_self
  have hbindings := @loadBindings_fresh ports before op.name [] op.operandBinding ?_
    (f.operand_pos op hop) (f.nodup_operands hop) (f.nodup_ports op hop)
  · rw [loadOperation, f.lower_names op hop, if_neg hnew,
      if_neg (Decidable.not_not.2 (f.valid_names op hop))]
    change (do
      let r ← op.operandBinding.foldlM loadBinding
        ({ fresh ports before with operations := before ++ [loading op.name []] },
          loading op.name [])
      r.1.loadPipeline op.pipeline.saveState) = _
    rw [fresh_unbound, hbindings]
    exact loadPipeline_fresh hpart
  · intro binding hbinding
    obtain ⟨port, hport, heq⟩ := f.mem_ports op hop binding hbinding
    have hmem : port.name ∈ ports.map FUPort.name := hports ▸ List.mem_map_of_mem hport
    obtain ⟨port', hport', hname⟩ := List.mem_map.1 hmem
    exact ⟨port', hport', hname.trans heq⟩

theorem loadOperations_fresh (h : f.pipelineElements = [])
    (hports : ports.map FUPort.name = f.ports.map FUPort.name)
    (hbefore : before ++ rest = f.operations) :
    rest.foldlM loadOperation (fresh ports before) = .ok (fresh ports f.operations) := by
  induction rest generalizing before with
  | nil =>
    rw [← hbefore, List.append_nil]
    rfl
  | cons op rest ih =>
    rw [List.foldlM_cons, loadOperation_fresh h hports hbefore]
    apply ih
    rw [List.append_assoc]
    exact hbefore

/-- The copy of a unit without elements. -/
theorem copy_eq (h : f.pipelineElements = []) : f.copy = .ok f' ↔
    (∃ ports, f.ports.foldlM loadPort [] = .ok ports) ∧
      fresh (f.ports.map FUPort.loaded) f.operations = f' := by
  have hload : ∀ ports, f.ports.foldlM loadPort [] = .ok ports →
      f.copy = .ok (fresh (f.ports.map FUPort.loaded) f.operations) := by
    intro ports hok
    have hstart : fresh (f.ports.map FUPort.loaded) [] =
        ⟨f.ports.map FUPort.loaded, [], [], none⟩ := by
      have hempty : ∀ port, updatedBindingString ⟨f.ports.map FUPort.loaded, [], [], none⟩ port =
          "" := by
        intro port
        change joined ∅ = ""
        rw [joined, Finset.sort_empty]
        rfl
      simp only [fresh, hempty, List.map_map]
      rfl
    rw [copy, hok, loadPorts_eq hok, List.nil_append]
    change f.operations.foldlM loadOperation ⟨f.ports.map FUPort.loaded, [], [], none⟩ = _
    rw [← hstart]
    apply loadOperations_fresh h
    · rw [List.map_map]
      rfl
    · exact List.nil_append _
  constructor
  · intro hcopy
    obtain ⟨ports, hok, -⟩ := Except.bind_ok hcopy
    rw [hload ports hok] at hcopy
    exact ⟨⟨ports, hok⟩, Except.ok.inj hcopy⟩
  · rintro ⟨⟨ports, hok⟩, rfl⟩
    exact hload ports hok

end MachineUnit

end MOM

end OpenAsip
