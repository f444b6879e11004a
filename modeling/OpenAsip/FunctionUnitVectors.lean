import OpenAsip.FunctionUnitBindings

namespace OpenAsip
set_option autoImplicit true

namespace MOM
open ConflictDetection (ResourceSet ResourceVector)
open JoinedTexts

/-- The operands that are read or written in a cycle. -/
def CycleUsage.operands (u : CycleUsage) : Finset Int := u.reads ∪ u.writes

theorem map_eq_map_congr {F : α → γ} {G : β → γ} {F' : α → δ} {G' : β → δ} {l : List α}
    {l' : List β} (h : ∀ a ∈ l, ∀ b ∈ l', F a = G b ↔ F' a = G' b) :
    l.map F = l'.map G ↔ l.map F' = l'.map G' := by
  induction l generalizing l' with
  | nil => rw [List.map_nil, List.map_nil, List.nil_eq, List.nil_eq, List.map_eq_nil_iff,
      List.map_eq_nil_iff]
  | cons a l ih =>
    cases l' with
    | nil => rw [List.map_nil, List.map_nil, List.map_eq_nil_iff, List.map_eq_nil_iff]
    | cons b l' =>
      rw [List.map_cons, List.map_cons, List.map_cons, List.map_cons, List.cons_eq_cons,
        List.cons_eq_cons, h a List.mem_cons_self b List.mem_cons_self,
        ih fun c hc d hd => h c (List.mem_cons_of_mem a hc) d (List.mem_cons_of_mem b hd)]

theorem vectorText_congr {l l' : List ResourceSet} (h : l.map joined = l'.map joined) :
    vectorText cycle l = vectorText cycle l' := by
  induction l generalizing l' cycle with
  | nil => rw [List.map_eq_nil_iff.1 h.symm]
  | cons s l ih =>
    cases l' with
    | nil => cases h
    | cons s' l' =>
      obtain ⟨hs, htail⟩ := List.cons.inj h
      rw [vectorText, vectorText, hs, ih htail]

namespace FunctionUnit

/-- Nothing stands between the unit and the comparison of its ports and vectors. -/
structure Plain (fu : FunctionUnit) : Prop where
  noElements : fu.pipelineElements = []
  noAddressSpace : fu.addressSpace = none
  opcodes : ∀ port ∈ fu.ports, port.setsOpcode = port.triggers
  oneTrigger : fu.ports.Pairwise fun p q => ¬ (p.triggers = true ∧ q.triggers = true)
  fresh : ∀ port ∈ fu.ports, port.bindingString = fu.updatedBindingString port.name
  bound : ∀ op ∈ fu.operations, fu.hasPorts op = true

/-- Ports at the same index of two units. -/
structure SamePort (fu other : FunctionUnit) (p q : FUPort) : Prop where
  triggers : p.triggers = q.triggers
  setsOpcode : p.setsOpcode = q.setsOpcode
  width : p.width = q.width
  bindings : fu.bindings p.name = other.bindings q.name

def vector (fu : FunctionUnit) (op : HWOperation) : ResourceVector :=
  ⟨op.pipeline.usage.map (fu.cycleResources op)⟩

/-- What the set of vectors keeps of an operation. -/
def entry (fu : FunctionUnit) (op : HWOperation) : String × ResourceVector :=
  (stringToUpper op.name, fu.vector op)

theorem resourceVector_ok {fu : FunctionUnit} :
    fu.resourceVector op = .ok v ↔ fu.hasPorts op = true ∧ v = fu.vector op := by
  rw [resourceVector]
  split
  · rename_i h
    rw [and_iff_right h]
    constructor
    · intro hok
      cases hok
      rfl
    · rintro rfl
      rfl
  · rename_i h
    constructor
    · intro hok
      cases hok
    · intro hok
      exact (h hok.1).elim

theorem hasPorts_iff {fu : FunctionUnit} : fu.hasPorts op = true ↔
    ∀ u ∈ op.pipeline.usage, ∀ operand ∈ u.operands, ∃ p, fu.operandPort op operand = some p := by
  simp only [hasPorts, List.all_eq_true, decide_eq_true_iff, Option.isSome_iff_exists,
    CycleUsage.operands]

end FunctionUnit

namespace MachineUnit
open FunctionUnit
variable {f g : MachineUnit} {op op' : HWOperation}

theorem nodup_upper (f : MachineUnit) :
    (f.operations.map fun op => stringToUpper op.name).Nodup := by
  have hmap : (f.operations.map fun op => stringToUpper op.name) =
      (f.operations.map HWOperation.name).map stringToUpper := by
    rw [List.map_map]
    rfl
  rw [hmap]
  apply List.Nodup.map_on ?_ f.nodup_names
  intro s hs t ht heq
  obtain ⟨op, hop, rfl⟩ := List.mem_map.1 hs
  obtain ⟨op', hop', rfl⟩ := List.mem_map.1 ht
  exact stringToUpper_inj (f.lower_names op hop) (f.lower_names op' hop') heq

theorem setVectors {fu : FunctionUnit} {l : List HWOperation} {m : StdMap String ResourceVector}
    (hnodup : (l.map fun op => stringToUpper op.name).Nodup)
    (hnew : ∀ op ∈ l, ∀ e ∈ m, e.1 ≠ stringToUpper op.name)
    (hports : ∀ op ∈ l, fu.hasPorts op = true) :
    l.foldlM (fun m op => do
      let v ← fu.resourceVector op
      .ok (setVector m op.name v)) m = .ok ((l.map fu.entry).reverse ++ m) := by
  induction l generalizing m with
  | nil => rfl
  | cons op l ih =>
    rw [List.map_cons, List.nodup_cons] at hnodup
    have hv := resourceVector_ok.2 ⟨hports op List.mem_cons_self, rfl⟩
    have hset : setVector m op.name (fu.vector op) = fu.entry op :: m := by
      rw [setVector, List.filter_eq_self.2]
      · rfl
      · intro e he
        exact decide_eq_true (hnew op List.mem_cons_self e he)
    rw [List.foldlM_cons, hv]
    change l.foldlM _ (setVector m op.name (fu.vector op)) = _
    rw [hset, ih hnodup.2 ?_ fun op' hop' => hports op' (List.mem_cons_of_mem op hop'),
      List.map_cons, List.reverse_cons, List.append_assoc]
    · rfl
    · intro op' hop' e he
      rcases List.mem_cons.1 he with rfl | he
      · intro heq
        apply hnodup.1
        rw [List.mem_map]
        exact ⟨op', hop', heq.symm⟩
      · exact hnew op' (List.mem_cons_of_mem op hop') e he

theorem resourceVectorSet_ok (f : MachineUnit) : f.resourceVectorSet = .ok m ↔
    (∀ op ∈ f.operations, f.hasPorts op = true) ∧ m = (f.operations.map f.entry).reverse := by
  have hset : (∀ op ∈ f.operations, f.hasPorts op = true) →
      f.resourceVectorSet = .ok (f.operations.map f.entry).reverse := by
    intro hports
    rw [resourceVectorSet, setVectors f.nodup_upper (fun _ _ _ he => (List.not_mem_nil he).elim)
      hports, List.append_nil]
  constructor
  · intro hok
    have hports : ∀ op ∈ f.operations, f.hasPorts op = true := by
      intro op hop
      obtain ⟨m, m', hstep⟩ := foldlM_ok_mem hok hop
      obtain ⟨v, hv, -⟩ := Except.bind_ok hstep
      exact (resourceVector_ok.1 hv).1
    rw [hset hports] at hok
    cases hok
    exact ⟨hports, rfl⟩
  · rintro ⟨hports, rfl⟩
    exact hset hports

theorem vectorSetsEqual_iff (f g : MachineUnit) :
    vectorSetsEqual (f.operations.map f.entry).reverse (g.operations.map g.entry).reverse = true ↔
      f.operations.length = g.operations.length ∧ ∀ op ∈ f.operations, ∃ op' ∈ g.operations,
        op'.name = op.name ∧ vectorsEqual (f.vector op) (g.vector op') = true := by
  rw [vectorSetsEqual, Bool.and_eq_true, decide_eq_true_iff, List.length_reverse,
    List.length_reverse, List.length_map, List.length_map, List.all_eq_true]
  apply and_congr_right
  intro _
  have hkeys : ((g.operations.map g.entry).reverse.map Prod.fst).Nodup := by
    rw [List.map_reverse, List.map_map]
    exact List.nodup_reverse.2 g.nodup_upper
  constructor
  · intro hall op hop
    have hany := hall (f.entry op) (List.mem_reverse.2 (List.mem_map_of_mem hop))
    rw [Option.any_eq_true_iff_get] at hany
    obtain ⟨hsome, heq⟩ := hany
    have hfind := Option.some_get hsome
    have hmem := List.mem_of_find?_eq_some hfind.symm
    have hkey := List.find?_some hfind.symm
    rw [List.mem_reverse, List.mem_map] at hmem
    obtain ⟨op', hop', hentry⟩ := hmem
    rw [← hentry] at heq hkey
    rw [decide_eq_true_iff] at hkey
    refine ⟨op', hop', ?_, heq⟩
    apply stringToUpper_inj (g.lower_names op' hop') (f.lower_names op hop)
    exact hkey.trans (stringToUpper_upper op.name)
  · intro hall e he
    obtain ⟨op, hop, rfl⟩ := List.mem_map.1 (List.mem_reverse.1 he)
    obtain ⟨op', hop', hname, heq⟩ := hall op hop
    have hkey : stringToUpper (f.entry op).1 = (g.entry op').1 := by
      rw [entry, entry, stringToUpper_upper, hname]
    have hmem : g.entry op' ∈ (g.operations.map g.entry).reverse :=
      List.mem_reverse.2 (List.mem_map_of_mem hop')
    rw [hkey, find?_of_mem hkeys hmem]
    exact heq

end MachineUnit

end MOM

end OpenAsip
