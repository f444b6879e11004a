import OpenAsip.ITemplateFits

namespace OpenAsip
set_option autoImplicit true

namespace ITemplate
section Records
variable {ν : Type} {m : Machine} {program : Program ν} {s s' : State ν}
variable {t t' : InstructionTemplate} {imm : Immediate}

@[simp] theorem assignResource_instructions :
    (assignResource s t c).instructions = s.instructions := by
  rw [assignResource]; split <;> rfl

@[simp] theorem assignResource_immediate : (assignResource s t c).immediate = s.immediate := by
  rw [assignResource]; split <;> rfl

@[simp] theorem assignResource_cycle : (assignResource s t c).cycle = s.cycle := by
  rw [assignResource]; split <;> rfl

@[simp] theorem assignResource_immediateCycles :
    (assignResource s t c).immediateCycles = s.immediateCycles := by
  rw [assignResource]; split <;> rfl

@[simp] theorem unassignResource_instructions :
    (unassignResource s t c).instructions = s.instructions := by
  rw [unassignResource]; split <;> rfl

@[simp] theorem unassignResource_immediate : (unassignResource s t c).immediate = s.immediate := by
  rw [unassignResource]; split <;> rfl

@[simp] theorem unassignResource_cycle : (unassignResource s t c).cycle = s.cycle := by
  rw [unassignResource]; split <;> rfl

@[simp] theorem unassignResource_immediateCycles :
    (unassignResource s t c).immediateCycles = s.immediateCycles := by
  rw [unassignResource]; split <;> rfl

@[simp] theorem setInstruction_self (s : State ν) (c : Nat) (ins : Instruction ν) :
    (s.setInstruction c ins).instructions c = some ins :=
  Function.update_self ..

theorem setRecord_ne (s : State ν) (name : String) (count : Nat) (hc : c' ≠ c) (name' : String) :
    (s.setRecord name c count).resourceRecord name' c' = s.resourceRecord name' c' := by
  by_cases hn : name' = name
  · subst hn
    simp only [State.setRecord, Function.update_self, Function.update_of_ne hc]
  · simp only [State.setRecord, Function.update_of_ne hn]

theorem setRecord_self (s : State ν) (name : String) (c count : Nat) (name' : String) :
    (s.setRecord name c count).resourceRecord name' c =
      if name' = name then count else s.resourceRecord name' c := by
  split
  · rename_i hn
    subst hn
    simp only [State.setRecord, Function.update_self]
  · rename_i hn
    simp only [State.setRecord, Function.update_of_ne hn]

/-- A template resource only changes its counter of the one cycle. -/
theorem assignResource_ne (hc : c' ≠ c) (name : String) :
    (assignResource s t c).resourceRecord name c' = s.resourceRecord name c' := by
  rw [assignResource]
  split
  · rfl
  · exact setRecord_ne s t.name 1 hc name

theorem unassignResource_ne (hc : c' ≠ c) (name : String) :
    (unassignResource s t c).resourceRecord name c' = s.resourceRecord name c' := by
  rw [unassignResource]
  split
  · exact setRecord_ne s t.name _ hc name
  · rfl

/-- Of the template resources exactly the given one is in use in the cycle. -/
def Marked (m : Machine) (s : State ν) (c : Nat) (o : Option InstructionTemplate) : Prop :=
  ∀ t ∈ m.templates, s.resourceRecord t.name c = if o = some t then 1 else 0

theorem Machine.name_inj (ht : t ∈ m.templates) (ht' : t' ∈ m.templates)
    (hn : t.name = t'.name) : t = t' :=
  List.inj_on_of_nodup_map m.names_nodup ht ht' hn

theorem Marked.congr (h : Marked m s c o)
    (hr : ∀ name, s'.resourceRecord name c = s.resourceRecord name c) : Marked m s' c o :=
  fun t ht => (hr t.name).trans (h t ht)

theorem Marked.inUse (h : Marked m s c o) (ht : t ∈ m.templates) :
    isInUse s t c ↔ o = some t := by
  rw [isInUse, h t ht]
  split
  · rename_i ho
    simp only [ho, ne_eq, one_ne_zero, not_false_eq_true]
  · rename_i ho
    simp only [ho, ne_eq, not_true_eq_false]

theorem Marked.unassignResource (h : Marked m s c (some t)) (ht : t ∈ m.templates) :
    Marked m (unassignResource s t c) c none := by
  intro t' ht'
  rw [ITemplate.unassignResource, if_pos ((h.inUse ht).2 rfl), setRecord_self, h t ht, if_pos rfl,
    h t' ht']
  split
  · rfl
  · rename_i hn
    rw [if_neg, if_neg]
    · exact nofun
    · rintro ⟨⟩
      exact hn rfl

theorem Marked.assignResource (h : Marked m s c none) (ht : t ∈ m.templates) :
    Marked m (assignResource s t c) c (some t) := by
  intro t' ht'
  rw [ITemplate.assignResource, if_neg (mt (h.inUse ht).1 nofun), setRecord_self, h t' ht']
  by_cases hn : t'.name = t.name
  · rw [if_pos hn, m.name_inj ht' ht hn, if_pos rfl]
  · rw [if_neg hn, if_neg nofun, if_neg]
    rintro ⟨⟩
    exact hn rfl

/-- A template that is in use already is not counted again. -/
theorem Marked.assignResource_eq (h : Marked m s c (some t)) (ht : t ∈ m.templates) :
    ITemplate.assignResource s t c = s := by
  rw [ITemplate.assignResource, if_pos ((h.inUse ht).2 rfl)]

def movesAt (s : State ν) (c : Nat) : List (ν × String) :=
  match s.instructions c with
  | some ins => ins.moves
  | none => []

def nodesAt (s : State ν) (c : Nat) : List ν :=
  match s.instructions c with
  | some ins => ins.immediates
  | none => []

theorem movesAt_update (h : s'.instructions = Function.update s.instructions c (some ins)) :
    movesAt s' c' = if c' = c then ins.moves else movesAt s c' := by
  rw [movesAt, movesAt, h]
  by_cases hc : c' = c
  · rw [if_pos hc, hc, Function.update_self]
  · rw [if_neg hc, Function.update_of_ne hc]

theorem nodesAt_update (h : s'.instructions = Function.update s.instructions c (some ins)) :
    nodesAt s' c' = if c' = c then ins.immediates else nodesAt s c' := by
  rw [nodesAt, nodesAt, h]
  by_cases hc : c' = c
  · rw [if_pos hc, hc, Function.update_self]
  · rw [if_neg hc, Function.update_of_ne hc]

theorem movesAt_some (h : s.instructions c = some ins) : movesAt s c = ins.moves := by
  rw [movesAt, h]

theorem nodesAt_some (h : s.instructions c = some ins) : nodesAt s c = ins.immediates := by
  rw [nodesAt, h]

theorem nodesAt_none (h : s.instructions c = none) : nodesAt s c = [] := by
  rw [nodesAt, h]

theorem movesAt_none (h : s.instructions c = none) : movesAt s c = [] := by
  rw [movesAt, h]

theorem busesAt_eq : busesAt s c = (movesAt s c).map Prod.snd := by
  rw [busesAt, movesAt]
  cases s.instructions c <;> rfl

theorem immediatesAt_eq : immediatesAt s c = (nodesAt s c).map s.immediate := by
  rw [immediatesAt, nodesAt]
  cases s.instructions c <;> rfl

theorem mem_findITemplates {buses : List String} {l : List Immediate} :
    t ∈ findITemplates m s c buses l ↔
      t ∈ m.templates ∧ m.fits t (buses ++ busesAt s c) (l ++ immediatesAt s c) := by
  rw [findITemplates, List.mem_insertionSort, List.mem_filter]

/-- An instruction that its template can carry. -/
structure Sound (m : Machine) (s : State ν) (ins : Instruction ν) : Prop where
  template : ins.template ∈ m.templates
  buses : ∀ mv ∈ ins.moves, mv.2 ∈ m.buses
  fits : m.fits ins.template (ins.moves.map Prod.snd) (ins.immediates.map s.immediate)

theorem Sound.alike (h : Sound m s ins)
    (ha : ∀ n ∈ ins.immediates, Alike m (s.immediate n) (s'.immediate n)) : Sound m s' ins :=
  ⟨h.template, h.buses, by rw [fits_alike ha]; exact h.fits⟩

theorem Sound.units_nodup (h : Sound m s ins) :
    (ins.immediates.map fun n => (s.immediate n).unit).Nodup := by
  have hn := (fits_iff.1 h.fits).2.1
  rwa [List.map_map] at hn

theorem Sound.nodup (h : Sound m s ins) : ins.immediates.Nodup := h.units_nodup.of_map _

/-- The immediate of a node stands for the constant of the node. -/
structure Constant (m : Machine) (k : TerminalImmediate) (imm : Immediate) : Prop where
  number : ∀ v, k = .value v → ∃ v', imm.value = .value v' ∧
    number (m.extensionMode imm.unit) v' = number (m.extensionMode imm.unit) v
  reference : (∀ v, k ≠ .value v) → imm.value = k

theorem Constant.refl (m : Machine) (k : TerminalImmediate) (unit : String) (index : Nat) :
    Constant m k ⟨k, unit, index⟩ :=
  ⟨fun v hv => ⟨v, hv, rfl⟩, fun _ => rfl⟩

theorem Constant.alike (h : Constant m k imm) (ha : Alike m imm imm') : Constant m k imm' where
  number v hv := by
    obtain ⟨v', hv', he⟩ := h.number v hv
    obtain ⟨v'', hv'', he'⟩ := ha.number v' hv'
    rw [ha.unit]
    exact ⟨v'', hv'', he'.trans he⟩
  reference hr := by
    have he := h.reference hr
    exact (ha.reference (he ▸ hr)).trans he

/-- Every instruction fits its template, the resource of which is in use and no other one. -/
structure Fitting (m : Machine) (program : Program ν) (s : State ν) : Prop where
  sound : ∀ c ins, s.instructions c = some ins → Sound m s ins
  marked : ∀ c, Marked m s c ((s.instructions c).map Instruction.template)
  constant : ∀ n, Constant m (program.constant n) (s.immediate n)

/-- One instruction is replaced, and the immediates elsewhere stay alike. -/
theorem Fitting.replace (h : Fitting m program s)
    (hins : s'.instructions = Function.update s.instructions c (some ins))
    (hsound : Sound m s' ins) (hmarked : Marked m s' c (some ins.template))
    (hrecord : ∀ c', c' ≠ c → ∀ name, s'.resourceRecord name c' = s.resourceRecord name c')
    (halike : ∀ c' ins', c' ≠ c → s.instructions c' = some ins' → ∀ n ∈ ins'.immediates,
      Alike m (s.immediate n) (s'.immediate n))
    (hconst : ∀ n, Constant m (program.constant n) (s'.immediate n)) :
    Fitting m program s' := by
  refine ⟨fun c' ins' hc' => ?_, fun c' => ?_, hconst⟩
  · by_cases hc : c' = c
    · subst hc
      rw [hins, Function.update_self] at hc'
      cases hc'
      exact hsound
    · rw [hins, Function.update_of_ne hc] at hc'
      exact (h.sound c' ins' hc').alike (halike c' ins' hc hc')
  · by_cases hc : c' = c
    · subst hc
      rw [hins, Function.update_self]
      exact hmarked
    · rw [hins, Function.update_of_ne hc]
      exact (h.marked c').congr (hrecord c' hc)

theorem Fitting.buses (h : Fitting m program s) : ∀ mv ∈ movesAt s c, mv.2 ∈ m.buses := by
  cases hi : s.instructions c with
  | none => rw [movesAt_none hi]; exact nofun
  | some ins => rw [movesAt_some hi]; exact (h.sound c ins hi).buses

theorem mem_nodesAt (h : n ∈ nodesAt s c) : ∃ ins, s.instructions c = some ins ∧ n ∈ ins.immediates := by
  cases hi : s.instructions c with
  | none => rw [nodesAt_none hi] at h; cases h
  | some ins => exact ⟨ins, rfl, by rwa [nodesAt_some hi] at h⟩

end Records
end ITemplate
end OpenAsip
