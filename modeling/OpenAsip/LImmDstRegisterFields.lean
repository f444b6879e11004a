import Mathlib.Data.Finset.Card
import Mathlib.Data.List.Nodup
import OpenAsip.Containers
import OpenAsip.InstructionTemplates
import OpenAsip.Outcomes

namespace OpenAsip
set_option autoImplicit true

/-- `std::map::insert` does not make a second pair for a key. -/
theorem StdMap.insert_keys_nodup [BEq κ] [LawfulBEq κ] {m : StdMap κ υ}
    (h : (m.map Prod.fst).Nodup) (key : κ) (value : υ) :
    ((m.insert key value).map Prod.fst).Nodup := by
  rw [StdMap.insert]
  split
  case isTrue => exact h
  case isFalse hkey =>
    rw [List.map_cons, List.nodup_cons]
    refine ⟨?_, h⟩
    intro hmem
    obtain ⟨p, hp, rfl⟩ := List.mem_map.1 hmem
    apply hkey
    rw [List.lookup_isSome_iff]
    exact ⟨p, hp, beq_self_eq_true p.1⟩

theorem StdMap.lookup_insert [BEq κ] [LawfulBEq κ] {m : StdMap κ υ}
    (h : ∀ old, m.lookup key = some old → old = value) :
    (m.insert key value).lookup k = some v ↔ m.lookup k = some v ∨ k = key ∧ v = value := by
  by_cases hk : k = key
  · cases hl : m.lookup key with
    | none =>
      rw [hk, lookup_insert_self hl, hl, Option.some.injEq]
      simp only [reduceCtorEq, false_or, true_and]
      exact eq_comm
    | some old =>
      have hsame : m.insert key value = m := by
        rw [StdMap.insert, hl]
        rfl
      have hold := h old hl
      rw [hsame, hk, hl, hold, Option.some.injEq]
      simp only [true_and]
      constructor
      · intro heq
        exact .inl heq
      · intro heq
        exact heq.elim id Eq.symm
  · rw [lookup_insert_ne hk]
    simp only [hk, false_and, or_false]

/-- `LImmDstRegisterField`: which register of an immediate unit a template writes. -/
structure LImmDstRegisterField where
  width : Nat
  destinationMap : StdMap String String
  keys_nodup : (destinationMap.map Prod.fst).Nodup
deriving DecidableEq

namespace LImmDstRegisterField

def create (width : Nat) : Outcome LImmDstRegisterField :=
  if width < 1 then .error (.exception .outOfRange) else .ok ⟨width, [], .nil⟩

/-- `NotAvailable` stands as `none`. -/
def immediateUnit (field : LImmDstRegisterField) (instructionTemplate : String) : Option String :=
  field.destinationMap.lookup instructionTemplate

def addDestination (field : LImmDstRegisterField) (instructionTemplate immediateUnit : String) :
    Outcome LImmDstRegisterField :=
  if ∃ unit ∈ field.immediateUnit instructionTemplate, unit ≠ immediateUnit then
    .error (.exception .notAvailable)
  else .ok ⟨field.width, field.destinationMap.insert instructionTemplate immediateUnit,
    StdMap.insert_keys_nodup field.keys_nodup _ _⟩

theorem addDestination_of_same {field : LImmDstRegisterField}
    (h : ∀ unit, field.immediateUnit iTemp = some unit → unit = iu) :
    ∃ field', field.addDestination iTemp iu = .ok field' := by
  rw [addDestination, if_neg]
  · exact ⟨_, rfl⟩
  · intro hother
    obtain ⟨unit, hunit, hne⟩ := hother
    exact hne (h unit hunit)

theorem addDestination_ok {field : LImmDstRegisterField}
    (h : field.addDestination iTemp iu = .ok field') :
    field'.width = field.width ∧
      ∀ k v, field'.immediateUnit k = some v ↔
        field.immediateUnit k = some v ∨ k = iTemp ∧ v = iu := by
  rw [addDestination] at h
  split at h
  case isTrue => cases h
  case isFalse hsame =>
    cases h
    refine ⟨rfl, ?_⟩
    intro k v
    apply StdMap.lookup_insert
    intro old hold
    by_contra hne
    exact hsame ⟨old, hold, hne⟩

end LImmDstRegisterField

namespace BEMGenerator
open MathTools ITemplate

structure ImmediateUnit where
  name : String
  numberOfRegisters : Nat
deriving DecidableEq, Repr

/-- The bits of a register index. -/
def ImmediateUnit.indexWidth (iu : ImmediateUnit) : Nat := bitLength (iu.numberOfRegisters - 1)

/-- The long immediates of a target machine. -/
structure ImmediateMachine where
  templates : List InstructionTemplate
  units : List ImmediateUnit
  templates_nodup : (templates.map InstructionTemplate.name).Nodup
  units_nodup : (units.map ImmediateUnit.name).Nodup

namespace ImmediateMachine

def thisRequires (m : ImmediateMachine) (iTemp : InstructionTemplate) : Nat :=
  m.units.countP fun iu => 1 < iu.numberOfRegisters ∧ iTemp.isOneOfDestinations iu.name

def fieldCount (m : ImmediateMachine) : Nat :=
  m.templates.foldl (fun fieldCount iTemp =>
    if fieldCount < m.thisRequires iTemp then m.thisRequires iTemp else fieldCount) 0

def dstUnits (m : ImmediateMachine) (iTemp : InstructionTemplate) : List ImmediateUnit :=
  m.units.filter fun iu => iTemp.isOneOfDestinations iu.name

/-- A multiset is the same for every order of insertion. -/
def requiredSizes (m : ImmediateMachine) (iTemp : InstructionTemplate) :
    StdMultiset (α := Nat) (· ≤ ·) :=
  (m.dstUnits iTemp).foldl (fun sizes iu =>
    if 1 < iu.numberOfRegisters then sizes.insert iu.indexWidth else sizes) .empty

end ImmediateMachine

/-- Increases the widths of the first fields to the sizes. There is a field for each size. -/
def increaseWidths : List Nat → List Nat → Outcome (List Nat)
  | fieldWidths, [] => .ok fieldWidths
  | [], _ :: _ => .error .undefined
  | width :: fieldWidths, size :: sizes => do
    let fieldWidths ← increaseWidths fieldWidths sizes
    .ok ((if width < size then size else width) :: fieldWidths)

def ImmediateMachine.fieldWidths (m : ImmediateMachine) : Outcome (List Nat) :=
  m.templates.foldlM (fun fieldWidths iTemp =>
    increaseWidths fieldWidths (m.requiredSizes iTemp).elems.reverse)
    (List.replicate m.fieldCount 0)

abbrev ImmDstMapping := InstructionTemplate × ImmediateUnit

/-- The destinations in the order of the two inner loops. -/
def ImmediateMachine.mappings (m : ImmediateMachine) : List ImmDstMapping :=
  m.templates.flatMap fun iTemp => m.units.map fun iu => (iTemp, iu)

/-- The new field and the destinations that have a field. -/
structure NewField where
  field : LImmDstRegisterField
  mappedDestinations : List ImmDstMapping

def NewField.map (s : NewField) (p : ImmDstMapping) : Outcome NewField :=
  if p.1.isOneOfDestinations p.2.name ∧ 1 < p.2.numberOfRegisters ∧
      p.2.indexWidth ≤ s.field.width ∧ p ∉ s.mappedDestinations then do
    let field ← s.field.addDestination p.1.name p.2.name
    .ok ⟨field, p :: s.mappedDestinations⟩
  else .ok s

/-- The destination has a register index. -/
def NeedsRegister (p : ImmDstMapping) : Prop :=
  p.1.isOneOfDestinations p.2.name ∧ 1 < p.2.numberOfRegisters

/-- The destination is one of those that a field of the width is for. -/
def Chosen (width : Nat) (mapped : List ImmDstMapping) (p : ImmDstMapping) : Prop :=
  NeedsRegister p ∧ p.2.indexWidth ≤ width ∧ p ∉ mapped

/-- The field has been filled from some of the destinations. -/
structure Filled (width : Nat) (mapped seen : List ImmDstMapping) (s : NewField) : Prop where
  width_eq : s.field.width = width
  mapped_iff : ∀ p, p ∈ s.mappedDestinations ↔ p ∈ mapped ∨ p ∈ seen ∧ Chosen width mapped p
  unit_iff : ∀ k v, s.field.immediateUnit k = some v ↔
    ∃ p ∈ seen, Chosen width mapped p ∧ p.1.name = k ∧ p.2.name = v

theorem Filled.map_ok (h : Filled width mapped seen s)
    (hsame : ∀ q ∈ seen, Chosen width mapped q → Chosen width mapped p →
      q.1.name = p.1.name → q.2.name = p.2.name) :
    ∃ s', s.map p = .ok s' := by
  rw [NewField.map]
  split
  case isFalse => exact ⟨s, rfl⟩
  case isTrue hp =>
    obtain ⟨hdst, hregs, hwidth, hnew⟩ := hp
    rw [h.width_eq] at hwidth
    have hchosen : Chosen width mapped p :=
      ⟨⟨hdst, hregs⟩, hwidth, fun hmem => hnew ((h.mapped_iff p).2 (.inl hmem))⟩
    obtain ⟨field', hfield⟩ : ∃ field', s.field.addDestination p.1.name p.2.name = .ok field' := by
      apply LImmDstRegisterField.addDestination_of_same
      intro unit hunit
      obtain ⟨q, hq, hqc, hqk, rfl⟩ := (h.unit_iff _ _).1 hunit
      exact hsame q hq hqc hchosen hqk
    rw [hfield]
    exact ⟨_, rfl⟩

theorem Filled.map (h : Filled width mapped seen s) (hs : s.map p = .ok s') :
    Filled width mapped (seen ++ [p]) s' := by
  rw [NewField.map] at hs
  split at hs
  case isTrue hp =>
    obtain ⟨hdst, hregs, hwidth, hnew⟩ := hp
    obtain ⟨field', hfield, hs⟩ := Except.bind_ok hs
    cases hs
    obtain ⟨hwidth', hunit'⟩ := LImmDstRegisterField.addDestination_ok hfield
    rw [h.width_eq] at hwidth hwidth'
    have hchosen : Chosen width mapped p :=
      ⟨⟨hdst, hregs⟩, hwidth, fun hmem => hnew ((h.mapped_iff p).2 (.inl hmem))⟩
    refine ⟨hwidth', ?_, ?_⟩
    · intro q
      rw [List.mem_cons, h.mapped_iff, List.mem_append, List.mem_singleton]
      constructor
      · rintro (rfl | hq | ⟨hq, hqc⟩)
        · exact .inr ⟨.inr rfl, hchosen⟩
        · exact .inl hq
        · exact .inr ⟨.inl hq, hqc⟩
      · rintro (hq | ⟨hq | rfl, hqc⟩)
        · exact .inr (.inl hq)
        · exact .inr (.inr ⟨hq, hqc⟩)
        · exact .inl rfl
    · intro k v
      rw [hunit', h.unit_iff]
      constructor
      · rintro (⟨q, hq, hqc⟩ | ⟨rfl, rfl⟩)
        · exact ⟨q, List.mem_append_left _ hq, hqc⟩
        · exact ⟨p, List.mem_append_right _ (List.mem_singleton_self p), hchosen, rfl, rfl⟩
      · rintro ⟨q, hq, hqc, hk, hv⟩
        obtain hq | hq := List.mem_append.1 hq
        · exact .inl ⟨q, hq, hqc, hk, hv⟩
        · rw [List.mem_singleton.1 hq] at hk hv
          exact .inr ⟨hk.symm, hv.symm⟩
  case isFalse hp =>
    cases hs
    -- The destination belongs to no field, to a wider one, or already has a field.
    have hskip : p ∈ seen ∧ Chosen width mapped p ∨ ¬ Chosen width mapped p := by
      by_cases hc : Chosen width mapped p
      · left
        obtain ⟨⟨hdst, hregs⟩, hwidth, hnew⟩ := hc
        rw [← h.width_eq] at hwidth
        have hmem : p ∈ s.mappedDestinations := by
          by_contra hmem
          exact hp ⟨hdst, hregs, hwidth, hmem⟩
        exact ((h.mapped_iff p).1 hmem).resolve_left hnew
      · exact .inr hc
    have hsame (q : ImmDstMapping) :
        q ∈ seen ++ [p] ∧ Chosen width mapped q ↔ q ∈ seen ∧ Chosen width mapped q := by
      rw [List.mem_append, List.mem_singleton]
      constructor
      · rintro ⟨hq | rfl, hqc⟩
        · exact ⟨hq, hqc⟩
        · exact hskip.resolve_right (not_not_intro hqc)
      · rintro ⟨hq, hqc⟩
        exact ⟨.inl hq, hqc⟩
    refine ⟨h.width_eq, ?_, ?_⟩
    · intro q
      rw [hsame, h.mapped_iff]
    · intro k v
      rw [h.unit_iff]
      constructor
      · rintro ⟨q, hq, hqc, hnames⟩
        exact ⟨q, ((hsame q).2 ⟨hq, hqc⟩).1, hqc, hnames⟩
      · rintro ⟨q, hq, hqc, hnames⟩
        exact ⟨q, ((hsame q).1 ⟨hq, hqc⟩).1, hqc, hnames⟩

theorem Filled.foldlM {rest : List ImmDstMapping} (h : Filled width mapped seen s)
    (hs : rest.foldlM NewField.map s = .ok s') : Filled width mapped (seen ++ rest) s' := by
  induction rest generalizing s seen with
  | nil =>
    cases hs
    rw [List.append_nil]
    exact h
  | cons p rest ih =>
    rw [List.foldlM_cons] at hs
    obtain ⟨t, ht, hs⟩ := Except.bind_ok hs
    have hrest := ih (h.map ht) hs
    rwa [List.append_assoc, List.singleton_append] at hrest

/-- No template has two destinations that the field is for. -/
def OneEach (width : Nat) (mapped mappings : List ImmDstMapping) : Prop :=
  ∀ p ∈ mappings, ∀ q ∈ mappings, Chosen width mapped p → Chosen width mapped q →
    p.1.name = q.1.name → p.2.name = q.2.name

theorem Filled.foldlM_ok {rest : List ImmDstMapping} (h : Filled width mapped seen s)
    (hone : OneEach width mapped (seen ++ rest)) : ∃ s', rest.foldlM NewField.map s = .ok s' := by
  induction rest generalizing s seen with
  | nil => exact ⟨s, rfl⟩
  | cons p rest ih =>
    obtain ⟨t, ht⟩ := h.map_ok (p := p) fun q hq hqc hpc hname =>
      hone q (List.mem_append_left _ hq) p (List.mem_append_right _ List.mem_cons_self) hqc hpc hname
    rw [List.foldlM_cons, ht]
    apply ih (h.map ht)
    rwa [List.append_assoc, List.singleton_append]

/-- A field has one unit for a template. -/
theorem Filled.oneEach (h : Filled width mapped mappings s) : OneEach width mapped mappings := by
  intro p hp q hq hpc hqc hname
  have hpunit := (h.unit_iff p.1.name p.2.name).2 ⟨p, hp, hpc, rfl, rfl⟩
  have hqunit := (h.unit_iff p.1.name q.2.name).2 ⟨q, hq, hqc, hname.symm, rfl⟩
  exact Option.some.inj (hpunit.symm.trans hqunit)

theorem filled_new (width : Nat) (mapped : List ImmDstMapping)
    (h : LImmDstRegisterField.create width = .ok field) : Filled width mapped [] ⟨field, mapped⟩ := by
  rw [LImmDstRegisterField.create] at h
  split at h
  case isTrue => cases h
  case isFalse =>
    cases h
    refine ⟨rfl, ?_, ?_⟩
    · intro p
      simp only [List.not_mem_nil, false_and, or_false]
    · intro k v
      constructor
      · intro hk
        cases hk
      · rintro ⟨p, hp, -⟩
        cases hp

/-- The loop that creates the fields, from the last one on. -/
def createFields (m : ImmediateMachine) (fieldWidths : List Nat) :
    Nat → List LImmDstRegisterField → List ImmDstMapping → Outcome (List LImmDstRegisterField)
  | 0, bem, _ => .ok bem
  | i + 1, bem, mappedDestinations =>
    match fieldWidths[i]? with
    | none => .error .undefined
    | some fieldWidth => do
      let newField ← LImmDstRegisterField.create fieldWidth
      let s ← m.mappings.foldlM NewField.map ⟨newField, mappedDestinations⟩
      createFields m fieldWidths i (bem ++ [s.field]) s.mappedDestinations

/-- The fields that a binary encoding map has afterwards. -/
def addLongImmDstRegisterFields (m : ImmediateMachine) (bem : List LImmDstRegisterField) :
    Outcome (List LImmDstRegisterField) := do
  let fieldWidths ← m.fieldWidths
  createFields m fieldWidths m.fieldCount bem []

/-- The list has an element of at least the size at the index. -/
def Reaches (sizes : List Nat) (i size : Nat) : Prop := ∃ x, sizes[i]? = some x ∧ size ≤ x

theorem reaches_iff_lt_countP {sizes : List Nat} (h : sizes.Pairwise (· ≥ ·)) :
    Reaches sizes i size ↔ i < sizes.countP fun x => size ≤ x := by
  induction sizes generalizing i with
  | nil => simp [Reaches]
  | cons x sizes ih =>
    obtain ⟨hx, h⟩ := List.pairwise_cons.1 h
    by_cases hle : size ≤ x
    · rw [List.countP_cons_of_pos (by rw [decide_eq_true_iff]; exact hle)]
      cases i with
      | zero => exact ⟨fun _ => Nat.succ_pos _, fun _ => ⟨x, rfl, hle⟩⟩
      | succ i =>
        rw [Nat.add_lt_add_iff_right, ← ih h]
        rfl
    · have hnone : (x :: sizes).countP (fun x => size ≤ x) = 0 := by
        rw [List.countP_eq_zero]
        intro y hy
        rw [decide_eq_true_iff]
        obtain rfl | hy := List.mem_cons.1 hy
        · exact hle
        · have := hx y hy
          omega
      rw [hnone]
      refine ⟨?_, fun hlt => absurd hlt (Nat.not_lt_zero i)⟩
      rintro ⟨y, hy, hley⟩
      obtain rfl | hy := List.mem_cons.1 (List.mem_of_getElem? hy)
      · exact absurd hley hle
      · have := hx y hy
        omega

theorem increaseWidths_ok {fieldWidths sizes : List Nat} (h : sizes.length ≤ fieldWidths.length) :
    ∃ fieldWidths', increaseWidths fieldWidths sizes = .ok fieldWidths' ∧
      fieldWidths'.length = fieldWidths.length ∧
      ∀ i size, Reaches fieldWidths' i size ↔
        Reaches fieldWidths i size ∨ Reaches sizes i size := by
  induction fieldWidths generalizing sizes with
  | nil =>
    obtain rfl := List.eq_nil_of_length_eq_zero (Nat.le_zero.1 h)
    refine ⟨[], rfl, rfl, fun i size => ?_⟩
    exact (or_self_iff).symm
  | cons width fieldWidths ih =>
    cases sizes with
    | nil =>
      refine ⟨width :: fieldWidths, rfl, rfl, fun i size => ?_⟩
      simp [Reaches]
    | cons x sizes =>
      obtain ⟨rest, hrest, hlen, hreach⟩ := ih (Nat.le_of_succ_le_succ h)
      rw [increaseWidths, hrest]
      refine ⟨_, rfl, congrArg (· + 1) hlen, ?_⟩
      intro i size
      cases i with
      | zero =>
        simp only [Reaches, List.getElem?_cons_zero, Option.some.injEq, exists_eq_left']
        split <;> omega
      | succ i => exact hreach i size

namespace ImmediateMachine

/-- The destinations of a template that have a register index. -/
def destinations (m : ImmediateMachine) (iTemp : InstructionTemplate) : List ImmediateUnit :=
  m.units.filter fun iu => 1 < iu.numberOfRegisters ∧ iTemp.isOneOfDestinations iu.name

/-- How many destinations with an index of at least so many bits one template can have. -/
def demand (m : ImmediateMachine) (width : Nat) : Nat :=
  (m.templates.map fun iTemp => (m.destinations iTemp).countP fun iu => width ≤ iu.indexWidth).foldr
    max 0

/-- Of two destinations of a template, one is so much wider that fewer are wanted of its kind. -/
def Separated (m : ImmediateMachine) : Prop :=
  ∀ iTemp ∈ m.templates, ∀ a ∈ m.destinations iTemp, ∀ b ∈ m.destinations iTemp, a ≠ b →
    m.demand a.indexWidth ≠ m.demand b.indexWidth

instance (m : ImmediateMachine) : Decidable m.Separated :=
  inferInstanceAs (Decidable (∀ iTemp ∈ m.templates, ∀ a ∈ m.destinations iTemp,
    ∀ b ∈ m.destinations iTemp, a ≠ b → m.demand a.indexWidth ≠ m.demand b.indexWidth))

theorem lt_foldr_max {l : List Nat} : k < l.foldr max 0 ↔ ∃ x ∈ l, k < x := by
  induction l with
  | nil => simp
  | cons x l ih =>
    rw [List.foldr_cons, List.exists_mem_cons_iff, ← ih]
    omega

theorem lt_demand {m : ImmediateMachine} : k < m.demand width ↔
    ∃ iTemp ∈ m.templates, k < (m.destinations iTemp).countP fun iu => width ≤ iu.indexWidth := by
  rw [demand, lt_foldr_max]
  simp only [List.mem_map, exists_exists_and_eq_and]

theorem thisRequires_eq (m : ImmediateMachine) (iTemp : InstructionTemplate) :
    m.thisRequires iTemp = (m.destinations iTemp).length := by
  rw [thisRequires, destinations, List.countP_eq_length_filter]

theorem lt_foldl_requires {templates : List InstructionTemplate} (count : Nat)
    (requires : InstructionTemplate → Nat) :
    k < templates.foldl (fun fieldCount iTemp =>
        if fieldCount < requires iTemp then requires iTemp else fieldCount) count ↔
      k < count ∨ ∃ iTemp ∈ templates, k < requires iTemp := by
  induction templates generalizing count with
  | nil => simp
  | cons iTemp templates ih =>
    rw [List.foldl_cons, ih, List.exists_mem_cons_iff, ← or_assoc]
    apply or_congr_left
    split <;> omega

theorem lt_fieldCount {m : ImmediateMachine} :
    k < m.fieldCount ↔ ∃ iTemp ∈ m.templates, k < (m.destinations iTemp).length := by
  rw [fieldCount, lt_foldl_requires]
  simp only [thisRequires_eq, Nat.not_lt_zero, false_or]

theorem demand_le_fieldCount (m : ImmediateMachine) (width : Nat) :
    m.demand width ≤ m.fieldCount := by
  by_contra hlt
  obtain ⟨iTemp, ht, hcount⟩ := lt_demand.1 (Nat.lt_of_not_le hlt)
  have hle := Nat.lt_of_lt_of_le hcount List.countP_le_length
  exact absurd (lt_fieldCount.2 ⟨iTemp, ht, hle⟩) (Nat.lt_irrefl _)

theorem indexWidth_pos {iu : ImmediateUnit} (h : 1 < iu.numberOfRegisters) : 0 < iu.indexWidth := by
  by_contra hw
  have hlt := bitLength_le.1 (Nat.le_of_not_lt hw)
  omega

theorem mem_destinations {m : ImmediateMachine} : iu ∈ m.destinations iTemp ↔
    iu ∈ m.units ∧ 1 < iu.numberOfRegisters ∧ iTemp.isOneOfDestinations iu.name := by
  rw [destinations, List.mem_filter, decide_eq_true_iff]

/-- Every field is wanted for some index. -/
theorem demand_one (m : ImmediateMachine) : m.demand 1 = m.fieldCount := by
  apply Nat.le_antisymm (m.demand_le_fieldCount 1)
  by_contra hlt
  obtain ⟨iTemp, ht, hk⟩ := lt_fieldCount.1 (Nat.lt_of_not_le hlt)
  have hall : (m.destinations iTemp).countP (fun iu => 1 ≤ iu.indexWidth) =
      (m.destinations iTemp).length := by
    rw [List.countP_eq_length]
    intro iu hiu
    exact decide_eq_true (indexWidth_pos (mem_destinations.1 hiu).2.1)
  exact absurd (lt_demand.2 ⟨iTemp, ht, hall ▸ hk⟩) (Nat.lt_irrefl _)

theorem foldl_sizes_perm (units : List ImmediateUnit) (sizes : StdMultiset (α := Nat) (· ≤ ·)) :
    (units.foldl (fun sizes iu =>
      if 1 < iu.numberOfRegisters then sizes.insert iu.indexWidth else sizes) sizes).elems.Perm
        ((units.filter fun iu => 1 < iu.numberOfRegisters).map ImmediateUnit.indexWidth ++
          sizes.elems) := by
  induction units generalizing sizes with
  | nil => exact .refl _
  | cons iu units ih =>
    rw [List.foldl_cons]
    apply (ih _).trans
    by_cases h : 1 < iu.numberOfRegisters
    · rw [if_pos h, List.filter_cons_of_pos (by simpa using h), List.map_cons, List.cons_append]
      exact ((List.perm_orderedInsert _ _ _).append_left _).trans List.perm_middle
    · rw [if_neg h, List.filter_cons_of_neg (by simpa using h)]

theorem requiredSizes_perm (m : ImmediateMachine) (iTemp : InstructionTemplate) :
    (m.requiredSizes iTemp).elems.Perm
      ((m.destinations iTemp).map ImmediateUnit.indexWidth) := by
  have h := foldl_sizes_perm (m.dstUnits iTemp) .empty
  have hfilter : (m.dstUnits iTemp).filter (fun iu => 1 < iu.numberOfRegisters) =
      m.destinations iTemp := by
    rw [dstUnits, List.filter_filter, destinations]
    simp only [Bool.decide_and]
  rwa [StdMultiset.empty_elems, List.append_nil, hfilter] at h

theorem reaches_requiredSizes (m : ImmediateMachine) (iTemp : InstructionTemplate) :
    Reaches (m.requiredSizes iTemp).elems.reverse i size ↔
      i < (m.destinations iTemp).countP fun iu => size ≤ iu.indexWidth := by
  rw [reaches_iff_lt_countP (List.pairwise_reverse.2 (m.requiredSizes iTemp).sorted),
    List.countP_reverse, (m.requiredSizes_perm iTemp).countP_eq, List.countP_map]
  rfl

theorem foldlM_increaseWidths {m : ImmediateMachine} (templates : List InstructionTemplate)
    (fieldWidths : List Nat)
    (h : ∀ iTemp ∈ templates, (m.destinations iTemp).length ≤ fieldWidths.length) :
    ∃ fieldWidths', templates.foldlM (fun fieldWidths iTemp =>
        increaseWidths fieldWidths (m.requiredSizes iTemp).elems.reverse) fieldWidths =
          .ok fieldWidths' ∧
      fieldWidths'.length = fieldWidths.length ∧
      ∀ i size, Reaches fieldWidths' i size ↔ Reaches fieldWidths i size ∨
        ∃ iTemp ∈ templates,
          i < (m.destinations iTemp).countP fun iu => size ≤ iu.indexWidth := by
  induction templates generalizing fieldWidths with
  | nil => exact ⟨fieldWidths, rfl, rfl, fun i size => by simp⟩
  | cons iTemp templates ih =>
    have hsizes : (m.requiredSizes iTemp).elems.reverse.length ≤ fieldWidths.length := by
      rw [List.length_reverse, (m.requiredSizes_perm iTemp).length_eq, List.length_map]
      exact h iTemp List.mem_cons_self
    obtain ⟨next, hnext, hlen, hreach⟩ := increaseWidths_ok hsizes
    obtain ⟨last, hlast, hlen', hreach'⟩ := ih next fun t ht => by
      rw [hlen]
      exact h t (List.mem_cons_of_mem _ ht)
    rw [List.foldlM_cons, hnext]
    refine ⟨last, hlast, hlen'.trans hlen, ?_⟩
    intro i size
    rw [hreach', hreach, reaches_requiredSizes, List.exists_mem_cons_iff, or_assoc]

/-- The fields that are at least so wide are as many as are wanted. -/
theorem fieldWidths_ok (m : ImmediateMachine) :
    ∃ fieldWidths, m.fieldWidths = .ok fieldWidths ∧
      ∀ i size, 0 < size → (Reaches fieldWidths i size ↔ i < m.demand size) := by
  obtain ⟨fieldWidths, hok, -, hreach⟩ := foldlM_increaseWidths (m := m) m.templates
    (List.replicate m.fieldCount 0) fun iTemp ht => by
      rw [List.length_replicate]
      by_contra hlt
      exact absurd (lt_fieldCount.2 ⟨iTemp, ht, Nat.lt_of_not_le hlt⟩) (Nat.lt_irrefl _)
  refine ⟨fieldWidths, hok, ?_⟩
  intro i size hsize
  rw [hreach, ← lt_demand, or_iff_right]
  rintro ⟨x, hx, hle⟩
  have hzero := List.eq_of_mem_replicate (List.mem_of_getElem? hx)
  omega

theorem mem_mappings {m : ImmediateMachine} {p : ImmDstMapping} :
    p ∈ m.mappings ↔ p.1 ∈ m.templates ∧ p.2 ∈ m.units := by
  simp only [mappings, List.mem_flatMap, List.mem_map]
  constructor
  · rintro ⟨iTemp, ht, iu, hu, rfl⟩
    exact ⟨ht, hu⟩
  · rintro ⟨ht, hu⟩
    exact ⟨p.1, ht, p.2, hu, rfl⟩

/-- The destinations that come into the field of an index. -/
def InField (m : ImmediateMachine) (i : Nat) (p : ImmDstMapping) : Prop :=
  p ∈ m.mappings ∧ NeedsRegister p ∧ m.demand p.2.indexWidth = i + 1

def OneUnit (m : ImmediateMachine) (i : Nat) : Prop :=
  ∀ p q, m.InField i p → m.InField i q → p.1.name = q.1.name → p.2.name = q.2.name

/-- The destinations that the fields from an index on have taken. -/
def MappedFrom (m : ImmediateMachine) (i : Nat) (mapped : List ImmDstMapping) : Prop :=
  ∀ p, p ∈ mapped ↔ p ∈ m.mappings ∧ NeedsRegister p ∧ i < m.demand p.2.indexWidth

structure IsField (m : ImmediateMachine) (i : Nat) (field : LImmDstRegisterField) : Prop where
  wide : ∀ p, m.InField i p → p.2.indexWidth ≤ field.width
  unit_iff : ∀ k v, field.immediateUnit k = some v ↔
    ∃ p, m.InField i p ∧ p.1.name = k ∧ p.2.name = v

theorem mappedFrom_fieldCount (m : ImmediateMachine) : m.MappedFrom m.fieldCount [] := by
  intro p
  have hle := m.demand_le_fieldCount p.2.indexWidth
  constructor
  · intro hp
    cases hp
  · rintro ⟨-, -, hlt⟩
    omega

/-- A field takes the destinations of its own index. -/
theorem MappedFrom.chosen_iff {m : ImmediateMachine} (h : m.MappedFrom (i + 1) mapped)
    (hreach : ∀ size, 0 < size → (size ≤ width ↔ i < m.demand size)) (p : ImmDstMapping) :
    p ∈ m.mappings ∧ Chosen width mapped p ↔ m.InField i p := by
  simp only [Chosen, InField, h p]
  constructor
  · rintro ⟨hp, hneeds, hwidth, hnew⟩
    have hlt := (hreach _ (indexWidth_pos hneeds.2)).1 hwidth
    have hge : ¬ i + 1 < m.demand p.2.indexWidth := fun hlt' => hnew ⟨hp, hneeds, hlt'⟩
    exact ⟨hp, hneeds, by omega⟩
  · rintro ⟨hp, hneeds, hdemand⟩
    have hwidth := (hreach _ (indexWidth_pos hneeds.2)).2 (by omega)
    refine ⟨hp, hneeds, hwidth, ?_⟩
    rintro ⟨-, -, hlt⟩
    omega

theorem MappedFrom.filled {m : ImmediateMachine} (h : m.MappedFrom (i + 1) mapped)
    (hreach : ∀ size, 0 < size → (size ≤ width ↔ i < m.demand size))
    (hs : Filled width mapped m.mappings s) :
    m.IsField i s.field ∧ m.MappedFrom i s.mappedDestinations := by
  refine ⟨⟨?_, ?_⟩, ?_⟩
  · intro p hp
    rw [hs.width_eq]
    exact ((h.chosen_iff hreach p).2 hp).2.2.1
  · intro k v
    rw [hs.unit_iff]
    constructor
    · rintro ⟨p, hp, hc, hnames⟩
      exact ⟨p, (h.chosen_iff hreach p).1 ⟨hp, hc⟩, hnames⟩
    · rintro ⟨p, hp, hnames⟩
      obtain ⟨hmem, hc⟩ := (h.chosen_iff hreach p).2 hp
      exact ⟨p, hmem, hc, hnames⟩
  · intro p
    rw [hs.mapped_iff, h.chosen_iff hreach, h p]
    simp only [InField]
    constructor
    · rintro (⟨hp, hneeds, hlt⟩ | ⟨hp, hneeds, heq⟩)
      · exact ⟨hp, hneeds, by omega⟩
      · exact ⟨hp, hneeds, by omega⟩
    · rintro ⟨hp, hneeds, hlt⟩
      obtain heq | hlt := Nat.eq_or_lt_of_le hlt
      · exact .inr ⟨hp, hneeds, heq.symm⟩
      · exact .inl ⟨hp, hneeds, hlt⟩

theorem MappedFrom.oneUnit_iff {m : ImmediateMachine} (h : m.MappedFrom (i + 1) mapped)
    (hreach : ∀ size, 0 < size → (size ≤ width ↔ i < m.demand size)) :
    OneEach width mapped m.mappings ↔ m.OneUnit i := by
  constructor
  · intro hone p q hp hq
    obtain ⟨hpm, hpc⟩ := (h.chosen_iff hreach p).2 hp
    obtain ⟨hqm, hqc⟩ := (h.chosen_iff hreach q).2 hq
    exact hone p hpm q hqm hpc hqc
  · intro hone p hpm q hqm hpc hqc
    exact hone p q ((h.chosen_iff hreach p).1 ⟨hpm, hpc⟩) ((h.chosen_iff hreach q).1 ⟨hqm, hqc⟩)

theorem width_of_reaches {m : ImmediateMachine} {fieldWidths : List Nat} (hi : i < m.fieldCount)
    (hreach : ∀ k size, 0 < size → (Reaches fieldWidths k size ↔ k < m.demand size)) :
    ∃ width, fieldWidths[i]? = some width ∧ 1 ≤ width ∧
      ∀ size, 0 < size → (size ≤ width ↔ i < m.demand size) := by
  obtain ⟨width, hwidth, hpos⟩ := (hreach i 1 Nat.one_pos).2 (m.demand_one ▸ hi)
  refine ⟨width, hwidth, hpos, ?_⟩
  intro size hsize
  rw [← hreach i size hsize, Reaches, hwidth]
  simp only [Option.some.injEq, exists_eq_left']

theorem createFields_inv {m : ImmediateMachine} {fieldWidths : List Nat}
    {bem bem' : List LImmDstRegisterField}
    (h : createFields m fieldWidths i bem mapped = .ok bem') (hi : i ≤ m.fieldCount)
    (hmapped : m.MappedFrom i mapped)
    (hreach : ∀ k size, 0 < size → (Reaches fieldWidths k size ↔ k < m.demand size)) :
    (∀ k < i, m.OneUnit k) ∧
      ∃ fields, bem' = bem ++ fields ∧ List.Forall₂ m.IsField (List.range i).reverse fields := by
  induction i generalizing bem mapped with
  | zero =>
    cases h
    exact ⟨fun k hk => absurd hk (Nat.not_lt_zero k), [], (List.append_nil _).symm, .nil⟩
  | succ i ih =>
    obtain ⟨width, hwidth, -, hw⟩ := width_of_reaches hi hreach
    rw [createFields, hwidth] at h
    obtain ⟨newField, hnew, h⟩ := Except.bind_ok h
    obtain ⟨s, hs, h⟩ := Except.bind_ok h
    have hfilled := (filled_new width mapped hnew).foldlM hs
    rw [List.nil_append] at hfilled
    obtain ⟨hfield, hmapped'⟩ := hmapped.filled hw hfilled
    obtain ⟨hone, fields, rfl, hfields⟩ := ih h (Nat.le_of_succ_le hi) hmapped'
    refine ⟨?_, s.field :: fields, ?_, ?_⟩
    · intro k hk
      obtain rfl | hk := Nat.eq_or_lt_of_le (Nat.le_of_lt_succ hk)
      · exact (hmapped.oneUnit_iff hw).1 hfilled.oneEach
      · exact hone k hk
    · rw [List.append_assoc, List.singleton_append]
    · rw [List.range_succ, List.reverse_append]
      exact .cons hfield hfields

theorem createFields_ok {m : ImmediateMachine} {fieldWidths : List Nat}
    (bem : List LImmDstRegisterField) (hi : i ≤ m.fieldCount) (hmapped : m.MappedFrom i mapped)
    (hreach : ∀ k size, 0 < size → (Reaches fieldWidths k size ↔ k < m.demand size))
    (hone : ∀ k < i, m.OneUnit k) :
    ∃ bem', createFields m fieldWidths i bem mapped = .ok bem' := by
  induction i generalizing bem mapped with
  | zero => exact ⟨bem, rfl⟩
  | succ i ih =>
    obtain ⟨width, hwidth, hpos, hw⟩ := width_of_reaches hi hreach
    have hcreate : LImmDstRegisterField.create width = .ok ⟨width, [], .nil⟩ := by
      rw [LImmDstRegisterField.create, if_neg (by omega)]
    have hempty := filled_new width mapped hcreate
    obtain ⟨s, hs⟩ : ∃ s, m.mappings.foldlM NewField.map ⟨⟨width, [], .nil⟩, mapped⟩ = .ok s :=
      hempty.foldlM_ok ((hmapped.oneUnit_iff hw).2 (hone i (Nat.lt_succ_self i)))
    have hfilled := hempty.foldlM hs
    obtain ⟨-, hmapped'⟩ := hmapped.filled hw hfilled
    obtain ⟨bem', hbem'⟩ := ih (bem ++ [s.field]) (Nat.le_of_succ_le hi) hmapped' fun k hk =>
      hone k (Nat.lt_succ_of_lt hk)
    refine ⟨bem', ?_⟩
    rw [createFields, hwidth]
    change (LImmDstRegisterField.create width >>= _) = _
    rw [hcreate]
    change (m.mappings.foldlM NewField.map _ >>= _) = _
    rw [hs]
    exact hbem'

theorem template_eq {m : ImmediateMachine} (ht : t ∈ m.templates) (hu : u ∈ m.templates)
    (hname : t.name = u.name) : t = u :=
  List.inj_on_of_nodup_map m.templates_nodup ht hu hname

theorem unit_eq {m : ImmediateMachine} (ha : a ∈ m.units) (hb : b ∈ m.units)
    (hname : a.name = b.name) : a = b :=
  List.inj_on_of_nodup_map m.units_nodup ha hb hname

theorem inField_iff {m : ImmediateMachine} : m.InField i (iTemp, iu) ↔
    iTemp ∈ m.templates ∧ iu ∈ m.destinations iTemp ∧ m.demand iu.indexWidth = i + 1 := by
  simp only [InField, mem_mappings, NeedsRegister, mem_destinations]
  tauto

/-- A destination itself is one of those that need its width. -/
theorem demand_pos {m : ImmediateMachine} (ht : iTemp ∈ m.templates)
    (hiu : iu ∈ m.destinations iTemp) : 0 < m.demand iu.indexWidth := by
  apply lt_demand.2
  refine ⟨iTemp, ht, List.countP_pos_iff.2 ⟨iu, hiu, ?_⟩⟩
  exact decide_eq_true (Nat.le_refl _)

theorem separated_iff {m : ImmediateMachine} :
    m.Separated ↔ ∀ k < m.fieldCount, m.OneUnit k := by
  constructor
  · rintro hsep k - ⟨t, a⟩ ⟨u, b⟩ hp hq hname
    obtain ⟨ht, ha, hda⟩ := inField_iff.1 hp
    obtain ⟨hu, hb, hdb⟩ := inField_iff.1 hq
    obtain rfl := template_eq ht hu hname
    by_contra hne
    exact hsep t ht a ha b hb (fun heq => hne (congrArg _ heq)) (hda.trans hdb.symm)
  · intro hone t ht a ha b hb hne hdemand
    have hpos := demand_pos ht ha
    have hle := m.demand_le_fieldCount a.indexWidth
    obtain ⟨k, hk⟩ := Nat.exists_eq_add_one_of_ne_zero (Nat.ne_of_gt hpos)
    have hname := hone k (by omega) (t, a) (t, b) (inField_iff.2 ⟨ht, ha, hk⟩)
      (inField_iff.2 ⟨ht, hb, hdemand ▸ hk⟩) rfl
    exact hne (unit_eq (mem_destinations.1 ha).1 (mem_destinations.1 hb).1 hname)

end ImmediateMachine

end BEMGenerator

namespace BEMValidator
open BEMGenerator ITemplate

def iTempDestinations (m : ImmediateMachine) (iTemp : InstructionTemplate) : Finset String :=
  ((m.units.filter fun iu => iTemp.isOneOfDestinations iu.name ∧ 1 < iu.numberOfRegisters).map
    ImmediateUnit.name).toFinset

def tooNarrow (dstIU iTemp : String) : String :=
  "Long immediate destination register field is too narrow for destination " ++ dstIU ++
    " in instruction template " ++ iTemp ++ "."

def notCovered (iTemp : String) : String :=
  "Long immediate destination register fields do not cover all the destinations of " ++
    "instruction template " ++ iTemp ++ "."

/-- The error that a field causes in a template. The unit of a destination is always found. -/
def fieldError (m : ImmediateMachine) (iTemp : InstructionTemplate) (field : LImmDstRegisterField) :
    Option String := do
  let dstIU ← field.immediateUnit iTemp.name
  if dstIU ∈ iTempDestinations m iTemp then
    let iu ← m.units.find? fun iu => iu.name = dstIU
    if field.width < MathTools.bitLength (iu.numberOfRegisters - 1) then
      some (tooNarrow dstIU iTemp.name)
    else none
  else none

def checkTemplate (m : ImmediateMachine) (bem : List LImmDstRegisterField)
    (iTemp : InstructionTemplate) : List String :=
  let destinationsInBEM := (bem.filterMap fun field => field.immediateUnit iTemp.name).toFinset
  let intersection := iTempDestinations m iTemp ∩ destinationsInBEM
  bem.filterMap (fieldError m iTemp) ++
    if intersection.card < (iTempDestinations m iTemp).card then [notCovered iTemp.name] else []

/-- The error messages that the check inserts. -/
def checkLImmDstRegisterFields (m : ImmediateMachine) (bem : List LImmDstRegisterField) :
    List String :=
  m.templates.flatMap (checkTemplate m bem)

end BEMValidator

namespace BEMGenerator
open BEMValidator

/-- What the fields are for: every destination has its own field in a template, with its width. -/
structure FieldsCover (m : ImmediateMachine) (fields : List LImmDstRegisterField) : Prop where
  one_field : ∀ iTemp ∈ m.templates, ∀ iu ∈ m.destinations iTemp,
    fields.countP (fun field => field.immediateUnit iTemp.name = some iu.name) = 1
  one_unit : ∀ field ∈ fields, (field.destinationMap.map Prod.fst).Nodup
  wide : ∀ field ∈ fields, ∀ iTemp iu, field.immediateUnit iTemp = some iu →
    ∃ unit ∈ m.units, unit.name = iu ∧ unit.indexWidth ≤ field.width

theorem countP_of_forall₂ {R : α → β → Prop} {P : α → Bool} {Q : β → Bool}
    (h : List.Forall₂ R l l') (hpq : ∀ a b, R a b → P a = Q b) : l.countP P = l'.countP Q := by
  induction h with
  | nil => rfl
  | cons hab _ ih => rw [List.countP_cons, List.countP_cons, ih, hpq _ _ hab]

theorem exists_of_mem_forall₂ {R : α → β → Prop} (h : List.Forall₂ R l l') (hb : b ∈ l') :
    ∃ a ∈ l, R a b := by
  induction h with
  | nil => cases hb
  | cons hab _ ih =>
    cases hb with
    | head => exact ⟨_, List.mem_cons_self, hab⟩
    | tail _ hb =>
      obtain ⟨a, ha, hab⟩ := ih hb
      exact ⟨a, List.mem_cons_of_mem _ ha, hab⟩

/-- A field is for a destination exactly when it has the index that the destination's width gives. -/
theorem ImmediateMachine.IsField.immediateUnit_iff {m : ImmediateMachine}
    (h : m.IsField i field) (ht : iTemp ∈ m.templates) (hiu : iu ∈ m.destinations iTemp) :
    field.immediateUnit iTemp.name = some iu.name ↔ m.demand iu.indexWidth = i + 1 := by
  rw [h.unit_iff]
  constructor
  · rintro ⟨⟨t, a⟩, hp, htname, haname⟩
    obtain ⟨ht', ha, hdemand⟩ := inField_iff.1 hp
    obtain rfl := unit_eq (mem_destinations.1 ha).1 (mem_destinations.1 hiu).1 haname
    exact hdemand
  · intro hdemand
    exact ⟨(iTemp, iu), inField_iff.2 ⟨ht, hiu, hdemand⟩, rfl, rfl⟩

theorem fieldsCover_of_forall₂ {m : ImmediateMachine}
    (h : List.Forall₂ m.IsField (List.range m.fieldCount).reverse fields) :
    FieldsCover m fields := by
  refine ⟨?_, fun field _ => field.keys_nodup, ?_⟩
  · intro iTemp ht iu hiu
    have hpos := ImmediateMachine.demand_pos ht hiu
    have hle := m.demand_le_fieldCount iu.indexWidth
    obtain ⟨k, hk⟩ := Nat.exists_eq_add_one_of_ne_zero (Nat.ne_of_gt hpos)
    rw [← countP_of_forall₂ (P := fun i => i == k) h, List.countP_reverse]
    · exact List.count_eq_one_of_mem List.nodup_range (List.mem_range.2 (by omega))
    · intro i field hfield
      have hiff := hfield.immediateUnit_iff ht hiu
      rw [Bool.eq_iff_iff, beq_iff_eq, decide_eq_true_iff, hiff]
      omega
  · intro field hmem iTemp iu hunit
    obtain ⟨i, -, hfield⟩ := exists_of_mem_forall₂ h hmem
    obtain ⟨⟨t, unit⟩, hp, -, rfl⟩ := (hfield.unit_iff iTemp iu).1 hunit
    exact ⟨unit, (ImmediateMachine.mem_mappings.1 hp.1).2, rfl, hfield.wide _ hp⟩

theorem mem_iTempDestinations {m : ImmediateMachine} :
    name ∈ iTempDestinations m iTemp ↔ ∃ iu ∈ m.destinations iTemp, iu.name = name := by
  simp only [iTempDestinations, List.mem_toFinset, List.mem_map, List.mem_filter,
    decide_eq_true_eq, ImmediateMachine.mem_destinations, and_comm (a := _ ∈ m.units),
    and_comm (a := ITemplate.InstructionTemplate.isOneOfDestinations iTemp _)]

/-- The validator finds nothing wrong with such fields. -/
theorem FieldsCover.check (h : FieldsCover m fields) : checkLImmDstRegisterFields m fields = [] := by
  rw [checkLImmDstRegisterFields, List.flatMap_eq_nil_iff]
  intro iTemp ht
  have hnarrow : fields.filterMap (fieldError m iTemp) = [] := by
    rw [List.filterMap_eq_nil_iff]
    intro field hmem
    rw [fieldError]
    cases hunit : field.immediateUnit iTemp.name with
    | none => rfl
    | some dstIU =>
      obtain ⟨unit, hu, rfl, hwidth⟩ := h.wide field hmem _ _ hunit
      change (if unit.name ∈ iTempDestinations m iTemp then _ else none) = none
      split
      case isFalse => rfl
      case isTrue =>
        rw [find?_of_mem m.units_nodup hu]
        change (if field.width < unit.indexWidth then _ else none) = none
        rw [if_neg (Nat.not_lt.2 hwidth)]
  have hcovered : iTempDestinations m iTemp ⊆
      (fields.filterMap fun field => field.immediateUnit iTemp.name).toFinset := by
    intro name hname
    obtain ⟨iu, hiu, rfl⟩ := mem_iTempDestinations.1 hname
    have hcount := h.one_field iTemp ht iu hiu
    obtain ⟨field, hmem, hunit⟩ := List.countP_pos_iff.1 (hcount ▸ Nat.one_pos)
    rw [List.mem_toFinset, List.mem_filterMap]
    exact ⟨field, hmem, of_decide_eq_true hunit⟩
  rw [checkTemplate, hnarrow, Finset.inter_eq_left.2 hcovered, if_neg (Nat.lt_irrefl _)]
  rfl

/-- The fields are created, and then as they should be, if and only if the destinations of no
template are wanted in the same numbers. -/
theorem addLongImmDstRegisterFields_correct_iff (m : ImmediateMachine) :
    (∃ fields, addLongImmDstRegisterFields m [] = .ok fields ∧ FieldsCover m fields ∧
      checkLImmDstRegisterFields m fields = []) ↔ m.Separated := by
  obtain ⟨fieldWidths, hwidths, hreach⟩ := m.fieldWidths_ok
  have hcreate : addLongImmDstRegisterFields m [] =
      createFields m fieldWidths m.fieldCount [] [] := by
    rw [addLongImmDstRegisterFields, hwidths]
    rfl
  have hle := Nat.le_refl m.fieldCount
  rw [ImmediateMachine.separated_iff, hcreate]
  constructor
  · rintro ⟨fields, h, -, -⟩
    exact (ImmediateMachine.createFields_inv h hle m.mappedFrom_fieldCount hreach).1
  · intro hone
    obtain ⟨fields, h⟩ :=
      ImmediateMachine.createFields_ok [] hle m.mappedFrom_fieldCount hreach hone
    obtain ⟨-, new, hnew, hfields⟩ :=
      ImmediateMachine.createFields_inv h hle m.mappedFrom_fieldCount hreach
    rw [List.nil_append] at hnew
    have hcover := fieldsCover_of_forall₂ (hnew ▸ hfields)
    exact ⟨fields, h, hcover, hcover.check⟩

/-- A template with two destinations of four registers each. -/
def twoEqualUnits : ImmediateMachine where
  templates := [⟨"limm", [⟨"B0", 8, "IU0"⟩, ⟨"B1", 8, "IU1"⟩]⟩]
  units := [⟨"IU0", 4⟩, ⟨"IU1", 4⟩]
  templates_nodup := by decide
  units_nodup := by decide

theorem addLongImmDstRegisterFields_equalUnits :
    addLongImmDstRegisterFields twoEqualUnits [] = .error (.exception .notAvailable) := by
  decide +kernel

example : ¬ twoEqualUnits.Separated := by decide +kernel

end BEMGenerator

end OpenAsip
