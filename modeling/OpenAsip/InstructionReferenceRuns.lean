import Mathlib.Data.Set.Card
import OpenAsip.InstructionReferenceCalls

namespace OpenAsip
set_option autoImplicit true

namespace TTAProgram

/-- The calls of the users of a program. A new impl gets some address that is free. -/
inductive ReferenceCall (ι ρ κ : Type) where
  | createReference (r : ρ) (ins : ι) (p : κ)
  | copy (r ref : ρ)
  | assign (r ref : ρ)
  | destroy (r : ρ)
  | replace (insA insB : ι)
  | clearReferences
deriving DecidableEq

/-- What the calls do to plain pointers. -/
def Pointers.step [DecidableEq ι] [DecidableEq ρ] (v : Pointers ι ρ) :
    ReferenceCall ι ρ κ → Pointers ι ρ
  | .createReference r ins _ => Function.update v r (some (some ins))
  | .copy r ref => Function.update v r (v ref)
  | .assign r ref => Function.update v r (v ref)
  | .destroy r => Function.update v r none
  | .replace insA insB => v.replace insA insB
  | .clearReferences => v.cleared

namespace InstructionReferenceManager

variable {ι ρ κ : Type} {s s' : InstructionReferenceManager ι ρ κ}

/-- The reference stands for the instruction. -/
def PointsTo (s : InstructionReferenceManager ι ρ κ) (r : ρ) (ins : ι) : Prop :=
  s.instruction r = .ok (some ins)

/-- The manager knows the instructions that are referred to, with the number of the references, and
a reference stands for the instruction that its entry is for. -/
structure Right [LinearOrder ι] (s : InstructionReferenceManager ι ρ κ) : Prop where
  entry_iff : ∀ ins, s.hasReference ins = true ↔ ∃ r, s.PointsTo r ins
  count : ∀ ins, ∃ n : Nat, s.referenceCount ins = .ok n ∧ {r | s.PointsTo r ins}.encard = n
  resolves : ∀ r p, s.impl r = some (some p) → ∃ ins, (ins, p) ∈ s.references ∧ s.PointsTo r ins

section View

theorem inv_empty : (empty : InstructionReferenceManager ι ρ κ).Inv where
  keys := List.nodup_nil
  entry_iff := by simp [empty]
  mem_iff := by simp [empty]
  nodup := by simp [empty]
  nonempty := by simp [empty]

theorem Inv.pointsTo_iff (h : s.Inv) : s.PointsTo r ins ↔ s.view r = some (some ins) := by
  rw [PointsTo, instruction]
  cases hr : s.impl r with
  | none =>
    simp only [view, hr, Option.map_none, reduceCtorEq]
  | some pointer =>
    rw [view_of_impl hr]
    cases pointer with
    | none => simp only [Option.bind_none, Except.ok.injEq, Option.some.injEq]
    | some p =>
      obtain ⟨x, hx⟩ := h.heap_of_impl hr
      simp only [hx, Option.bind_some, Option.map_some, Except.ok.injEq, Option.some.injEq]

variable [LinearOrder ι]

theorem Inv.pointsTo_iff_mem (h : s.Inv) (hx : s.heap p = some x) :
    s.PointsTo r x.ins ↔ r ∈ x.refs :=
  h.pointsTo_iff.trans (h.view_eq_iff hx)

theorem Inv.find_of_pointsTo (h : s.Inv) (hr : s.PointsTo r ins) : ∃ p, s.find ins = some p := by
  rw [PointsTo, instruction] at hr
  cases hpointer : s.impl r with
  | none =>
    rw [hpointer] at hr
    cases hr
  | some pointer =>
    rw [hpointer] at hr
    cases pointer with
    | none => cases hr
    | some p =>
      obtain ⟨x, hx⟩ := h.heap_of_impl hpointer
      simp only [hx] at hr
      cases hr
      exact ⟨p, h.find_of_heap hx⟩

theorem Inv.right [LinearOrder ρ] (h : s.Inv) : s.Right := by
  constructor
  · intro ins
    constructor
    · intro hreference
      obtain ⟨p, hp⟩ := Option.isSome_iff_exists.1 hreference
      obtain ⟨x, hx, rfl⟩ := h.heap_of_find hp
      obtain ⟨r, hr⟩ := List.exists_mem_of_ne_nil _ (h.nonempty hx)
      exact ⟨r, (h.pointsTo_iff_mem hx).2 hr⟩
    · rintro ⟨r, hr⟩
      exact Option.isSome_iff_exists.2 (h.find_of_pointsTo hr)
  · intro ins
    rw [referenceCount]
    cases hp : s.find ins with
    | none =>
      refine ⟨0, rfl, ?_⟩
      have hempty : {r | s.PointsTo r ins} = ∅ := by
        refine Set.eq_empty_of_forall_notMem fun r hr => ?_
        obtain ⟨p, hp'⟩ := h.find_of_pointsTo hr
        rw [hp'] at hp
        cases hp
      rw [hempty, Set.encard_empty]
      rfl
    | some p =>
      obtain ⟨x, hx, rfl⟩ := h.heap_of_find hp
      refine ⟨x.refs.length, by simp only [hx], ?_⟩
      have hset : {r | s.PointsTo r x.ins} = (x.refs.toFinset : Set ρ) := by
        ext r
        rw [Finset.mem_coe, List.mem_toFinset, ← h.pointsTo_iff_mem hx]
        rfl
      rw [hset, Set.encard_coe_eq_coe_finsetCard, List.toFinset_card_of_nodup (h.nodup hx)]
  · intro r p hr
    obtain ⟨x, hx, hmem⟩ := h.mem_iff.1 hr
    exact ⟨x.ins, h.entry_iff.2 ⟨x, hx, rfl⟩, (h.pointsTo_iff_mem hx).2 hmem⟩

end View

section Runs

variable [LinearOrder ι] [LinearOrder ρ] [DecidableEq κ]

def step (s : InstructionReferenceManager ι ρ κ) :
    ReferenceCall ι ρ κ → Outcome (InstructionReferenceManager ι ρ κ)
  | .createReference r ins p => s.createReference r ins p
  | .copy r ref => s.copy r ref
  | .assign r ref => s.assign r ref
  | .destroy r => s.destroy r
  | .replace insA insB => s.replace insA insB
  | .clearReferences => s.clearReferences

/-- A call makes a new object at an address without one, and the objects that it is given are
there. Only an instruction with a reference is replaced. -/
def Legal (s : InstructionReferenceManager ι ρ κ) : ReferenceCall ι ρ κ → Prop
  | .createReference r _ p => s.impl r = none ∧ s.heap p = none
  | .copy r ref => s.impl r = none ∧ s.impl ref ≠ none
  | .assign r ref => s.impl r ≠ none ∧ s.impl ref ≠ none
  | .destroy r => s.impl r ≠ none
  | .replace insA _ => s.hasReference insA = true
  | .clearReferences => True

instance decidableLegal (s : InstructionReferenceManager ι ρ κ) :
    ∀ c, Decidable (s.Legal c)
  | .createReference r _ p => inferInstanceAs (Decidable (s.impl r = none ∧ s.heap p = none))
  | .copy r ref => inferInstanceAs (Decidable (s.impl r = none ∧ s.impl ref ≠ none))
  | .assign r ref => inferInstanceAs (Decidable (s.impl r ≠ none ∧ s.impl ref ≠ none))
  | .destroy r => inferInstanceAs (Decidable (s.impl r ≠ none))
  | .replace insA _ => inferInstanceAs (Decidable (s.hasReference insA = true))
  | .clearReferences => inferInstanceAs (Decidable True)

/-- The calls do with the references what they do with plain pointers. -/
theorem Inv.step (h : s.Inv) (hlegal : s.Legal c) (hself : ∀ ins, c ≠ .replace ins ins) :
    ∃ s', s.step c = .ok s' ∧ s'.Inv ∧ s'.view = Pointers.step s.view c := by
  cases c with
  | createReference r ins p => exact h.createReference hlegal.1 hlegal.2
  | copy r ref => exact h.copy hlegal.1 hlegal.2
  | assign r ref => exact h.assign hlegal.1 hlegal.2
  | destroy r => exact h.destroy hlegal
  | replace insA insB => exact h.replace hlegal fun he => hself insA (he ▸ rfl)
  | clearReferences => exact h.clearReferences

end Runs

section Replacing

variable [LinearOrder ι]

/-- Exactly the references to one of the two instructions before are references to the second
afterwards. -/
def Replaced (s s' : InstructionReferenceManager ι ρ κ) (insA insB : ι) : Prop :=
  ∀ r, (s'.PointsTo r insB ↔ s.PointsTo r insA ∨ s.PointsTo r insB) ∧ ¬s'.PointsTo r insA

theorem Inv.replaced (h : s.Inv) (h' : s'.Inv) (hne : insA ≠ insB)
    (hview : s'.view = Pointers.replace s.view insA insB) : s.Replaced s' insA insB := by
  intro r
  rw [h'.pointsTo_iff, h'.pointsTo_iff, h.pointsTo_iff, h.pointsTo_iff, hview, Pointers.replace]
  by_cases hA : s.view r = some (some insA)
  · simp [hA, hne.symm]
  · simp [hA]

end Replacing

section Together

variable [LinearOrder ι] [LinearOrder ρ] [DecidableEq κ]

/-- Every call comes back, the manager is right before and after it, and replacing does what it
should. -/
def RunsRight (s : InstructionReferenceManager ι ρ κ) : List (ReferenceCall ι ρ κ) → Prop
  | [] => s.Right
  | c :: calls => s.Right ∧ ∃ s', s.step c = .ok s' ∧
    (∀ insA insB, c = .replace insA insB → insA ≠ insB → s.Replaced s' insA insB) ∧
    s'.RunsRight calls

theorem Inv.runsRight_iff {calls : List (ReferenceCall ι ρ κ)} (h : s.Inv)
    (hcalls : Along InstructionReferenceManager.step Legal s calls) :
    s.RunsRight calls ↔ ∀ ins, .replace ins ins ∉ calls := by
  induction calls generalizing s with
  | nil => exact iff_of_true h.right fun ins => List.not_mem_nil
  | cons c calls ih =>
    obtain ⟨hlegal, hrest⟩ := hcalls
    by_cases hself : ∃ ins, c = .replace ins ins
    · obtain ⟨ins, rfl⟩ := hself
      refine iff_of_false ?_ fun hnone => hnone ins List.mem_cons_self
      rintro ⟨-, s', hstep, -⟩
      rw [InstructionReferenceManager.step, h.replace_self hlegal] at hstep
      cases hstep
    · obtain ⟨s', hstep, hinv, hview⟩ := h.step hlegal (not_exists.1 hself)
      have hothers : (∀ ins, .replace ins ins ∉ c :: calls) ↔ ∀ ins, .replace ins ins ∉ calls := by
        refine forall_congr' fun ins => not_congr ?_
        rw [List.mem_cons, or_iff_right]
        exact fun he => hself ⟨ins, he.symm⟩
      rw [hothers, ← ih hinv (hrest s' hstep)]
      constructor
      · rintro ⟨-, t, ht, -, hruns⟩
        cases hstep.symm.trans ht
        exact hruns
      · intro hruns
        refine ⟨h.right, s', hstep, ?_, hruns⟩
        rintro insA insB rfl hne
        exact h.replaced hinv hne hview

/-- From an empty manager on, the calls come back and keep the manager right if and only if none of
them replaces an instruction by itself. -/
theorem referencesRunRight_iff (calls : List (ReferenceCall ι ρ κ))
    (h : Along step Legal (empty : InstructionReferenceManager ι ρ κ) calls) :
    (empty : InstructionReferenceManager ι ρ κ).RunsRight calls ↔
      ∀ ins, .replace ins ins ∉ calls :=
  inv_empty.runsRight_iff h

/-- References to two instructions, one of which is replaced by the other, and both by a third. -/
theorem referencesRunRight_iff_calls : (empty : InstructionReferenceManager Nat Nat Nat).RunsRight
    [.createReference 0 100 0, .copy 1 0, .createReference 2 200 1, .assign 1 2, .replace 100 200,
      .destroy 2, .replace 200 300, .createReference 2 300 0, .clearReferences,
      .createReference 3 100 0] := by
  refine (referencesRunRight_iff _ ?_).2 fun ins => ?_
  · decide
  · simp only [List.mem_cons, List.not_mem_nil, reduceCtorEq, ReferenceCall.replace.injEq,
      or_false, false_or]
    omega

/-- An instruction with a reference that is replaced by itself. -/
theorem not_runsRight_self : ¬(empty : InstructionReferenceManager Nat Nat Nat).RunsRight
    [.createReference 0 100 0, .replace 100 100] := by
  rintro ⟨-, s, hs, -, -, t, ht, -, -⟩
  cases hs
  cases ht

end Together

end InstructionReferenceManager

end TTAProgram

end OpenAsip
