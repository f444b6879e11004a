import Mathlib.Data.Finset.Lattice.Lemmas
import Mathlib.Data.Finset.Insert
import OpenAsip.Reservations

namespace OpenAsip
set_option autoImplicit true

namespace ConflictDetection
open Reservations

abbrev ResourceSet := Finset String

/-- The resources in use, cycle by cycle. -/
structure ResourceVector where
  resources : List ResourceSet
deriving DecidableEq

namespace ResourceVector

def width (v : ResourceVector) : Nat := v.resources.length

/-- The resources of a cycle, which are none beyond the width. -/
def usedAt (v : ResourceVector) (cycle : Nat) : ResourceSet := v.resources.getD cycle ∅

/-- The cycles of both vectors are compared from the issue on. A cycle in which one of them uses
nothing ends the comparison. -/
def conflictsWithLoop : List ResourceSet → List ResourceSet → Bool
  | [], _ => false
  | _ :: _, [] => false
  | thisResources :: l, otherResources :: l' =>
    if thisResources = ∅ ∨ otherResources = ∅ then false
    else if thisResources ∩ otherResources ≠ ∅ then true
    else conflictsWithLoop l l'

/-- The other operation is issued the given number of cycles later. -/
def conflictsWith (v other : ResourceVector) (cycle : Nat) : Bool :=
  conflictsWithLoop (v.resources.drop cycle) other.resources

/-- The vector is stretched where the other one ends later. -/
def mergeWith (v other : ResourceVector) (cycle : Nat) : ResourceVector :=
  ⟨(List.range (max v.width (cycle + other.width))).map fun c =>
    v.usedAt c ∪ if cycle ≤ c then other.usedAt (c - cycle) else ∅⟩

def shiftLeft (v : ResourceVector) : ResourceVector := ⟨v.resources.tail⟩

def Uses (v : ResourceVector) (r : String) (cycle : Nat) : Prop := r ∈ v.usedAt cycle

theorem usedAt_of_width_le (v : ResourceVector) (h : v.width ≤ cycle) : v.usedAt cycle = ∅ := by
  rw [usedAt, List.getD_eq_getElem?_getD, List.getElem?_eq_none h]
  rfl

theorem usedAt_shiftLeft (v : ResourceVector) (cycle : Nat) :
    v.shiftLeft.usedAt cycle = v.usedAt (cycle + 1) := by
  obtain ⟨l⟩ := v
  cases l with
  | nil => rfl
  | cons s l => rfl

theorem usedAt_mergeWith (v other : ResourceVector) (cycle c : Nat) :
    (v.mergeWith other cycle).usedAt c =
      v.usedAt c ∪ if cycle ≤ c then other.usedAt (c - cycle) else ∅ := by
  by_cases hc : c < max v.width (cycle + other.width)
  · rw [mergeWith, usedAt, List.getD_eq_getElem?_getD, List.getElem?_map,
      List.getElem?_range hc]
    rfl
  · have hv := v.usedAt_of_width_le (show v.width ≤ c by omega)
    have hother := other.usedAt_of_width_le (show other.width ≤ c - cycle by omega)
    rw [usedAt_of_width_le, hv, hother, ite_self, Finset.union_empty]
    simp only [mergeWith, width, List.length_map, List.length_range]
    exact Nat.le_of_not_lt hc

theorem not_uses_nil : ¬ Uses ⟨[]⟩ r cycle := Finset.notMem_empty r

theorem uses_drop (v : ResourceVector) (cycle c : Nat) :
    Uses ⟨v.resources.drop cycle⟩ r c ↔ v.Uses r (c + cycle) := by
  rw [Uses, Uses, usedAt, usedAt, List.getD_eq_getElem?_getD, List.getD_eq_getElem?_getD,
    List.getElem?_drop, Nat.add_comm]

theorem exists_common_iff (s s' : ResourceSet) : (∃ r, r ∈ s ∧ r ∈ s') ↔ s ∩ s' ≠ ∅ := by
  rw [← Finset.nonempty_iff_ne_empty]
  constructor
  · rintro ⟨r, hs, hs'⟩
    exact ⟨r, Finset.mem_inter.2 ⟨hs, hs'⟩⟩
  · rintro ⟨r, hr⟩
    exact ⟨r, Finset.mem_inter.1 hr⟩

/-- The loop finds a common use that no cycle without use comes before. -/
theorem conflictsWithLoop_iff (l l' : List ResourceSet) : conflictsWithLoop l l' = true ↔
    ∃ c, (∃ r, Uses ⟨l⟩ r c ∧ Uses ⟨l'⟩ r c) ∧
      ∀ c' < c, (∃ r, Uses ⟨l⟩ r c') ∧ ∃ r, Uses ⟨l'⟩ r c' := by
  induction l generalizing l' with
  | nil =>
    rw [conflictsWithLoop]
    refine ⟨nofun, ?_⟩
    rintro ⟨c, ⟨r, hr, -⟩, -⟩
    exact (not_uses_nil hr).elim
  | cons s l ih =>
    cases l' with
    | nil =>
      rw [conflictsWithLoop]
      refine ⟨nofun, ?_⟩
      rintro ⟨c, ⟨r, -, hr⟩, -⟩
      exact (not_uses_nil hr).elim
    | cons s' l' =>
      rw [conflictsWithLoop]
      by_cases hempty : s = ∅ ∨ s' = ∅
      · rw [if_pos hempty]
        refine ⟨nofun, ?_⟩
        rintro ⟨c, ⟨r, hr, hr'⟩, hused⟩
        -- the first cycle is used by both, before the common use or in it
        have hfirst : (∃ r, r ∈ s) ∧ ∃ r, r ∈ s' := by
          cases c with
          | zero => exact ⟨⟨r, hr⟩, r, hr'⟩
          | succ c => exact hused 0 (Nat.zero_lt_succ c)
        rcases hempty with rfl | rfl
        · exact (Finset.not_nonempty_empty hfirst.1).elim
        · exact (Finset.not_nonempty_empty hfirst.2).elim
      · rw [if_neg hempty]
        obtain ⟨hs, hs'⟩ := not_or.1 hempty
        by_cases hsame : s ∩ s' ≠ ∅
        · rw [if_pos hsame]
          refine ⟨fun _ => ⟨0, (exists_common_iff s s').2 hsame, ?_⟩, fun _ => rfl⟩
          intro c' hc'
          exact (Nat.not_lt_zero c' hc').elim
        · rw [if_neg hsame, ih]
          constructor
          · rintro ⟨c, hc, hused⟩
            refine ⟨c + 1, hc, ?_⟩
            intro c' hc'
            cases c' with
            | zero => exact ⟨Finset.nonempty_iff_ne_empty.2 hs, Finset.nonempty_iff_ne_empty.2 hs'⟩
            | succ c' => exact hused c' (Nat.lt_of_succ_lt_succ hc')
          · rintro ⟨c, hc, hused⟩
            cases c with
            | zero => exact (hsame ((exists_common_iff s s').1 hc)).elim
            | succ c => exact ⟨c, hc, fun c' hc' => hused (c' + 1) (Nat.succ_lt_succ hc')⟩

theorem conflictsWith_iff (v other : ResourceVector) (cycle : Nat) :
    v.conflictsWith other cycle = true ↔ Found Uses v other cycle := by
  rw [conflictsWith, conflictsWithLoop_iff]
  simp only [uses_drop, Found, CommonUse]

theorem uses_shiftLeft (v : ResourceVector) : v.shiftLeft.Uses r cycle ↔ v.Uses r (cycle + 1) := by
  rw [Uses, usedAt_shiftLeft, Uses]

/-- The uses of a merged vector start with the issue. -/
theorem uses_mergeWith (v other : ResourceVector) (cycle c : Nat) :
    (v.mergeWith other cycle).Uses r c ↔
      v.Uses r c ∨ cycle ≤ c ∧ other.Uses r (c - cycle) := by
  rw [Uses, usedAt_mergeWith, Finset.mem_union]
  by_cases hc : cycle ≤ c
  · rw [if_pos hc]
    exact or_congr_right (and_iff_right hc).symm
  · rw [if_neg hc]
    exact or_congr_right ⟨fun hr => (Finset.notMem_empty r hr).elim, fun h => (hc h.1).elim⟩

end ResourceVector
end ConflictDetection
end OpenAsip
