import OpenAsip.FunctionUnits
import OpenAsip.JoinedTexts

namespace OpenAsip
set_option autoImplicit true

namespace MOM
open ConflictDetection (ResourceSet ResourceVector isValidComponentName)
open JoinedTexts

theorem stringToUpper_upper (s : String) : stringToUpper (stringToUpper s) = stringToUpper s := by
  rw [stringToUpper, stringToUpper, String.toList_ofList, List.map_map]
  congr 1
  apply List.map_congr_left
  intro c _
  exact Char.toUpper_toUpper_eq_toUpper c

theorem stringToLower_upper (s : String) : stringToLower (stringToUpper s) = stringToLower s := by
  rw [stringToLower, stringToUpper, String.toList_ofList, List.map_map, stringToLower]
  congr 1
  apply List.map_congr_left
  intro c _
  exact Char.toLower_toUpper_eq_toLower c

theorem stringToUpper_inj (hs : stringToLower s = s) (ht : stringToLower t = t)
    (h : stringToUpper s = stringToUpper t) : s = t := by
  rw [← hs, ← ht, ← stringToLower_upper s, h, stringToLower_upper]

section Joined
variable {s s' : Finset String}

theorem toList_joined (s : Finset String) :
    (joined s).toList = [','].intercalate (s.sort.map String.toList) := by
  rw [joined, String.toList_intercalate]
  rfl

/-- The strings may contain commas as long as the first word of a string tells which one it is. -/
theorem joined_inj (hne : ∀ x ∈ s, x.toList ≠ []) (hne' : ∀ y ∈ s', y.toList ≠ [])
    (hfirst : ∀ x ∈ s, ∀ y ∈ s', first ',' x.toList = first ',' y.toList → x = y)
    (h : joined s = joined s') : s = s' := by
  have hchars := congrArg String.toList h
  rw [toList_joined, toList_joined] at hchars
  have hparts : s.sort.map String.toList = s'.sort.map String.toList := by
    apply intercalate_inj ?_ ?_ ?_ hchars
    · intro x hx
      obtain ⟨a, ha, rfl⟩ := List.mem_map.1 hx
      exact hne a ((Finset.mem_sort _).1 ha)
    · intro y hy
      obtain ⟨b, hb, rfl⟩ := List.mem_map.1 hy
      exact hne' b ((Finset.mem_sort _).1 hb)
    · intro x hx y hy hxy
      obtain ⟨a, ha, rfl⟩ := List.mem_map.1 hx
      obtain ⟨b, hb, rfl⟩ := List.mem_map.1 hy
      rw [hfirst a ((Finset.mem_sort _).1 ha) b ((Finset.mem_sort _).1 hb) hxy]
  have hsorted := List.map_injective_iff.2 (fun _ _ => String.toList_injective) hparts
  rw [← Finset.sort_toFinset s (· ≤ ·), hsorted, Finset.sort_toFinset]

theorem not_mem_joined {c : Char} (hc : c ≠ ',') (h : ∀ x ∈ s, c ∉ x.toList) :
    c ∉ (joined s).toList := by
  have hl : ∀ l : List (List Char), (∀ x ∈ l, c ∉ x) → c ∉ [','].intercalate l := by
    intro l
    induction l with
    | nil => exact fun _ => List.not_mem_nil
    | cons x l ih =>
      intro hl
      cases l with
      | nil =>
        rw [List.intercalate_singleton]
        exact hl x List.mem_cons_self
      | cons y l =>
        rw [List.intercalate_cons_cons, List.mem_append, List.mem_append, List.mem_singleton]
        rintro ((hx | hsep) | htail)
        · exact hl x List.mem_cons_self hx
        · exact hc hsep
        · exact ih (fun z hz => hl z (List.mem_cons_of_mem x hz)) htail
  rw [toList_joined]
  apply hl
  intro x hx
  obtain ⟨a, ha, rfl⟩ := List.mem_map.1 hx
  exact h a ((Finset.mem_sort _).1 ha)

/-- The first word of a joined text is one of the words. -/
theorem first_joined (hne : s.Nonempty) (h : ∀ x ∈ s, ',' ∉ x.toList) :
    ∃ x ∈ s, first ',' (joined s).toList = x.toList := by
  have hperm : ∀ x, x ∈ s.sort ↔ x ∈ s := fun x => Finset.mem_sort _
  rw [toList_joined]
  cases hsort : s.sort with
  | nil =>
    obtain ⟨x, hx⟩ := hne
    rw [← hperm, hsort] at hx
    cases hx
  | cons x l =>
    have hx : x ∈ s := by
      rw [← hperm, hsort]
      exact List.mem_cons_self
    refine ⟨x, hx, ?_⟩
    obtain ⟨t, ht, htext⟩ := intercalate_cons ',' x.toList (l.map String.toList)
    rw [List.map_cons, htext, first_append ht, ← List.append_nil x.toList,
      first_append_of_notMem (h x hx)]
    rfl

end Joined

/-- The cycles of a vector can be told from its text. -/
theorem vectorText_inj {l l' : List ResourceSet} (hl : ∀ s ∈ l, '}' ∉ (joined s).toList)
    (hl' : ∀ s ∈ l', '}' ∉ (joined s).toList) (h : vectorText cycle l = vectorText cycle l') :
    l.map joined = l'.map joined := by
  induction l generalizing l' cycle with
  | nil =>
    cases l' with
    | nil => rfl
    | cons s' l' =>
      have hchars := congrArg String.toList h
      simp only [vectorText, String.toList_append] at hchars
      cases hchars
  | cons s l ih =>
    cases l' with
    | nil =>
      have hchars := congrArg String.toList h
      simp only [vectorText, String.toList_append] at hchars
      cases hchars
    | cons s' l' =>
      have hchars := congrArg String.toList h
      have hclose : "\x7d]".toList = ['}', ']'] := rfl
      simp only [vectorText, String.toList_append, List.append_assoc, hclose,
        List.append_cancel_left_eq, List.cons_append] at hchars
      obtain ⟨hs, htail⟩ := append_cons_inj (hl s List.mem_cons_self) (hl' s' List.mem_cons_self)
        hchars
      rw [List.map_cons, List.map_cons, String.toList_injective hs]
      congr 1
      apply ih (fun t ht => hl t (List.mem_cons_of_mem s ht))
        (fun t ht => hl' t (List.mem_cons_of_mem s' ht))
      exact String.toList_injective (List.cons.inj htail).2

end MOM

end OpenAsip
