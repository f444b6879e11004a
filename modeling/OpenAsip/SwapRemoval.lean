import Mathlib.Data.List.Nodup

namespace OpenAsip
set_option autoImplicit true

namespace SwapRemoval

/-- The element at the place is replaced with the last one, which is then removed. -/
def swapRemove (l : List α) (i : Nat) (last : α) : List α := (l.set i last).dropLast

/-- Where an element is afterwards. -/
def place (l : List α) (i j : Nat) : Nat := if j = l.length - 1 then i else j

section
variable {l : List α} {last x : α} {i j : Nat}

theorem length_swapRemove : (swapRemove l i last).length = l.length - 1 := by
  simp [swapRemove]

theorem place_lt (hi : i < l.length) (hj : j < l.length) (hne : j ≠ i) :
    place l i j < l.length - 1 := by
  rw [place]
  split <;> omega

theorem place_ne (hi : i < l.length) (hne : j ≠ i) (hj : j < l.length) (hk : k < l.length)
    (hkne : k ≠ i) (h : place l i j = place l i k) : j = k := by
  rw [place, place] at h
  split at h <;> split at h <;> omega

theorem getElem?_place (hi : i < l.length) (hlast : l.getLast? = some last) (hne : j ≠ i)
    (hj : j < l.length) : (swapRemove l i last)[place l i j]? = l[j]? := by
  rw [List.getLast?_eq_getElem?] at hlast
  rw [place, swapRemove]
  by_cases h : j = l.length - 1
  · rw [if_pos h, List.getElem?_dropLast, if_pos (by simp; omega), List.getElem?_set_self hi, h,
      hlast]
  · rw [if_neg h, List.getElem?_dropLast, if_pos (by simp; omega), List.getElem?_set_ne hne.symm]

theorem exists_place (hi : i < l.length) (hlast : l.getLast? = some last)
    (h : (swapRemove l i last)[k]? = some x) :
    ∃ j, j ≠ i ∧ place l i j = k ∧ l[j]? = some x := by
  rw [List.getLast?_eq_getElem?] at hlast
  have hk := (List.getElem?_eq_some_iff.1 h).1
  rw [length_swapRemove] at hk
  rw [swapRemove, List.getElem?_dropLast, if_pos (by simpa using hk)] at h
  by_cases hki : k = i
  · subst hki
    rw [List.getElem?_set_self hi] at h
    exact ⟨l.length - 1, by omega, by rw [place, if_pos rfl], hlast.trans h⟩
  · rw [List.getElem?_set_ne (Ne.symm hki)] at h
    exact ⟨k, hki, by rw [place, if_neg (by omega)], h⟩

theorem nodup_swapRemove (hl : l.Nodup) (hi : i < l.length) (hlast : l.getLast? = some last) :
    (swapRemove l i last).Nodup := by
  rw [List.nodup_iff_injective_getElem]
  intro ⟨a, ha⟩ ⟨b, hb⟩ hab
  obtain ⟨j, hj, hja, hlj⟩ := exists_place hi hlast (List.getElem?_eq_getElem ha)
  obtain ⟨k, hk, hkb, hlk⟩ := exists_place hi hlast (List.getElem?_eq_getElem hb)
  have hjk : j = k := by
    obtain ⟨hjl, hlj⟩ := List.getElem?_eq_some_iff.1 hlj
    obtain ⟨hkl, hlk⟩ := List.getElem?_eq_some_iff.1 hlk
    exact (List.Nodup.getElem_inj_iff hl).1 (hlj.trans (hab.trans hlk.symm))
  exact Fin.ext (hja.symm.trans ((congrArg _ hjk).trans hkb))

theorem mem_swapRemove (hl : l.Nodup) (hi : l[i]? = some x) (hlast : l.getLast? = some last) :
    y ∈ swapRemove l i last ↔ y ∈ l ∧ y ≠ x := by
  obtain ⟨hlt, hx⟩ := List.getElem?_eq_some_iff.1 hi
  constructor
  · intro h
    obtain ⟨k, hk⟩ := List.mem_iff_getElem?.1 h
    obtain ⟨j, hj, _, hlj⟩ := exists_place hlt hlast hk
    refine ⟨List.mem_of_getElem? hlj, ?_⟩
    rintro rfl
    obtain ⟨hjl, hlj⟩ := List.getElem?_eq_some_iff.1 hlj
    exact hj ((List.Nodup.getElem_inj_iff hl).1 (hlj.trans hx.symm))
  · rintro ⟨h, hne⟩
    obtain ⟨j, hj⟩ := List.mem_iff_getElem?.1 h
    have hji : j ≠ i := by
      rintro rfl
      exact hne (Option.some.inj (hj.symm.trans hi))
    have hjl := (List.getElem?_eq_some_iff.1 hj).1
    exact List.mem_of_getElem? ((getElem?_place hlt hlast hji hjl).trans hj)

end

end SwapRemoval

end OpenAsip
