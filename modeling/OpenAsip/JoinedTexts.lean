import Mathlib.Data.List.Basic
import Mathlib.Data.List.TakeWhile

namespace OpenAsip
set_option autoImplicit true

/-! Texts that are joined with separators, and what can be read back from them. -/

namespace JoinedTexts
variable {sep : α} {x y s t : List α} {l l' : List (List α)}

/-- The first separator ends the first part. -/
theorem append_cons_inj (hx : sep ∉ x) (hy : sep ∉ y) (h : x ++ sep :: s = y ++ sep :: t) :
    x = y ∧ s = t := by
  induction x generalizing y with
  | nil =>
    cases y with
    | nil => exact ⟨rfl, (List.cons.inj h).2⟩
    | cons b y =>
      obtain ⟨rfl, -⟩ := List.cons.inj h
      exact (hy List.mem_cons_self).elim
  | cons a x ih =>
    cases y with
    | nil =>
      obtain ⟨rfl, -⟩ := List.cons.inj h
      exact (hx List.mem_cons_self).elim
    | cons b y =>
      obtain ⟨rfl, htail⟩ := List.cons.inj h
      obtain ⟨rfl, hst⟩ := ih (fun hm => hx (List.mem_cons_of_mem a hm))
        (fun hm => hy (List.mem_cons_of_mem a hm)) htail
      exact ⟨rfl, hst⟩

theorem intercalate_cons (sep : α) (x : List α) (l : List (List α)) :
    ∃ s, (s = [] ∨ ∃ t, s = sep :: t) ∧ [sep].intercalate (x :: l) = x ++ s := by
  cases l with
  | nil => exact ⟨[], .inl rfl, by rw [List.intercalate_singleton, List.append_nil]⟩
  | cons y l =>
    refine ⟨sep :: [sep].intercalate (y :: l), .inr ⟨_, rfl⟩, ?_⟩
    rw [List.intercalate_cons_cons, List.append_assoc, List.singleton_append]

theorem intercalate_tail (h : [sep].intercalate (x :: l) = [sep].intercalate (x :: l')) :
    [sep].intercalate l = [sep].intercalate l' := by
  cases l with
  | nil =>
    cases l' with
    | nil => rfl
    | cons y' l' =>
      rw [List.intercalate_cons_cons, List.intercalate_singleton, List.append_assoc,
        List.singleton_append] at h
      cases List.append_right_eq_self.1 h.symm
  | cons y l =>
    cases l' with
    | nil =>
      rw [List.intercalate_cons_cons, List.intercalate_singleton, List.append_assoc,
        List.singleton_append] at h
      cases List.append_right_eq_self.1 h
    | cons y' l' =>
      rw [List.intercalate_cons_cons, List.intercalate_cons_cons, List.append_assoc,
        List.append_assoc] at h
      exact (List.cons.inj (List.append_cancel_left h)).2

section First
variable [DecidableEq α]

/-- What comes before the first separator. -/
def first (sep : α) (x : List α) : List α := x.takeWhile fun a => a ≠ sep

theorem first_append (hs : s = [] ∨ ∃ t, s = sep :: t) : first sep (x ++ s) = first sep x := by
  induction x with
  | nil =>
    rcases hs with rfl | ⟨t, rfl⟩
    · rfl
    · rw [List.nil_append, first, List.takeWhile_cons_of_neg]
      · rfl
      · rw [decide_eq_true_iff]
        exact fun hne => hne rfl
  | cons a x ih =>
    rw [List.cons_append, first, first]
    by_cases ha : a = sep
    · rw [List.takeWhile_cons_of_neg, List.takeWhile_cons_of_neg]
      · rw [decide_eq_true_iff]
        exact fun hne => hne ha
      · rw [decide_eq_true_iff]
        exact fun hne => hne ha
    · have hpos : decide (a ≠ sep) = true := decide_eq_true ha
      rw [List.takeWhile_cons, List.takeWhile_cons, if_pos hpos, if_pos hpos]
      exact congrArg (a :: ·) ih

theorem first_append_of_notMem (h : sep ∉ x) (s : List α) :
    first sep (x ++ s) = x ++ first sep s := by
  apply List.takeWhile_append_of_pos
  intro a ha
  rw [decide_eq_true_iff]
  rintro rfl
  exact h ha

/-- Parts may contain separators as long as the first word of a part tells which one it is. -/
theorem intercalate_inj (hne : ∀ x ∈ l, x ≠ []) (hne' : ∀ y ∈ l', y ≠ [])
    (hfirst : ∀ x ∈ l, ∀ y ∈ l', first sep x = first sep y → x = y)
    (h : [sep].intercalate l = [sep].intercalate l') : l = l' := by
  induction l generalizing l' with
  | nil =>
    cases l' with
    | nil => rfl
    | cons y l' =>
      obtain ⟨s, -, hs⟩ := intercalate_cons sep y l'
      rw [List.intercalate_nil, hs] at h
      exact (hne' y List.mem_cons_self (List.append_eq_nil_iff.1 h.symm).1).elim
  | cons x l ih =>
    cases l' with
    | nil =>
      obtain ⟨s, -, hs⟩ := intercalate_cons sep x l
      rw [List.intercalate_nil, hs] at h
      exact (hne x List.mem_cons_self (List.append_eq_nil_iff.1 h).1).elim
    | cons y l' =>
      obtain ⟨s, hsep, hs⟩ := intercalate_cons sep x l
      obtain ⟨s', hsep', hs'⟩ := intercalate_cons sep y l'
      have hxy : x = y := by
        apply hfirst x List.mem_cons_self y List.mem_cons_self
        rw [← first_append hsep, ← hs, h, hs', first_append hsep']
      subst hxy
      congr 1
      exact ih (fun z hz => hne z (List.mem_cons_of_mem _ hz))
        (fun z hz => hne' z (List.mem_cons_of_mem _ hz))
        (fun z hz w hw => hfirst z (List.mem_cons_of_mem _ hz) w (List.mem_cons_of_mem _ hw))
        (intercalate_tail h)

end First
end JoinedTexts

end OpenAsip
