import Mathlib.Data.List.Perm.Basic

namespace OpenAsip
set_option autoImplicit true

/-- A key that is in use from a cycle on. -/
structure UseRange (κ : Type u) where
  key : κ
  start : Nat
  cycles : Nat
deriving DecidableEq, Repr

namespace UseRange

def Covers (r : UseRange κ) (k : κ) (c : Nat) : Prop :=
  r.key = k ∧ r.start ≤ c ∧ c < r.start + r.cycles

def Covered (l : List (UseRange κ)) (k : κ) (c : Nat) : Prop := ∃ r ∈ l, r.Covers k c

/-- No two ranges cover the same use. -/
def Separate (l : List (UseRange κ)) : Prop :=
  l.Pairwise fun r r' => ∀ k c, r.Covers k c → ¬ r'.Covers k c

theorem covers_start {r : UseRange κ} (h : 0 < r.cycles) : r.Covers r.key r.start :=
  ⟨rfl, Nat.le_refl _, Nat.lt_add_of_pos_right h⟩

theorem covers_continued {r : UseRange κ} (h : r.start + r.cycles = c) (c' : Nat) :
    Covers { r with cycles := r.cycles + 1 } k c' ↔ r.Covers k c' ∨ r.key = k ∧ c' = c := by
  constructor
  · rintro ⟨hkey, hstart, hend⟩
    by_cases hlast : c' = c
    · exact .inr ⟨hkey, hlast⟩
    · have hend' : c' < r.start + (r.cycles + 1) := hend
      exact .inl ⟨hkey, hstart, by omega⟩
  · rintro (⟨hkey, hstart, hend⟩ | ⟨hkey, rfl⟩)
    · exact ⟨hkey, hstart, Nat.lt_succ_of_lt hend⟩
    · exact ⟨hkey, h ▸ Nat.le_add_right .., h ▸ Nat.lt_succ_self _⟩

theorem covered_cons {r : UseRange κ} {l : List (UseRange κ)} :
    Covered (r :: l) k c ↔ r.Covers k c ∨ Covered l k c := List.exists_mem_cons_iff ..

section Record
variable [DecidableEq κ]

/-- A use in a cycle, which continues the first range of the key that ends there or else begins a
new one. -/
def recordUse (k : κ) (c : Nat) : List (UseRange κ) → List (UseRange κ)
  | [] => [⟨k, c, 1⟩]
  | r :: l =>
    if r.key = k ∧ r.start + r.cycles = c then { r with cycles := r.cycles + 1 } :: l
    else r :: recordUse k c l

def recordAll (uses : List (κ × Nat)) (l : List (UseRange κ)) : List (UseRange κ) :=
  uses.foldl (fun l use => recordUse use.1 use.2 l) l

theorem covered_recordUse {l : List (UseRange κ)} :
    Covered (recordUse k c l) k' c' ↔ Covered l k' c' ∨ k' = k ∧ c' = c := by
  induction l with
  | nil =>
    rw [recordUse, covered_cons]
    constructor
    · rintro (⟨hkey, hstart, hend⟩ | ⟨_, hnil, _⟩)
      · exact .inr ⟨hkey.symm, Nat.le_antisymm (Nat.lt_succ_iff.1 hend) hstart⟩
      · cases hnil
    · rintro (⟨_, hnil, _⟩ | ⟨rfl, rfl⟩)
      · cases hnil
      · exact .inl ⟨rfl, Nat.le_refl _, Nat.lt_succ_self _⟩
  | cons r l ih =>
    rw [recordUse]
    split
    · rename_i hends
      rw [covered_cons, covered_cons, covers_continued hends.2, hends.1]
      constructor
      · rintro ((hcovers | ⟨rfl, rfl⟩) | hrest)
        · exact .inl (.inl hcovers)
        · exact .inr ⟨rfl, rfl⟩
        · exact .inl (.inr hrest)
      · rintro ((hcovers | hrest) | ⟨rfl, rfl⟩)
        · exact .inl (.inl hcovers)
        · exact .inr hrest
        · exact .inl (.inr ⟨rfl, rfl⟩)
    · rw [covered_cons, covered_cons, ih, or_assoc]

/-- The ranges of the key end before the cycle that is recorded. -/
theorem separate_recordUse {l : List (UseRange κ)} (hl : Separate l)
    (hfree : ∀ c', Covered l k c' → c' < c) : Separate (recordUse k c l) := by
  induction l with
  | nil => exact List.pairwise_singleton ..
  | cons r l ih =>
    obtain ⟨hhead, htail⟩ := List.pairwise_cons.1 hl
    have hrest : ∀ c', Covered l k c' → c' < c :=
      fun c' hc' => hfree c' (covered_cons.2 (.inr hc'))
    rw [recordUse]
    split
    · rename_i hends
      apply List.Pairwise.cons _ htail
      intro r' hr' k' c' hcovers hcovers'
      rcases (covers_continued hends.2 c').1 hcovers with hold | ⟨hkey, rfl⟩
      · exact hhead r' hr' k' c' hold hcovers'
      · have hkey' : k = k' := hends.1.symm.trans hkey
        subst hkey'
        exact Nat.lt_irrefl _ (hrest c' ⟨r', hr', hcovers'⟩)
    · apply List.Pairwise.cons _ (ih htail hrest)
      intro r' hr' k' c' hcovers hcovers'
      rcases covered_recordUse.1 ⟨r', hr', hcovers'⟩ with ⟨r'', hr'', hold⟩ | ⟨rfl, rfl⟩
      · exact hhead r'' hr'' k' c' hcovers hold
      · exact Nat.lt_irrefl _ (hfree c' ⟨r, List.mem_cons_self, hcovers⟩)

theorem pos_recordUse {l : List (UseRange κ)} (h : ∀ r ∈ l, 0 < r.cycles) :
    ∀ r ∈ recordUse k c l, 0 < r.cycles := by
  induction l with
  | nil =>
    intro r hr
    rw [List.mem_singleton.1 hr]
    exact Nat.one_pos
  | cons r l ih =>
    rw [recordUse]
    intro r' hr'
    split at hr'
    · rcases List.mem_cons.1 hr' with rfl | hr'
      · exact Nat.succ_pos _
      · exact h r' (List.mem_cons_of_mem r hr')
    · rcases List.mem_cons.1 hr' with rfl | hr'
      · exact h _ List.mem_cons_self
      · exact ih (fun r hr => h r (List.mem_cons_of_mem _ hr)) r' hr'

theorem covered_recordAll (uses : List (κ × Nat)) (l : List (UseRange κ)) :
    Covered (recordAll uses l) k c ↔ Covered l k c ∨ (k, c) ∈ uses := by
  induction uses generalizing l with
  | nil => exact (or_iff_left List.not_mem_nil).symm
  | cons use uses ih =>
    rw [recordAll, List.foldl_cons]
    change Covered (recordAll uses _) k c ↔ _
    rw [ih, covered_recordUse, List.mem_cons, or_assoc, Prod.ext_iff]

/-- The uses of each key are recorded in the order of their cycles. -/
theorem separate_recordAll {uses : List (κ × Nat)} {l : List (UseRange κ)} (hl : Separate l)
    (huses : uses.Pairwise fun use use' => use.1 = use'.1 → use.2 < use'.2)
    (hfree : ∀ use ∈ uses, ∀ c', Covered l use.1 c' → c' < use.2) :
    Separate (recordAll uses l) := by
  induction uses generalizing l with
  | nil => exact hl
  | cons use uses ih =>
    obtain ⟨hhead, htail⟩ := List.pairwise_cons.1 huses
    apply ih (separate_recordUse hl (hfree use List.mem_cons_self)) htail
    intro use' huse' c' hc'
    rcases covered_recordUse.1 hc' with hold | ⟨hkey, rfl⟩
    · exact hfree use' (List.mem_cons_of_mem use huse') c' hold
    · exact hhead use' huse' hkey.symm

theorem pos_recordAll (uses : List (κ × Nat)) {l : List (UseRange κ)} (h : ∀ r ∈ l, 0 < r.cycles) :
    ∀ r ∈ recordAll uses l, 0 < r.cycles := by
  induction uses generalizing l with
  | nil => exact h
  | cons use uses ih => exact ih (pos_recordUse h)

end Record

/-- A range is put behind those that do not begin later. -/
def insertByStart (r : UseRange κ) : List (UseRange κ) → List (UseRange κ)
  | [] => [r]
  | r' :: l => if r.start < r'.start then r :: r' :: l else r' :: insertByStart r l

def sortByStart (l : List (UseRange κ)) : List (UseRange κ) :=
  l.foldl (fun l r => insertByStart r l) []

theorem insertByStart_perm (r : UseRange κ) (l : List (UseRange κ)) :
    (insertByStart r l).Perm (r :: l) := by
  induction l with
  | nil => exact .refl _
  | cons r' l ih =>
    rw [insertByStart]
    split
    · exact .refl _
    · exact (ih.cons r').trans (.swap r r' l)

theorem insertByStart_sorted (r : UseRange κ) {l : List (UseRange κ)}
    (h : l.Pairwise fun r r' => r.start ≤ r'.start) :
    (insertByStart r l).Pairwise fun r r' => r.start ≤ r'.start := by
  induction l with
  | nil => exact List.pairwise_singleton ..
  | cons r' l ih =>
    obtain ⟨hhead, htail⟩ := List.pairwise_cons.1 h
    rw [insertByStart]
    split
    · rename_i hlt
      apply List.Pairwise.cons _ h
      intro r'' hr''
      rcases List.mem_cons.1 hr'' with rfl | hr''
      · exact Nat.le_of_lt hlt
      · exact Nat.le_trans (Nat.le_of_lt hlt) (hhead r'' hr'')
    · rename_i hge
      apply List.Pairwise.cons _ (ih htail)
      intro r'' hr''
      rcases List.mem_cons.1 ((insertByStart_perm r l).mem_iff.1 hr'') with rfl | hr''
      · exact Nat.not_lt.1 hge
      · exact hhead r'' hr''

theorem foldl_insertByStart (l acc : List (UseRange κ)) :
    (l.foldl (fun l r => insertByStart r l) acc).Perm (l ++ acc) := by
  induction l generalizing acc with
  | nil => exact .refl _
  | cons r l ih =>
    rw [List.foldl_cons]
    exact (ih _).trans (((insertByStart_perm r acc).append_left l).trans List.perm_middle)

theorem sortByStart_perm (l : List (UseRange κ)) : (sortByStart l).Perm l := by
  have h := foldl_insertByStart l []
  rw [List.append_nil] at h
  exact h

theorem sortByStart_sorted (l : List (UseRange κ)) :
    (sortByStart l).Pairwise fun r r' => r.start ≤ r'.start := by
  have hfold : ∀ acc : List (UseRange κ), (acc.Pairwise fun r r' => r.start ≤ r'.start) →
      (l.foldl (fun l r => insertByStart r l) acc).Pairwise fun r r' => r.start ≤ r'.start := by
    induction l with
    | nil => exact fun acc h => h
    | cons r l ih => exact fun acc h => ih _ (insertByStart_sorted r h)
  exact hfold [] .nil

end UseRange

end OpenAsip
