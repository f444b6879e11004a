import Mathlib.Data.Finset.Card
import Mathlib.Data.List.Infix

namespace OpenAsip
set_option autoImplicit true

/-- A binary trie of which the nodes count the patterns that go through them. -/
inductive CountedTrie where
  | null
  | node (count : Nat) (zero one : CountedTrie)
deriving DecidableEq, Repr

namespace CountedTrie

def count : CountedTrie → Nat
  | null => 0
  | node n _ _ => n

def child : CountedTrie → Bool → CountedTrie
  | null, _ => null
  | node _ zero _, false => zero
  | node _ _ one, true => one

@[simp] theorem count_null : null.count = 0 := rfl

@[simp] theorem count_node (n : Nat) (zero one : CountedTrie) : (node n zero one).count = n := rfl

@[simp] theorem child_null (b : Bool) : null.child b = null := rfl

@[simp] theorem child_false (n : Nat) (zero one : CountedTrie) :
    (node n zero one).child false = zero := rfl

@[simp] theorem child_true (n : Nat) (zero one : CountedTrie) :
    (node n zero one).child true = one := rfl

/-- The node at the end of a path. -/
def find : CountedTrie → List Bool → CountedTrie
  | t, [] => t
  | t, b :: l => (t.child b).find l

/-- A pattern ends at a node that counts one more than its children. -/
def Terminates (t : CountedTrie) : Prop :=
  t.count = (t.child false).count + (t.child true).count + 1

instance (t : CountedTrie) : Decidable t.Terminates := inferInstanceAs (Decidable (_ = _))

/-- The patterns of a trie. -/
def patterns : CountedTrie → Finset (List Bool)
  | null => ∅
  | node n zero one =>
    (if (node n zero one).Terminates then {[]} else ∅) ∪
      (zero.patterns.image (List.cons false) ∪ one.patterns.image (List.cons true))

/-- The counters of the nodes are right, and every node but the first has a pattern. -/
def WellFormed : CountedTrie → Prop
  | null => True
  | node n zero one =>
    zero.count + one.count ≤ n ∧ n ≤ zero.count + one.count + 1 ∧
      (zero ≠ null → 0 < zero.count) ∧ (one ≠ null → 0 < one.count) ∧
      zero.WellFormed ∧ one.WellFormed

theorem WellFormed.child (h : WellFormed t) (b : Bool) : (t.child b).WellFormed := by
  cases t with
  | null => exact h
  | node n zero one =>
    obtain ⟨-, -, -, -, hzero, hone⟩ := h
    cases b with
    | false => exact hzero
    | true => exact hone

theorem WellFormed.child_pos (h : WellFormed t) (b : Bool) (hb : t.child b ≠ null) :
    0 < (t.child b).count := by
  cases t with
  | null => exact (hb rfl).elim
  | node n zero one =>
    obtain ⟨-, -, hzero, hone, -, -⟩ := h
    cases b with
    | false => exact hzero hb
    | true => exact hone hb

theorem WellFormed.le_count (h : WellFormed t) :
    (t.child false).count + (t.child true).count ≤ t.count := by
  cases t with
  | null => exact Nat.le_refl 0
  | node n zero one => exact h.1

theorem WellFormed.count_le (h : WellFormed t) :
    t.count ≤ (t.child false).count + (t.child true).count + 1 := by
  cases t with
  | null => exact Nat.zero_le _
  | node n zero one => exact h.2.1

theorem WellFormed.find (h : WellFormed t) (l : List Bool) : (t.find l).WellFormed := by
  induction l generalizing t with
  | nil => exact h
  | cons b l ih => exact ih (h.child b)

@[simp] theorem find_null (l : List Bool) : null.find l = null := by
  induction l with
  | nil => rfl
  | cons b l ih => exact ih

theorem find_append (t : CountedTrie) (l l' : List Bool) :
    t.find (l ++ l') = (t.find l).find l' := by
  induction l generalizing t with
  | nil => rfl
  | cons b l ih => exact ih (t.child b)

theorem nil_mem_patterns (t : CountedTrie) : [] ∈ t.patterns ↔ t.Terminates := by
  cases t with
  | null => simp [patterns, Terminates]
  | node n zero one =>
    rw [patterns]
    by_cases h : (node n zero one).Terminates
    · simp [h]
    · simp [h]

theorem cons_mem_patterns (t : CountedTrie) (b : Bool) (l : List Bool) :
    b :: l ∈ t.patterns ↔ l ∈ (t.child b).patterns := by
  cases t with
  | null => simp [patterns]
  | node n zero one =>
    rw [patterns]
    cases b with
    | false =>
      by_cases h : (node n zero one).Terminates
      · simp [h]
      · simp [h]
    | true =>
      by_cases h : (node n zero one).Terminates
      · simp [h]
      · simp [h]

theorem append_mem_patterns (t : CountedTrie) (q l : List Bool) :
    q ++ l ∈ t.patterns ↔ l ∈ (t.find q).patterns := by
  induction q generalizing t with
  | nil => rfl
  | cons b q ih =>
    rw [List.cons_append, cons_mem_patterns]
    exact ih (t.child b)

theorem mem_patterns (t : CountedTrie) (l : List Bool) :
    l ∈ t.patterns ↔ (t.find l).Terminates := by
  rw [← nil_mem_patterns, ← append_mem_patterns, List.append_nil]

/-- The counter of a node is the number of its patterns. -/
theorem WellFormed.card_patterns (h : WellFormed t) : t.patterns.card = t.count := by
  induction t with
  | null => rfl
  | node n zero one ihzero ihone =>
    obtain ⟨hle, hlt, -, -, hzero, hone⟩ := h
    have hsides : Disjoint (zero.patterns.image (List.cons false))
        (one.patterns.image (List.cons true)) := by
      rw [Finset.disjoint_left]
      intro l hl hl'
      obtain ⟨l₀, -, rfl⟩ := Finset.mem_image.1 hl
      obtain ⟨l₁, -, he⟩ := Finset.mem_image.1 hl'
      cases he
    have hcard : (zero.patterns.image (List.cons false) ∪
        one.patterns.image (List.cons true)).card = zero.count + one.count := by
      rw [Finset.card_union_of_disjoint hsides,
        Finset.card_image_of_injective _ List.cons_injective,
        Finset.card_image_of_injective _ List.cons_injective, ihzero hzero, ihone hone]
    rw [patterns, count_node]
    by_cases ht : (node n zero one).Terminates
    · have hend : Disjoint {[]} (zero.patterns.image (List.cons false) ∪
          one.patterns.image (List.cons true)) := by
        simp
      rw [if_pos ht, Finset.card_union_of_disjoint hend, hcard, Finset.card_singleton]
      rw [Terminates] at ht
      simp only [count_node, child_false, child_true] at ht
      omega
    · rw [if_neg ht, Finset.empty_union, hcard]
      rw [Terminates] at ht
      simp only [count_node, child_false, child_true] at ht
      omega

/-- The counter at the end of a path is the number of patterns that start with the path. -/
theorem WellFormed.card_prefix (h : WellFormed t) (q : List Bool) :
    (t.patterns.filter fun l => q <+: l).card = (t.find q).count := by
  have himage : t.patterns.filter (fun l => q <+: l) = (t.find q).patterns.image (q ++ ·) := by
    ext l
    rw [Finset.mem_filter, Finset.mem_image]
    constructor
    · rintro ⟨hl, r, rfl⟩
      exact ⟨r, (append_mem_patterns t q r).1 hl, rfl⟩
    · rintro ⟨r, hr, rfl⟩
      exact ⟨(append_mem_patterns t q r).2 hr, List.prefix_append q r⟩
  rw [himage, Finset.card_image_of_injective _ (List.append_right_injective q),
    (h.find q).card_patterns]

theorem WellFormed.count_child_le (h : WellFormed t) (b : Bool) : (t.child b).count ≤ t.count := by
  have hle := h.le_count
  cases b with
  | false => omega
  | true => omega

theorem WellFormed.count_find_le (h : WellFormed t) (l : List Bool) :
    (t.find l).count ≤ t.count := by
  induction l generalizing t with
  | nil => exact Nat.le_refl _
  | cons b l ih => exact Nat.le_trans (ih (h.child b)) (h.count_child_le b)

/-- The pattern is counted at all nodes of its path. -/
def add : CountedTrie → List Bool → CountedTrie
  | t, [] => node (t.count + 1) (t.child false) (t.child true)
  | t, false :: l => node (t.count + 1) ((t.child false).add l) (t.child true)
  | t, true :: l => node (t.count + 1) (t.child false) ((t.child true).add l)

/-- A node without patterns is left out. -/
def prune (t : CountedTrie) : CountedTrie := if t.count = 0 then null else t

def remove : CountedTrie → List Bool → CountedTrie
  | t, [] => node (t.count - 1) (t.child false) (t.child true)
  | t, false :: l => node (t.count - 1) ((t.child false).remove l).prune (t.child true)
  | t, true :: l => node (t.count - 1) (t.child false) ((t.child true).remove l).prune

@[simp] theorem count_add (t : CountedTrie) (l : List Bool) : (t.add l).count = t.count + 1 := by
  cases l with
  | nil => rfl
  | cons b l =>
    cases b with
    | false => rfl
    | true => rfl

@[simp] theorem count_remove (t : CountedTrie) (l : List Bool) :
    (t.remove l).count = t.count - 1 := by
  cases l with
  | nil => rfl
  | cons b l =>
    cases b with
    | false => rfl
    | true => rfl

@[simp] theorem count_prune (t : CountedTrie) : t.prune.count = t.count := by
  rw [prune]
  split
  · rename_i h
    rw [h]
    rfl
  · rfl

/-- Only a node that counts nothing has no patterns. -/
theorem WellFormed.count_pos (h : WellFormed t) (hl : l ∈ t.patterns) : 0 < t.count := by
  rw [← h.card_patterns]
  exact Finset.card_pos.2 ⟨l, hl⟩

theorem WellFormed.prune (h : WellFormed t) : t.prune.WellFormed := by
  rw [CountedTrie.prune]
  split
  · exact trivial
  · exact h

theorem WellFormed.patterns_prune (h : WellFormed t) : t.prune.patterns = t.patterns := by
  rw [CountedTrie.prune]
  split
  · rename_i hzero
    exact (Finset.card_eq_zero.1 (h.card_patterns.trans hzero)).symm
  · rfl

theorem prune_pos (t : CountedTrie) (h : t.prune ≠ null) : 0 < t.prune.count := by
  rw [prune] at h ⊢
  split at h
  · exact (h rfl).elim
  · rename_i hzero
    rw [if_neg hzero]
    exact Nat.pos_of_ne_zero hzero

/-- A pattern that is not there is added. -/
theorem WellFormed.add (h : WellFormed t) (hl : l ∉ t.patterns) : (t.add l).WellFormed := by
  have hle := h.le_count
  have hcount := h.count_le
  induction l generalizing t with
  | nil =>
    rw [nil_mem_patterns, Terminates] at hl
    exact ⟨by omega, by omega, h.child_pos false, h.child_pos true, h.child false, h.child true⟩
  | cons b l ih =>
    rw [cons_mem_patterns] at hl
    have hchild := ih (h.child b) hl (h.child b).le_count (h.child b).count_le
    cases b with
    | false =>
      refine ⟨?_, ?_, fun _ => ?_, h.child_pos true, hchild, h.child true⟩
      · rw [count_add]
        omega
      · rw [count_add]
        omega
      · rw [count_add]
        exact Nat.succ_pos _
    | true =>
      refine ⟨?_, ?_, h.child_pos false, fun _ => ?_, h.child false, hchild⟩
      · rw [count_add]
        omega
      · rw [count_add]
        omega
      · rw [count_add]
        exact Nat.succ_pos _

theorem child_add_cons (t : CountedTrie) (b : Bool) (l : List Bool) (b' : Bool) :
    (t.add (b :: l)).child b' = if b' = b then (t.child b).add l else t.child b' := by
  cases b with
  | false =>
    cases b' with
    | false => rfl
    | true => rfl
  | true =>
    cases b' with
    | false => rfl
    | true => rfl

theorem child_add_nil (t : CountedTrie) (b : Bool) : (t.add []).child b = t.child b := by
  cases b with
  | false => rfl
  | true => rfl

/-- A pattern that goes on below a node does not change whether one ends there. -/
theorem terminates_add_cons (t : CountedTrie) (b : Bool) (l : List Bool) :
    (t.add (b :: l)).Terminates ↔ t.Terminates := by
  rw [Terminates, Terminates, child_add_cons, child_add_cons, count_add]
  cases b with
  | false =>
    rw [if_pos rfl, if_neg Bool.noConfusion, count_add]
    omega
  | true =>
    rw [if_neg Bool.noConfusion, if_pos rfl, count_add]
    omega

theorem WellFormed.mem_add (h : WellFormed t) (hl : l ∉ t.patterns) :
    l' ∈ (t.add l).patterns ↔ l' = l ∨ l' ∈ t.patterns := by
  induction l generalizing t l' with
  | nil =>
    cases l' with
    | nil =>
      have hle := h.le_count
      have hcount := h.count_le
      rw [nil_mem_patterns, Terminates] at hl
      rw [nil_mem_patterns, Terminates, child_add_nil, child_add_nil, count_add]
      exact ⟨fun _ => .inl rfl, fun _ => by omega⟩
    | cons b' l' =>
      rw [cons_mem_patterns, cons_mem_patterns, child_add_nil]
      exact ⟨.inr, fun hm => hm.resolve_left (List.cons_ne_nil b' l')⟩
  | cons b l ih =>
    cases l' with
    | nil =>
      rw [nil_mem_patterns, nil_mem_patterns, terminates_add_cons]
      exact ⟨.inr, fun hm => hm.resolve_left (List.cons_ne_nil b l).symm⟩
    | cons b' l' =>
      rw [cons_mem_patterns] at hl
      rw [cons_mem_patterns, cons_mem_patterns, child_add_cons, List.cons.injEq]
      by_cases hb : b' = b
      · rw [if_pos hb, ih (h.child b) hl, hb, eq_self_iff_true, true_and]
      · rw [if_neg hb]
        exact ⟨.inr, fun hm => hm.resolve_left fun he => hb he.1⟩

theorem child_remove_cons (t : CountedTrie) (b : Bool) (l : List Bool) (b' : Bool) :
    (t.remove (b :: l)).child b' = if b' = b then ((t.child b).remove l).prune else t.child b' := by
  cases b with
  | false =>
    cases b' with
    | false => rfl
    | true => rfl
  | true =>
    cases b' with
    | false => rfl
    | true => rfl

theorem child_remove_nil (t : CountedTrie) (b : Bool) : (t.remove []).child b = t.child b := by
  cases b with
  | false => rfl
  | true => rfl

/-- A pattern that is there is removed. -/
theorem WellFormed.remove (h : WellFormed t) (hl : l ∈ t.patterns) : (t.remove l).WellFormed := by
  have hle := h.le_count
  have hcount := h.count_le
  induction l generalizing t with
  | nil =>
    rw [nil_mem_patterns, Terminates] at hl
    exact ⟨by omega, by omega, h.child_pos false, h.child_pos true, h.child false, h.child true⟩
  | cons b l ih =>
    rw [cons_mem_patterns] at hl
    have hpos := (h.child b).count_pos hl
    have hchild := ih (h.child b) hl (h.child b).le_count (h.child b).count_le
    cases b with
    | false =>
      refine ⟨?_, ?_, prune_pos _, h.child_pos true, hchild.prune, h.child true⟩
      · rw [count_prune, count_remove]
        omega
      · rw [count_prune, count_remove]
        omega
    | true =>
      refine ⟨?_, ?_, h.child_pos false, prune_pos _, h.child false, hchild.prune⟩
      · rw [count_prune, count_remove]
        omega
      · rw [count_prune, count_remove]
        omega

theorem WellFormed.terminates_remove_cons (h : WellFormed t) (hl : b :: l ∈ t.patterns) :
    (t.remove (b :: l)).Terminates ↔ t.Terminates := by
  have hle := h.le_count
  have hpos := (h.child b).count_pos ((cons_mem_patterns t b l).1 hl)
  rw [Terminates, Terminates, child_remove_cons, child_remove_cons, count_remove]
  cases b with
  | false =>
    rw [if_pos rfl, if_neg Bool.noConfusion, count_prune, count_remove]
    omega
  | true =>
    rw [if_neg Bool.noConfusion, if_pos rfl, count_prune, count_remove]
    omega

theorem WellFormed.mem_remove (h : WellFormed t) (hl : l ∈ t.patterns) :
    l' ∈ (t.remove l).patterns ↔ l' ≠ l ∧ l' ∈ t.patterns := by
  induction l generalizing t l' with
  | nil =>
    cases l' with
    | nil =>
      rw [nil_mem_patterns, Terminates] at hl
      rw [nil_mem_patterns, Terminates, child_remove_nil, child_remove_nil, count_remove]
      exact ⟨fun _ => by omega, fun hm => (hm.1 rfl).elim⟩
    | cons b' l' =>
      rw [cons_mem_patterns, cons_mem_patterns, child_remove_nil]
      exact ⟨fun hm => ⟨List.cons_ne_nil b' l', hm⟩, And.right⟩
  | cons b l ih =>
    cases l' with
    | nil =>
      rw [nil_mem_patterns, nil_mem_patterns, h.terminates_remove_cons hl]
      exact ⟨fun hm => ⟨(List.cons_ne_nil b l).symm, hm⟩, And.right⟩
    | cons b' l' =>
      rw [cons_mem_patterns] at hl
      rw [cons_mem_patterns, cons_mem_patterns, child_remove_cons, ne_eq, List.cons.injEq]
      by_cases hb : b' = b
      · rw [if_pos hb, ((h.child b).remove hl).patterns_prune, ih (h.child b) hl, hb,
          eq_self_iff_true, true_and]
      · rw [if_neg hb]
        exact ⟨fun hm => ⟨fun he => hb he.1, hm⟩, And.right⟩

/-- The longest pattern that starts the list. -/
def longestPrefix : CountedTrie → List Bool → Option (List Bool)
  | t, [] => if t.Terminates then some [] else none
  | t, b :: l =>
    match (t.child b).longestPrefix l with
    | some p => some (b :: p)
    | none => if t.Terminates then some [] else none

/-- The pattern found is one of the trie and starts the list, and no longer one does. -/
def IsLongest (t : CountedTrie) (l : List Bool) : Option (List Bool) → Prop
  | some p => p ∈ t.patterns ∧ p <+: l ∧ ∀ p' ∈ t.patterns, p' <+: l → p'.length ≤ p.length
  | none => ∀ p' ∈ t.patterns, ¬ p' <+: l

theorem longestPrefix_isLongest (t : CountedTrie) (l : List Bool) :
    t.IsLongest l (t.longestPrefix l) := by
  have hend : ∀ {t : CountedTrie} {l : List Bool}, (∀ p' ∈ t.patterns, p' <+: l → p' = []) →
      t.IsLongest l (if t.Terminates then some [] else none) := by
    intro t l hnil
    by_cases ht : t.Terminates
    · rw [if_pos ht]
      exact ⟨(nil_mem_patterns t).2 ht, List.nil_prefix,
        fun p' hp' hl => by rw [hnil p' hp' hl]⟩
    · rw [if_neg ht]
      intro p' hp' hl
      rw [hnil p' hp' hl, nil_mem_patterns] at hp'
      exact ht hp'
  induction l generalizing t with
  | nil =>
    rw [longestPrefix]
    exact hend fun p' _ hl => List.prefix_nil.1 hl
  | cons b l ih =>
    have hchild := ih (t.child b)
    rw [longestPrefix]
    cases hp : (t.child b).longestPrefix l with
    | some p =>
      rw [hp] at hchild
      obtain ⟨hmem, hpre, hmax⟩ := hchild
      refine ⟨(cons_mem_patterns t b p).2 hmem, List.cons_prefix_cons.2 ⟨rfl, hpre⟩, ?_⟩
      intro p' hp' hl
      cases p' with
      | nil => exact Nat.zero_le _
      | cons b' p' =>
        obtain ⟨rfl, htail⟩ := List.cons_prefix_cons.1 hl
        exact Nat.succ_le_succ (hmax p' ((cons_mem_patterns t b' p').1 hp') htail)
    | none =>
      rw [hp] at hchild
      apply hend
      intro p' hp' hl
      cases p' with
      | nil => rfl
      | cons b' p' =>
        obtain ⟨rfl, htail⟩ := List.cons_prefix_cons.1 hl
        exact (hchild p' ((cons_mem_patterns t b' p').1 hp') htail).elim

end CountedTrie
end OpenAsip
