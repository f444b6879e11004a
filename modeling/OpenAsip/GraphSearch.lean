import Mathlib.Data.List.Sort
import Mathlib.Logic.Relation
import Mathlib.Order.Basic

namespace OpenAsip
set_option autoImplicit true

namespace GraphSearch

section
variable {α σ : Type} [DecidableEq α] (r : α → α → Prop) [DecidableRel r]

/-- The nodes that have not been found go into the queue, which is a set in the order of `r`, unless
one of them is looked for. -/
def enqueue (dest : α) : List α → List α → List α → Option (List α × List α)
  | [], queue, found => some (queue, found)
  | y :: ys, queue, found =>
    if y = dest then none
    else if y ∈ found then enqueue dest ys queue found
    else enqueue dest ys (if y ∈ queue then queue else queue.orderedInsert r y) (y :: found)

/-- A search that goes on only from nodes that are worth it. What tells this may fail and has a
state. -/
def search (succs : α → List α) (worth : σ → α → Option (Bool × σ)) (dest : α) :
    Nat → List α → List α → σ → Option (Bool × σ)
  | _, [], _, s => some (false, s)
  | 0, _ :: _, _, _ => none
  | fuel + 1, x :: queue, found, s =>
    (worth s x).bind fun (b, s) =>
      if b then
        match enqueue r dest (succs x) queue found with
        | none => some (true, s)
        | some (queue, found) => search succs worth dest fuel queue found s
      else search succs worth dest fuel queue found s

def Next (succs : α → List α) (x y : α) : Prop := y ∈ succs x

/-- How much there is left to do, where the nodes are those of a list. -/
def todo (nodes queue found : List α) : Nat :=
  queue.length + (nodes.filter fun x => x ∉ found).length

/-- What has been found can be reached, and has been gone on from, is in the queue or is not worth
it. -/
structure Searching (succs : α → List α) (p : α → Bool) (src dest : α) (queue found : List α) :
    Prop where
  reached : ∀ x, x ∈ queue ∨ x ∈ found → Relation.ReflTransGen (Next succs) src x
  closed : ∀ x, x = src ∨ x ∈ found →
    x ∈ queue ∨ p x = false ∨ ∀ y ∈ succs x, y ≠ dest ∧ y ∈ found

variable {r} {succs : α → List α} {worth : σ → α → Option (Bool × σ)} {p : α → Bool}
  {src dest : α} {nodes queue found queue' found' ys : List α} {s : σ}

theorem enqueue_eq_none (h : enqueue r dest ys queue found = none) : dest ∈ ys := by
  induction ys generalizing queue found with
  | nil => cases h
  | cons y ys ih =>
    rw [enqueue] at h
    split at h
    · next heq => exact heq ▸ List.mem_cons_self
    · split at h
      · exact List.mem_cons_of_mem _ (ih h)
      · exact List.mem_cons_of_mem _ (ih h)

theorem todo_cons (hy : y ∈ nodes) (hfound : y ∉ found) :
    todo nodes (queue.orderedInsert r y) (y :: found) ≤ todo nodes queue found := by
  have heq : (nodes.filter fun x => x ∉ y :: found) =
      (nodes.filter fun x => x ∉ found).filter fun x => x ≠ y := by
    rw [List.filter_filter]
    congr 1
    funext x
    simp
  have hlt : (nodes.filter fun x => x ∉ y :: found).length <
      (nodes.filter fun x => x ∉ found).length := by
    rw [heq]
    apply List.length_filter_lt_length_iff_exists.2
    exact ⟨y, List.mem_filter.2 ⟨hy, by simpa using hfound⟩, by simp⟩
  rw [todo, todo, List.orderedInsert_length]
  omega

theorem enqueue_eq_some (h : enqueue r dest ys queue found = some (queue', found')) :
    dest ∉ ys ∧ (∀ x, x ∈ found' ↔ x ∈ found ∨ x ∈ ys) ∧
      (∀ x, x ∈ queue' ↔ x ∈ queue ∨ x ∈ ys ∧ x ∉ found) := by
  induction ys generalizing queue found with
  | nil =>
    cases h
    simp
  | cons y ys ih =>
    rw [enqueue] at h
    split at h
    · cases h
    · next hne =>
      split at h
      · next hy =>
        obtain ⟨hdest, hfound, hqueue⟩ := ih h
        refine ⟨?_, fun x => ?_, fun x => ?_⟩
        · exact List.not_mem_cons_of_ne_of_not_mem (Ne.symm hne) hdest
        · rw [hfound, List.mem_cons]
          constructor
          · rintro (h | h)
            · exact .inl h
            · exact .inr (.inr h)
          · rintro (h | rfl | h)
            · exact .inl h
            · exact .inl hy
            · exact .inr h
        · rw [hqueue, List.mem_cons]
          constructor
          · rintro (h | ⟨h, hn⟩)
            · exact .inl h
            · exact .inr ⟨.inr h, hn⟩
          · rintro (h | ⟨rfl | h, hn⟩)
            · exact .inl h
            · exact absurd hy hn
            · exact .inr ⟨h, hn⟩
      · next hy =>
        obtain ⟨hdest, hfound, hqueue⟩ := ih h
        have hmem : ∀ x, x ∈ (if y ∈ queue then queue else queue.orderedInsert r y) ↔
            x ∈ queue ∨ x = y := by
          intro x
          split
          · next hq =>
            refine ⟨.inl, ?_⟩
            rintro (h | rfl)
            · exact h
            · exact hq
          · rw [List.mem_orderedInsert, or_comm]
        refine ⟨?_, fun x => ?_, fun x => ?_⟩
        · exact List.not_mem_cons_of_ne_of_not_mem (Ne.symm hne) hdest
        · rw [hfound, List.mem_cons, List.mem_cons, or_assoc, or_left_comm]
        · rw [hqueue, hmem, List.mem_cons, List.mem_cons, not_or]
          by_cases hxy : x = y
          · subst hxy
            simp [hy]
          · simp [hxy]

theorem todo_enqueue (h : enqueue r dest ys queue found = some (queue', found'))
    (hys : ∀ y ∈ ys, y ∈ nodes) : todo nodes queue' found' ≤ todo nodes queue found := by
  induction ys generalizing queue found with
  | nil =>
    cases h
    exact Nat.le_refl _
  | cons y ys ih =>
    obtain ⟨hy, hys⟩ := List.forall_mem_cons.1 hys
    rw [enqueue] at h
    split at h
    · cases h
    · split at h
      · exact ih h hys
      · next hfound =>
        apply Nat.le_trans (ih h hys)
        split
        · have hle : todo nodes (queue.orderedInsert r y) (y :: found) ≤ todo nodes queue found :=
            todo_cons hy hfound
          rw [todo, List.orderedInsert_length] at hle
          rw [todo]
          omega
        · exact todo_cons hy hfound

omit [DecidableEq α] in
/-- With nothing left to go on from, the node that is looked for cannot be reached. -/
theorem Searching.not_reached (hs : Searching succs p src dest [] found)
    (hp : ∀ x, Relation.ReflTransGen (Next succs) src x →
      Relation.ReflTransGen (Next succs) x dest → p x = true) :
    ¬Relation.TransGen (Next succs) src dest := by
  have hdone : ∀ x, x = src ∨ x ∈ found → Relation.ReflTransGen (Next succs) src x →
      Relation.ReflTransGen (Next succs) x dest → ∀ y ∈ succs x, y ≠ dest ∧ y ∈ found := by
    intro x hx hsx hxd
    rcases hs.closed x hx with h | h | h
    · cases h
    · rw [hp x hsx hxd] at h
      cases h
    · exact h
  have hfound : ∀ x, Relation.ReflTransGen (Next succs) src x →
      Relation.ReflTransGen (Next succs) x dest → x = src ∨ x ∈ found := by
    intro x hsx
    induction hsx with
    | refl => exact fun _ => .inl rfl
    | tail hsy hyx ih =>
      intro hxd
      have hyd := hxd.head hyx
      exact .inr (hdone _ (ih hyd) hsy hyd _ hyx).2
  intro hsd
  obtain ⟨y, hsy, hyd⟩ := Relation.TransGen.tail'_iff.1 hsd
  have hyd' := Relation.ReflTransGen.single hyd
  exact (hdone _ (hfound _ hsy hyd') hsy hyd' _ hyd).1 rfl

/-- The search ends, and tells whether there is a way to the node, if everything on such a way is
worth it. -/
theorem Searching.search_spec (hs : Searching succs p src dest queue found)
    (hnodes : ∀ x ∈ nodes, ∀ y ∈ succs x, y ∈ nodes) (hsrc : src ∈ nodes)
    (hworth : ∀ x ∈ nodes, worth s x = some (p x, s))
    (hp : ∀ x ∈ nodes, Relation.ReflTransGen (Next succs) x dest → p x = true)
    (hfuel : todo nodes queue found ≤ fuel) :
    ∃ b, search r succs worth dest fuel queue found s = some (b, s) ∧
      (b = true ↔ Relation.TransGen (Next succs) src dest) := by
  have hreach : ∀ x, Relation.ReflTransGen (Next succs) src x → x ∈ nodes := by
    intro x hx
    induction hx with
    | refl => exact hsrc
    | tail _ hxy ih => exact hnodes _ ih _ hxy
  have hp' : ∀ x, Relation.ReflTransGen (Next succs) src x →
      Relation.ReflTransGen (Next succs) x dest → p x = true :=
    fun x hx => hp x (hreach x hx)
  induction fuel generalizing queue found with
  | zero =>
    cases queue with
    | nil => exact ⟨false, rfl, by simpa using hs.not_reached hp'⟩
    | cons x queue =>
      rw [todo, List.length_cons] at hfuel
      omega
  | succ fuel ih =>
    cases queue with
    | nil => exact ⟨false, rfl, by simpa using hs.not_reached hp'⟩
    | cons x queue =>
      have hx := hs.reached x (.inl List.mem_cons_self)
      have htodo : todo nodes queue found ≤ fuel := by
        rw [todo, List.length_cons] at hfuel
        rw [todo]
        omega
      rw [search, hworth x (hreach x hx), Option.bind_some]
      cases hpx : p x with
      | false =>
        apply ih _ htodo
        refine ⟨fun y hy => hs.reached y (hy.imp (List.mem_cons_of_mem _) id), fun y hy => ?_⟩
        rcases hs.closed y hy with h | h
        · rcases List.mem_cons.1 h with rfl | h
          · exact .inr (.inl hpx)
          · exact .inl h
        · exact .inr h
      | true =>
        simp only [if_true]
        cases henq : enqueue r dest (succs x) queue found with
        | none =>
          have hdest : Next succs x dest := enqueue_eq_none henq
          exact ⟨true, rfl, by simpa using Relation.TransGen.tail' hx hdest⟩
        | some next =>
          obtain ⟨queue', found'⟩ := next
          obtain ⟨hdest, hfound, hqueue⟩ := enqueue_eq_some henq
          apply ih _ (Nat.le_trans (todo_enqueue henq (hnodes x (hreach x hx))) htodo)
          refine ⟨fun y hy => ?_, fun y hy => ?_⟩
          · have hy' : (y ∈ queue ∨ y ∈ found) ∨ y ∈ succs x := by
              rw [hqueue, hfound] at hy
              tauto
            rcases hy' with h | h
            · exact hs.reached y (h.imp (List.mem_cons_of_mem _) id)
            · exact hx.tail h
          · by_cases hnew : y ∈ succs x ∧ y ∉ found
            · exact .inl ((hqueue y).2 (.inr hnew))
            · have hold : y = src ∨ y ∈ found := by
                rw [hfound] at hy
                tauto
              rcases hs.closed y hold with h | h | h
              · rcases List.mem_cons.1 h with rfl | h
                · refine .inr (.inr fun z hz => ⟨?_, (hfound z).2 (.inr hz)⟩)
                  rintro rfl
                  exact hdest hz
                · exact .inl ((hqueue y).2 (.inl h))
              · exact .inr (.inl h)
              · exact .inr (.inr fun z hz => ⟨(h z hz).1, (hfound z).2 (.inl (h z hz).2)⟩)

/-- A search from the start. -/
theorem search_transGen (hnodes : ∀ x ∈ nodes, ∀ y ∈ succs x, y ∈ nodes) (hsrc : src ∈ nodes)
    (hworth : ∀ x ∈ nodes, worth s x = some (p x, s))
    (hp : ∀ x ∈ nodes, Relation.ReflTransGen (Next succs) x dest → p x = true)
    (hfound : ∀ x ∈ found, x = src) (hfuel : nodes.length < fuel) :
    ∃ b, search r succs worth dest fuel [src] found s = some (b, s) ∧
      (b = true ↔ Relation.TransGen (Next succs) src dest) := by
  have hs : Searching succs p src dest [src] found := by
    refine ⟨fun x hx => ?_, fun x hx => ?_⟩
    · rcases hx with hx | hx
      · rw [List.mem_singleton] at hx
        rw [hx]
      · rw [hfound x hx]
    · rcases hx with rfl | hx
      · exact .inl List.mem_cons_self
      · exact .inl (List.mem_singleton.2 (hfound x hx))
  apply hs.search_spec hnodes hsrc hworth hp
  rw [todo, List.length_singleton, Nat.add_comm]
  exact Nat.le_trans (Nat.add_le_add_right (List.length_filter_le _ _) 1) hfuel

theorem search_iff (hnodes : ∀ x ∈ nodes, ∀ y ∈ succs x, y ∈ nodes) (hsrc : src ∈ nodes)
    (hworth : ∀ x ∈ nodes, worth s x = some (p x, s))
    (hp : ∀ x ∈ nodes, Relation.ReflTransGen (Next succs) x dest → p x = true)
    (hne : src ≠ dest) (hfuel : nodes.length < fuel) :
    ∃ b, search r succs worth dest fuel [src] [] s = some (b, s) ∧
      (b = true ↔ Relation.ReflTransGen (Next succs) src dest) := by
  obtain ⟨b, hb, hiff⟩ := search_transGen (r := r) hnodes hsrc hworth hp
    (fun _ hx => absurd hx List.not_mem_nil) hfuel
  refine ⟨b, hb, hiff.trans ⟨fun h => h.to_reflTransGen, fun h => ?_⟩⟩
  exact (Relation.reflTransGen_iff_eq_or_transGen.1 h).resolve_left (Ne.symm hne)

/-- A search does not change a state that what is worth it does not change. -/
theorem search_state (hworth : ∀ x b s', worth s x = some (b, s') → s' = s)
    (h : search r succs worth dest fuel queue found s = some (b, s')) : s' = s := by
  induction fuel generalizing queue found with
  | zero =>
    cases queue with
    | nil =>
      cases h
      rfl
    | cons x queue => cases h
  | succ fuel ih =>
    cases queue with
    | nil =>
      cases h
      rfl
    | cons x queue =>
      rw [search] at h
      obtain ⟨⟨b₁, s₁⟩, h₁, h⟩ := Option.bind_eq_some_iff.1 h
      cases hworth x b₁ s₁ h₁
      dsimp only at h
      split at h
      · split at h
        · cases h
          rfl
        · exact ih h
      · exact ih h

end

section
variable {α : Type} {r : α → α → Prop} {l : List α} {f f' : α → Nat}

open Classical in
/-- How many of the elements of a list come before one. -/
noncomputable def rank (r : α → α → Prop) (l : List α) (n : α) : Nat :=
  l.countP fun m => Relation.TransGen r m n

theorem rank_le (n : α) : rank r l n ≤ l.length :=
  List.countP_le_length

theorem countP_lt {p q : α → Bool} (hpq : ∀ x ∈ l, p x = true → q x = true) (ha : a ∈ l)
    (hp : p a = false) (hq : q a = true) : l.countP p < l.countP q := by
  induction l with
  | nil => cases ha
  | cons x l ih =>
    obtain ⟨hx, hl⟩ := List.forall_mem_cons.1 hpq
    rw [List.countP_cons, List.countP_cons]
    rcases List.mem_cons.1 ha with rfl | ha
    · rw [if_neg (by simp [hp]), if_pos hq]
      exact Nat.lt_succ_of_le (List.countP_mono_left hl)
    · apply Nat.add_lt_add_of_lt_of_le (ih hl ha)
      split
      · next h => rw [if_pos (hx h)]
      · exact Nat.zero_le _

theorem rank_lt (hr : ∀ n, ¬Relation.TransGen r n n) (hm : m ∈ l) (h : r m n) :
    rank r l m < rank r l n := by
  classical
  apply countP_lt _ hm
  · exact decide_eq_false (hr m)
  · exact decide_eq_true (.single h)
  · intro x _ hx
    exact decide_eq_true ((of_decide_eq_true hx).tail h)

/-- Without cycles every path can be followed to where it ends. -/
theorem exists_end (hr : ∀ n, ¬Relation.TransGen r n n) (hl : ∀ u v, r u v → u ∈ l) (n : α) :
    ∃ s, Relation.ReflTransGen r n s ∧ ∀ v, ¬r s v := by
  induction hk : l.length - rank r l n using Nat.strong_induction_on generalizing n with
  | _ k ih =>
    by_cases hend : ∀ v, ¬r n v
    · exact ⟨n, .refl, hend⟩
    · obtain ⟨v, hv⟩ := not_forall_not.1 hend
      have hlt := rank_lt hr (hl n v hv) hv
      have hle := rank_le (r := r) (l := l) v
      obtain ⟨s, hs, hend⟩ := ih (l.length - rank r l v) (by omega) v rfl
      exact ⟨s, hs.head hv, hend⟩

def total (f : α → Nat) (l : List α) : Nat :=
  l.foldr (fun a n => f a + n) 0

theorem total_le (h : ∀ a ∈ l, f a ≤ f' a) : total f l ≤ total f' l := by
  induction l with
  | nil => exact Nat.le_refl _
  | cons a l ih =>
    obtain ⟨ha, hl⟩ := List.forall_mem_cons.1 h
    exact Nat.add_le_add ha (ih hl)

theorem total_lt (h : ∀ a ∈ l, f a ≤ f' a) (hb : b ∈ l) (hlt : f b < f' b) :
    total f l < total f' l := by
  induction l with
  | nil => cases hb
  | cons a l ih =>
    obtain ⟨ha, hl⟩ := List.forall_mem_cons.1 h
    rcases List.mem_cons.1 hb with rfl | hb
    · exact Nat.add_lt_add_of_lt_of_le hlt (total_le hl)
    · exact Nat.add_lt_add_of_le_of_lt ha (ih hl hb)

theorem total_const (k : Nat) : total (fun _ => k) l = k * l.length := by
  induction l with
  | nil => rfl
  | cons a l ih =>
    change k + total (fun _ => k) l = _
    rw [ih, List.length_cons, Nat.mul_succ, Nat.add_comm]

end

end GraphSearch

end OpenAsip
