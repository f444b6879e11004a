import OpenAsip.Containers
import OpenAsip.InstructionReferences

namespace OpenAsip
set_option autoImplicit true

namespace TTAProgram

namespace InstructionReferenceManager

variable {ι ρ κ : Type}
variable {s s' : InstructionReferenceManager ι ρ κ} {x y : InstructionReferenceImpl ι ρ}

/-- The instructions that the references stand for, without the objects in between. -/
def view (s : InstructionReferenceManager ι ρ κ) (r : ρ) : Option (Option ι) :=
  (s.impl r).map fun pointer => pointer.bind fun p => (s.heap p).map InstructionReferenceImpl.ins

/-- The map has the impls under their instructions, and each impl has the references that point to
it. -/
structure Booked (s : InstructionReferenceManager ι ρ κ) : Prop where
  keys : (s.references.map Prod.fst).Nodup
  entry_iff : ∀ {i p}, (i, p) ∈ s.references ↔ ∃ x, s.heap p = some x ∧ x.ins = i
  mem_iff : ∀ {r p}, s.impl r = some (some p) ↔ ∃ x, s.heap p = some x ∧ r ∈ x.refs
  nodup : ∀ {p x}, s.heap p = some x → x.refs.Nodup

structure Inv (s : InstructionReferenceManager ι ρ κ) : Prop extends s.Booked where
  nonempty : ∀ {p x}, s.heap p = some x → x.refs ≠ []

section Entries

variable [LinearOrder ι]

theorem Booked.find_eq_some (h : s.Booked) : s.find i = some p ↔ (i, p) ∈ s.references := by
  rw [find, Option.map_eq_some_iff]
  constructor
  · rintro ⟨entry, hfind, rfl⟩
    obtain ⟨hmem, rfl⟩ := (find?_key_eq_some h.keys).1 hfind
    exact hmem
  · intro hmem
    exact ⟨(i, p), (find?_key_eq_some h.keys).2 ⟨hmem, rfl⟩, rfl⟩

theorem Booked.find_of_heap (h : s.Booked) (hx : s.heap p = some x) : s.find x.ins = some p :=
  h.find_eq_some.2 (h.entry_iff.2 ⟨x, hx, rfl⟩)

theorem Booked.heap_of_find (h : s.Booked) (hp : s.find i = some p) :
    ∃ x, s.heap p = some x ∧ x.ins = i :=
  h.entry_iff.1 (h.find_eq_some.1 hp)

/-- There is one impl for an instruction. -/
theorem Booked.eq_of_ins (h : s.Booked) (hx : s.heap p = some x) (hy : s.heap q = some y)
    (he : x.ins = y.ins) : p = q := by
  have hp := h.find_of_heap hx
  rw [he, h.find_of_heap hy] at hp
  exact (Option.some.inj hp).symm

end Entries

section Pointers

theorem view_congr (himpl : s'.impl = s.impl) (hins : ∀ q,
    (s'.heap q).map InstructionReferenceImpl.ins = (s.heap q).map InstructionReferenceImpl.ins) :
    s'.view = s.view := by
  funext r
  simp only [view, himpl, hins]

variable [LinearOrder ρ] {pointer : Option (Option κ)}

theorem map_of_null (hnull : ∀ q, pointer ≠ some (some q)) (f : κ → Option ι) :
    (pointer.map fun t => t.bind f) = pointer.map fun _ => none := by
  cases pointer with
  | none => rfl
  | some t =>
    cases t with
    | none => rfl
    | some q => exact absurd rfl (hnull q)

theorem view_setReference : (s.setReference r pointer).view = Function.update s.view r
    (pointer.map fun t => t.bind fun p => (s.heap p).map InstructionReferenceImpl.ins) := by
  funext r'
  change (Function.update s.impl r pointer r').map _ = _
  by_cases hr' : r' = r
  · cases hr'
    rw [Function.update_self, Function.update_self]
    rfl
  · rw [Function.update_of_ne hr', Function.update_of_ne hr']
    rfl

theorem Booked.setReference (h : s.Booked) (hold : ∀ q, s.impl r ≠ some (some q))
    (hnull : ∀ q, pointer ≠ some (some q)) : (s.setReference r pointer).Booked := by
  refine ⟨h.keys, h.entry_iff, ?_, h.nodup⟩
  intro r' q
  refine Iff.trans ?_ h.mem_iff
  change Function.update s.impl r pointer r' = some (some q) ↔ _
  by_cases hr' : r' = r
  · cases hr'
    rw [Function.update_self]
    exact iff_of_false (hnull q) (hold q)
  · rw [Function.update_of_ne hr']

theorem Inv.setReference (h : s.Inv) (hold : ∀ q, s.impl r ≠ some (some q))
    (hnull : ∀ q, pointer ≠ some (some q)) : (s.setReference r pointer).Inv :=
  ⟨h.toBooked.setReference hold hnull, h.nonempty⟩

end Pointers

section Leaving

variable [LinearOrder ι] [LinearOrder ρ] [DecidableEq κ]

/-- What is left when a reference has been removed from an impl. -/
def left (s : InstructionReferenceManager ι ρ κ) (p : κ) (r : ρ)
    (x : InstructionReferenceImpl ι ρ) : InstructionReferenceManager ι ρ κ :=
  if x.refs.erase r = [] then (s.store p none).eraseEntry x.ins
  else s.store p (some { x with refs := x.refs.erase r })

theorem left_impl : (s.left p r x).impl = s.impl := by
  rw [left]
  split
  · rfl
  · rfl

theorem left_heap : (s.left p r x).heap = Function.update s.heap p
    (if x.refs.erase r = [] then none else some { x with refs := x.refs.erase r }) := by
  rw [left]
  split
  · rfl
  · rfl

theorem left_references : (s.left p r x).references =
    if x.refs.erase r = [] then s.references.filter fun e => e.1 ≠ x.ins else s.references := by
  rw [left]
  split
  · rfl
  · rfl

theorem Booked.removeRef_eq (h : s.Booked) (hx : s.heap p = some x) (hr : r ∈ x.refs) :
    s.removeRef p r = .ok (s.left p r x, decide (x.refs.erase r ≠ [])) := by
  simp only [removeRef, hx, if_pos hr, left]
  by_cases hlast : x.refs.erase r = []
  · have hdied : (s.store p (some { x with refs := x.refs.erase r })).referenceDied x.ins =
        .ok ((s.store p none).eraseEntry x.ins) := by
      have hfind : (s.store p (some { x with refs := x.refs.erase r })).find x.ins = some p :=
        h.find_of_heap hx
      simp only [referenceDied, hfind]
      simp only [store, Function.update_self, if_pos hlast, Function.update_idem]
    rw [if_pos hlast, if_pos hlast, Except.bind_of_ok hdied, decide_eq_false (not_not_intro hlast)]
  · rw [if_neg hlast, if_neg hlast, decide_eq_true hlast]

theorem mem_left_references : e ∈ (s.left p r x).references ↔
    e ∈ s.references ∧ (x.refs.erase r = [] → e.1 ≠ x.ins) := by
  rw [left_references]
  by_cases hlast : x.refs.erase r = []
  · simp [hlast]
  · simp [hlast]

/-- The impls that are left are those that were there, the one without the reference. -/
theorem left_heap_eq_some : (s.left p r x).heap q = some y ↔ (q ≠ p ∧ s.heap q = some y) ∨
    (q = p ∧ x.refs.erase r ≠ [] ∧ { x with refs := x.refs.erase r } = y) := by
  rw [left_heap]
  by_cases hq : q = p
  · cases hq
    by_cases hlast : x.refs.erase r = []
    · simp [hlast]
    · simp [hlast]
  · simp [hq]

theorem exists_of_left (hx : s.heap p = some x) (hy : (s.left p r x).heap q = some y) :
    ∃ z, s.heap q = some z ∧ z.ins = y.ins := by
  obtain ⟨-, hy⟩ | ⟨rfl, -, rfl⟩ := left_heap_eq_some.1 hy
  · exact ⟨y, hy, rfl⟩
  · exact ⟨x, hx, rfl⟩

theorem Booked.left_entry_iff (h : s.Booked) (hx : s.heap p = some x) :
    (i, q) ∈ (s.left p r x).references ↔ ∃ y, (s.left p r x).heap q = some y ∧ y.ins = i := by
  rw [mem_left_references, h.entry_iff]
  constructor
  · rintro ⟨⟨y, hy, rfl⟩, hkept⟩
    by_cases hq : q = p
    · cases hq
      obtain rfl := Option.some.inj (hx.symm.trans hy)
      exact ⟨_, left_heap_eq_some.2 (.inr ⟨rfl, fun hlast => hkept hlast rfl, rfl⟩), rfl⟩
    · exact ⟨y, left_heap_eq_some.2 (.inl ⟨hq, hy⟩), rfl⟩
  · rintro ⟨y, hy, rfl⟩
    obtain ⟨hq, hy⟩ | ⟨rfl, hne, rfl⟩ := left_heap_eq_some.1 hy
    · exact ⟨⟨y, hy, rfl⟩, fun _ he => hq (h.eq_of_ins hy hx he)⟩
    · exact ⟨⟨x, hx, rfl⟩, fun hlast => absurd hlast hne⟩

theorem Booked.left_mem_iff (h : s.Booked) (hx : s.heap p = some x) (hr : r ∈ x.refs) :
    (∃ y, (s.left p r x).heap q = some y ∧ r' ∈ y.refs) ↔
      r' ≠ r ∧ s.impl r' = some (some q) := by
  have hold : s.impl r = some (some p) := h.mem_iff.2 ⟨x, hx, hr⟩
  constructor
  · rintro ⟨y, hy, hmem⟩
    obtain ⟨hq, hy⟩ | ⟨rfl, -, rfl⟩ := left_heap_eq_some.1 hy
    · have hpointer := h.mem_iff.2 ⟨y, hy, hmem⟩
      refine ⟨?_, hpointer⟩
      rintro rfl
      exact hq (Option.some.inj (Option.some.inj (hpointer.symm.trans hold)))
    · obtain ⟨hne, hmem⟩ := (h.nodup hx).mem_erase_iff.1 hmem
      exact ⟨hne, h.mem_iff.2 ⟨x, hx, hmem⟩⟩
  · rintro ⟨hne, hpointer⟩
    obtain ⟨y, hy, hmem⟩ := h.mem_iff.1 hpointer
    by_cases hq : q = p
    · cases hq
      obtain rfl := Option.some.inj (hx.symm.trans hy)
      have herase := (h.nodup hx).mem_erase_iff.2 ⟨hne, hmem⟩
      exact ⟨_, left_heap_eq_some.2 (.inr ⟨rfl, List.ne_nil_of_mem herase, rfl⟩), herase⟩
    · exact ⟨y, left_heap_eq_some.2 (.inl ⟨hq, hy⟩), hmem⟩

theorem Inv.left (h : s.Inv) (hx : s.heap p = some x) (hr : r ∈ x.refs)
    (hnull : ∀ q, pointer ≠ some (some q)) : ((s.left p r x).setReference r pointer).Inv := by
  constructor
  · constructor
    · change ((s.left p r x).references.map Prod.fst).Nodup
      rw [left_references]
      split
      · exact h.keys.sublist (List.filter_sublist.map _)
      · exact h.keys
    · exact h.left_entry_iff hx
    · intro r' q
      refine Iff.trans ?_ (h.left_mem_iff hx hr).symm
      change Function.update (s.left p r x).impl r pointer r' = some (some q) ↔ _
      rw [left_impl]
      by_cases hr' : r' = r
      · cases hr'
        rw [Function.update_self]
        exact iff_of_false (hnull q) fun hne => hne.1 rfl
      · rw [Function.update_of_ne hr', and_iff_right hr']
    · intro q y hy
      obtain ⟨-, hy⟩ | ⟨-, -, rfl⟩ := left_heap_eq_some.1 hy
      · exact h.nodup hy
      · exact (h.nodup hx).erase r
  · intro q y hy
    obtain ⟨-, hy⟩ | ⟨-, hne, rfl⟩ := left_heap_eq_some.1 hy
    · exact h.nonempty hy
    · exact hne

/-- Where nothing is left of the reference, the others stand for what they stood for. -/
theorem Booked.view_left (h : s.Booked) (hx : s.heap p = some x) (hr : r ∈ x.refs)
    (hnull : ∀ q, pointer ≠ some (some q)) : ((s.left p r x).setReference r pointer).view =
      Function.update s.view r (pointer.map fun _ => none) := by
  funext r'
  rw [view]
  change (Function.update (s.left p r x).impl r pointer r').map (fun pointer =>
    pointer.bind fun p' => ((s.left p r x).heap p').map InstructionReferenceImpl.ins) = _
  by_cases hr' : r' = r
  · cases hr'
    rw [Function.update_self, Function.update_self]
    exact map_of_null hnull _
  · rw [Function.update_of_ne hr', Function.update_of_ne hr', left_impl, view]
    cases hpointer : s.impl r' with
    | none => rfl
    | some pointer' =>
      cases pointer' with
      | none => rfl
      | some q =>
        obtain ⟨y, hy, hmem⟩ := (h.left_mem_iff hx hr).2 ⟨hr', hpointer⟩
        obtain ⟨z, hz, hins⟩ := exists_of_left hx hy
        simp only [Option.map_some, Option.bind_some, hy, hz, hins]

/-- A reference that stops pointing can then point to nothing or be gone, with the impls that
others point to as they were. -/
theorem Inv.leave (h : s.Inv) (hr : s.impl r = some old) : ∃ s' b, s.leave r old = .ok (s', b) ∧
    s'.impl = s.impl ∧ (∀ q, some q ≠ old → s'.heap q = s.heap q) ∧
    ∀ pointer, (∀ q, pointer ≠ some (some q)) → (s'.setReference r pointer).Inv ∧
      (s'.setReference r pointer).view = Function.update s.view r (pointer.map fun _ => none) := by
  cases old with
  | none =>
    refine ⟨s, true, rfl, rfl, fun _ _ => rfl, fun pointer hnull => ⟨?_, ?_⟩⟩
    · refine h.setReference (fun q hq => ?_) hnull
      rw [hr] at hq
      cases hq
    · rw [view_setReference, map_of_null hnull]
  | some p =>
    obtain ⟨x, hx, hmem⟩ := h.mem_iff.1 hr
    refine ⟨_, _, h.removeRef_eq hx hmem, left_impl, fun q hq => ?_, fun pointer hnull => ?_⟩
    · have hne : q ≠ p := fun he => hq (congrArg some he)
      rw [left_heap, Function.update_of_ne hne]
    · exact ⟨h.left hx hmem hnull, h.view_left hx hmem hnull⟩

end Leaving

section Joining

variable [LinearOrder ρ]

theorem Booked.not_mem (h : (s.setReference r none).Booked) (hx : s.heap p = some x) :
    r ∉ x.refs := by
  intro hmem
  have hpointer : Function.update s.impl r none r = some (some p) := h.mem_iff.2 ⟨x, hx, hmem⟩
  rw [Function.update_self] at hpointer
  cases hpointer

variable [DecidableEq κ]

/-- What there is when a reference has been added to an impl. -/
def joined (s : InstructionReferenceManager ι ρ κ) (p : κ) (r : ρ)
    (x : InstructionReferenceImpl ι ρ) : InstructionReferenceManager ι ρ κ :=
  (s.setReference r (some (some p))).store p
    (some { x with refs := x.refs.orderedInsert (· ≤ ·) r })

theorem Booked.join_eq (h : (s.setReference r none).Booked) (hx : s.heap p = some x) :
    s.join r (some p) = .ok (s.joined p r x) := by
  have hx' : (s.setReference r (some (some p))).heap p = some x := hx
  rw [join, addRef, hx']
  simp only [if_neg (h.not_mem hx), joined]

theorem joined_heap_eq_some : (s.joined p r x).heap q = some y ↔ (q ≠ p ∧ s.heap q = some y) ∨
    (q = p ∧ { x with refs := x.refs.orderedInsert (· ≤ ·) r } = y) := by
  change Function.update s.heap p _ q = some y ↔ _
  by_cases hq : q = p
  · cases hq
    simp
  · simp [hq]

/-- A reference that points nowhere joins an impl, which need not have other references. -/
theorem Booked.joined (h : (s.setReference r none).Booked) (hx : s.heap p = some x)
    (hnonempty : ∀ q y, q ≠ p → s.heap q = some y → y.refs ≠ []) : (s.joined p r x).Inv := by
  constructor
  · constructor
    · exact h.keys
    · intro i q
      refine Iff.trans h.entry_iff ?_
      constructor
      · rintro ⟨y, hy, rfl⟩
        by_cases hq : q = p
        · cases hq
          obtain rfl := Option.some.inj (hx.symm.trans hy)
          exact ⟨_, joined_heap_eq_some.2 (.inr ⟨rfl, rfl⟩), rfl⟩
        · exact ⟨y, joined_heap_eq_some.2 (.inl ⟨hq, hy⟩), rfl⟩
      · rintro ⟨y, hy, rfl⟩
        obtain ⟨-, hy⟩ | ⟨rfl, rfl⟩ := joined_heap_eq_some.1 hy
        · exact ⟨y, hy, rfl⟩
        · exact ⟨x, hx, rfl⟩
    · intro r' q
      change Function.update s.impl r (some (some p)) r' = some (some q) ↔ _
      by_cases hr' : r' = r
      · cases hr'
        rw [Function.update_self]
        constructor
        · intro he
          cases he
          exact ⟨_, joined_heap_eq_some.2 (.inr ⟨rfl, rfl⟩),
            (List.mem_orderedInsert _).2 (.inl rfl)⟩
        · rintro ⟨y, hy, hmem⟩
          obtain ⟨-, hy⟩ | ⟨rfl, -⟩ := joined_heap_eq_some.1 hy
          · exact absurd hmem (h.not_mem hy)
          · rfl
      · have hold : s.impl r' = some (some q) ↔ ∃ y, s.heap q = some y ∧ r' ∈ y.refs := by
          refine Iff.trans ?_ h.mem_iff
          change _ ↔ Function.update s.impl r none r' = some (some q)
          rw [Function.update_of_ne hr']
        rw [Function.update_of_ne hr', hold]
        constructor
        · rintro ⟨y, hy, hmem⟩
          by_cases hq : q = p
          · cases hq
            obtain rfl := Option.some.inj (hx.symm.trans hy)
            exact ⟨_, joined_heap_eq_some.2 (.inr ⟨rfl, rfl⟩),
              (List.mem_orderedInsert _).2 (.inr hmem)⟩
          · exact ⟨y, joined_heap_eq_some.2 (.inl ⟨hq, hy⟩), hmem⟩
        · rintro ⟨y, hy, hmem⟩
          obtain ⟨-, hy⟩ | ⟨rfl, rfl⟩ := joined_heap_eq_some.1 hy
          · exact ⟨y, hy, hmem⟩
          · exact ⟨x, hx, ((List.mem_orderedInsert _).1 hmem).resolve_left hr'⟩
    · intro q y hy
      obtain ⟨-, hy⟩ | ⟨-, rfl⟩ := joined_heap_eq_some.1 hy
      · exact h.nodup hy
      · exact (List.perm_orderedInsert _ r x.refs).nodup_iff.2
          (List.nodup_cons.2 ⟨h.not_mem hx, h.nodup hx⟩)
  · intro q y hy
    obtain ⟨hq, hy⟩ | ⟨-, rfl⟩ := joined_heap_eq_some.1 hy
    · exact hnonempty q y hq hy
    · exact List.ne_nil_of_mem ((List.mem_orderedInsert _).2 (.inl rfl))

theorem joined_ins (hx : s.heap p = some x) (q : κ) :
    ((s.joined p r x).heap q).map InstructionReferenceImpl.ins =
      (s.heap q).map InstructionReferenceImpl.ins := by
  change (Function.update s.heap p _ q).map _ = _
  by_cases hq : q = p
  · cases hq
    rw [Function.update_self, hx]
    rfl
  · rw [Function.update_of_ne hq]

theorem view_joined (hx : s.heap p = some x) :
    (s.joined p r x).view = Function.update s.view r (some (some x.ins)) := by
  have hview : (s.joined p r x).view = (s.setReference r (some (some p))).view :=
    view_congr rfl (joined_ins hx)
  rw [hview, view_setReference, Option.map_some, Option.bind_some, hx, Option.map_some]

end Joining

end InstructionReferenceManager

end TTAProgram

end OpenAsip
