import OpenAsip.InstructionReferenceSteps

namespace OpenAsip
set_option autoImplicit true

namespace TTAProgram

/-- References as plain pointers to instructions: none where there is no reference, and the null
reference. -/
abbrev Pointers (ι ρ : Type) := ρ → Option (Option ι)

/-- The pointers to one instruction are turned to another. -/
def Pointers.replace [DecidableEq ι] (v : Pointers ι ρ) (insA insB : ι) : Pointers ι ρ := fun r =>
  if v r = some (some insA) then some (some insB) else v r

/-- All pointers are null. -/
def Pointers.cleared (v : Pointers ι ρ) : Pointers ι ρ := fun r => (v r).map fun _ => none

namespace InstructionReferenceManager

variable {ι ρ κ : Type}
variable {s s' : InstructionReferenceManager ι ρ κ} {x y : InstructionReferenceImpl ι ρ}

section Moving

theorem Inv.heap_of_impl (h : s.Inv) (hr : s.impl r = some (some p)) : ∃ x, s.heap p = some x := by
  obtain ⟨x, hx, -⟩ := h.mem_iff.1 hr
  exact ⟨x, hx⟩

theorem view_of_impl (hr : s.impl r = some pointer) : s.view r =
    some (pointer.bind fun p => (s.heap p).map InstructionReferenceImpl.ins) := by
  rw [view, hr, Option.map_some]

variable [LinearOrder ρ] [DecidableEq κ]

/-- A reference that points nowhere gets a pointer. -/
theorem Inv.join (h : (s.setReference r none).Inv)
    (hp : ∀ p, pointer = some p → ∃ x, s.heap p = some x) : ∃ s', s.join r pointer = .ok s' ∧
      s'.Inv ∧ s'.impl = Function.update s.impl r (some pointer) ∧
      (∀ q, (s'.heap q).map InstructionReferenceImpl.ins =
        (s.heap q).map InstructionReferenceImpl.ins) ∧
      s'.view = Function.update s.view r
        (some (pointer.bind fun p => (s.heap p).map InstructionReferenceImpl.ins)) := by
  cases pointer with
  | none =>
    refine ⟨_, rfl, ?_, rfl, fun q => rfl, view_setReference⟩
    have hset : s.setReference r (some none) = (s.setReference r none).setReference r (some none) :=
      congrArg (fun f => { s with impl := f }) (Function.update_idem _ _ _).symm
    rw [hset]
    refine h.setReference (fun q hq => ?_) fun q hq => ?_
    · change Function.update s.impl r none r = _ at hq
      rw [Function.update_self] at hq
      cases hq
    · cases hq
  | some p =>
    obtain ⟨x, hx⟩ := hp p rfl
    refine ⟨_, h.join_eq hx, h.joined hx fun q y _ hy => h.nonempty hy, rfl, joined_ins hx, ?_⟩
    rw [view_joined hx, Option.bind_some, hx, Option.map_some]

variable [LinearOrder ι]

/-- A reference stops pointing where it points and points to something else. -/
theorem Inv.redirect (h : s.Inv) (hr : s.impl r = some old) (hne : new ≠ old)
    (hp : ∀ p, new = some p → ∃ x, s.heap p = some x) : ∃ s₁ b s₂, s.leave r old = .ok (s₁, b) ∧
      s₁.join r new = .ok s₂ ∧ s₂.Inv ∧ s₂.impl = Function.update s.impl r (some new) ∧
      (∀ p, new = some p → (s₂.heap p).map InstructionReferenceImpl.ins =
        (s.heap p).map InstructionReferenceImpl.ins) ∧
      s₂.view = Function.update s.view r
        (some (new.bind fun p => (s.heap p).map InstructionReferenceImpl.ins)) := by
  obtain ⟨s₁, b, hleave, himpl, hheap, hleft⟩ := h.leave hr
  have hsame (p : κ) (hnew : new = some p) : s₁.heap p = s.heap p :=
    hheap p (hnew ▸ hne)
  obtain ⟨hinv, hview⟩ := hleft none fun q hq => by cases hq
  obtain ⟨s₂, hjoin, hinv', himpl', hins, hview'⟩ := Inv.join hinv fun p hnew => by
    rw [hsame p hnew]
    exact hp p hnew
  refine ⟨s₁, b, s₂, hleave, hjoin, hinv', by rw [himpl', himpl], fun p hnew => ?_, ?_⟩
  · rw [hins, hsame p hnew]
  · rw [view_setReference] at hview
    have hbind : (new.bind fun p => (s₁.heap p).map InstructionReferenceImpl.ins) =
        new.bind fun p => (s.heap p).map InstructionReferenceImpl.ins := by
      cases new with
      | none => rfl
      | some p => rw [Option.bind_some, Option.bind_some, hsame p rfl]
    have hforget (v : Option (Option ι)) :
        Function.update s₁.view r v = Function.update s.view r v := by
      have hidem := congrArg (fun f => Function.update f r v) hview
      simpa only [Function.update_idem] using hidem
    rw [hview', hbind, hforget]

end Moving

section References

variable [LinearOrder ρ] [DecidableEq κ]

theorem Inv.copy (h : s.Inv) (hr : s.impl r = none) (href : s.impl ref ≠ none) :
    ∃ s', s.copy r ref = .ok s' ∧ s'.Inv ∧ s'.view = Function.update s.view r (s.view ref) := by
  obtain ⟨pointer, hpointer⟩ := Option.ne_none_iff_exists'.1 href
  have hdetached : (s.setReference r none).Inv :=
    h.setReference (fun q hq => by rw [hr] at hq; cases hq) fun q hq => by cases hq
  have hheap (p : κ) (hp : pointer = some p) : ∃ x, s.heap p = some x :=
    h.heap_of_impl (hp ▸ hpointer)
  obtain ⟨s', hjoin, hinv, -, -, hview⟩ := hdetached.join hheap
  refine ⟨s', ?_, hinv, ?_⟩
  · rw [InstructionReferenceManager.copy, hpointer]
    exact hjoin
  · rw [hview, view_of_impl hpointer]

variable [LinearOrder ι]

theorem Inv.assign (h : s.Inv) (hr : s.impl r ≠ none) (href : s.impl ref ≠ none) :
    ∃ s', s.assign r ref = .ok s' ∧ s'.Inv ∧ s'.view = Function.update s.view r (s.view ref) := by
  obtain ⟨old, hold⟩ := Option.ne_none_iff_exists'.1 hr
  obtain ⟨new, hnew⟩ := Option.ne_none_iff_exists'.1 href
  rw [InstructionReferenceManager.assign, hold, hnew]
  by_cases hsame : new = old
  · cases hsame
    refine ⟨s, if_pos rfl, h, ?_⟩
    have hview : s.view r = s.view ref := by rw [view_of_impl hold, view_of_impl hnew]
    rw [← hview, Function.update_eq_self]
  · obtain ⟨s₁, b, s₂, hleave, hjoin, hinv, -, -, hview⟩ := h.redirect hold hsame fun p hp =>
      h.heap_of_impl (hp ▸ hnew)
    refine ⟨s₂, ?_, hinv, ?_⟩
    · change (if new = old then _ else _) = _
      rw [if_neg hsame, Except.bind_of_ok hleave]
      exact hjoin
    · rw [hview, view_of_impl hnew]

theorem Inv.destroy (h : s.Inv) (hr : s.impl r ≠ none) :
    ∃ s', s.destroy r = .ok s' ∧ s'.Inv ∧ s'.view = Function.update s.view r none := by
  obtain ⟨old, hold⟩ := Option.ne_none_iff_exists'.1 hr
  obtain ⟨s₁, b, hleave, -, -, hleft⟩ := h.leave hold
  obtain ⟨hinv, hview⟩ := hleft none fun q hq => by cases hq
  refine ⟨_, ?_, hinv, hview⟩
  rw [InstructionReferenceManager.destroy, hold]
  exact Except.bind_of_ok hleave _

theorem Inv.setImpl (h : s.Inv) (hr : s.impl r = some old) (hne : new ≠ old)
    (hp : ∀ p, new = some p → ∃ x, s.heap p = some x) : ∃ s' b, s.setImpl r new = .ok (s', b) ∧
      s'.Inv ∧ s'.impl = Function.update s.impl r (some new) ∧
      (∀ p, new = some p → (s'.heap p).map InstructionReferenceImpl.ins =
        (s.heap p).map InstructionReferenceImpl.ins) ∧
      s'.view = Function.update s.view r
        (some (new.bind fun p => (s.heap p).map InstructionReferenceImpl.ins)) := by
  obtain ⟨s₁, b, s₂, hleave, hjoin, hrest⟩ := h.redirect hr hne hp
  refine ⟨s₂, b, ?_, hrest⟩
  rw [InstructionReferenceManager.setImpl, hr]
  change (if new = old then _ else _) = _
  rw [if_neg hne, Except.bind_of_ok hleave]
  exact Except.bind_of_ok hjoin _

end References

section Creating

variable [LinearOrder ι] [DecidableEq κ]

/-- The state in which the first reference to an instruction is made. -/
def withImpl (s : InstructionReferenceManager ι ρ κ) (ins : ι) (p : κ) :
    InstructionReferenceManager ι ρ κ :=
  (s.store p (some ⟨ins, []⟩)).insertEntry ins p

theorem withImpl_heap_eq_some (hp : s.heap p = none) : (s.withImpl i p).heap q = some y ↔
    s.heap q = some y ∨ (q = p ∧ ⟨i, []⟩ = y) := by
  change Function.update s.heap p _ q = some y ↔ _
  by_cases hq : q = p
  · cases hq
    simp [hp]
  · simp [hq]

theorem Inv.withImpl (h : s.Inv) (hfind : s.find i = none) (hp : s.heap p = none) :
    (s.withImpl i p).Booked := by
  have hkey : i ∉ s.references.map Prod.fst := by
    intro hmem
    obtain ⟨⟨j, q⟩, hentry, rfl⟩ := List.mem_map.1 hmem
    rw [h.find_eq_some.2 hentry] at hfind
    cases hfind
  constructor
  · have hperm := (List.perm_orderedInsert (fun e e' : ι × κ => e.1 ≤ e'.1) (i, p)
      s.references).map Prod.fst
    exact hperm.nodup_iff.2 (List.nodup_cons.2 ⟨hkey, h.keys⟩)
  · intro j q
    refine Iff.trans (List.mem_orderedInsert _) ?_
    constructor
    · rintro (he | hmem)
      · cases he
        exact ⟨_, (withImpl_heap_eq_some hp).2 (.inr ⟨rfl, rfl⟩), rfl⟩
      · obtain ⟨y, hy, rfl⟩ := h.entry_iff.1 hmem
        exact ⟨y, (withImpl_heap_eq_some hp).2 (.inl hy), rfl⟩
    · rintro ⟨y, hy, rfl⟩
      obtain hy | ⟨rfl, rfl⟩ := (withImpl_heap_eq_some hp).1 hy
      · exact .inr (h.entry_iff.2 ⟨y, hy, rfl⟩)
      · exact .inl rfl
  · intro r q
    refine Iff.trans h.mem_iff ?_
    constructor
    · rintro ⟨y, hy, hmem⟩
      exact ⟨y, (withImpl_heap_eq_some hp).2 (.inl hy), hmem⟩
    · rintro ⟨y, hy, hmem⟩
      obtain hy | ⟨-, rfl⟩ := (withImpl_heap_eq_some hp).1 hy
      · exact ⟨y, hy, hmem⟩
      · cases hmem
  · intro q y hy
    obtain hy | ⟨-, rfl⟩ := (withImpl_heap_eq_some hp).1 hy
    · exact h.nodup hy
    · exact List.nodup_nil

theorem Inv.view_withImpl (h : s.Inv) (hp : s.heap p = none) :
    (s.withImpl i p).view = s.view := by
  funext r
  change (s.impl r).map _ = (s.impl r).map _
  cases hr : s.impl r with
  | none => rfl
  | some pointer =>
    cases pointer with
    | none => rfl
    | some q =>
      obtain ⟨y, hy⟩ := h.heap_of_impl hr
      rw [Option.map_some, Option.map_some, Option.bind_some, Option.bind_some, hy,
        (withImpl_heap_eq_some hp).2 (.inl hy)]

variable [LinearOrder ρ]

theorem Inv.createReference (h : s.Inv) (hr : s.impl r = none) (hp : s.heap p = none) :
    ∃ s', s.createReference r i p = .ok s' ∧ s'.Inv ∧
      s'.view = Function.update s.view r (some (some i)) := by
  have hold (q : κ) : s.impl r ≠ some (some q) := by
    rw [hr]
    exact fun hq => by cases hq
  rw [InstructionReferenceManager.createReference]
  cases hfind : s.find i with
  | none =>
    have hbooked : ((s.withImpl i p).setReference r none).Booked :=
      (h.withImpl hfind hp).setReference hold fun q hq => by cases hq
    have hx : (s.withImpl i p).heap p = some ⟨i, []⟩ :=
      (withImpl_heap_eq_some hp).2 (.inr ⟨rfl, rfl⟩)
    refine ⟨_, hbooked.join_eq hx, hbooked.joined hx fun q y hq hy => ?_, ?_⟩
    · obtain hy | ⟨he, -⟩ := (withImpl_heap_eq_some hp).1 hy
      · exact h.nonempty hy
      · exact absurd he hq
    · rw [view_joined hx, h.view_withImpl hp]
  | some q =>
    obtain ⟨x, hx, rfl⟩ := h.heap_of_find hfind
    have hdetached := h.setReference hold fun q (hq : none = some (some q)) => by cases hq
    have hheap (p : κ) (hp : some q = some p) : ∃ x, s.heap p = some x :=
      ⟨x, Option.some.inj hp ▸ hx⟩
    obtain ⟨s', hjoin, hinv, -, -, hview⟩ := hdetached.join hheap
    refine ⟨s', hjoin, hinv, ?_⟩
    rw [hview, Option.bind_some, hx, Option.map_some]

end Creating

section Retargeting

variable [LinearOrder ι] [DecidableEq κ]

/-- The impl of `insA` when it has been turned to `insB`, which had none. -/
def retargeted (s : InstructionReferenceManager ι ρ κ) (a : κ) (x : InstructionReferenceImpl ι ρ)
    (insB : ι) : InstructionReferenceManager ι ρ κ :=
  ((s.store a (some { x with ins := insB })).eraseEntry x.ins).insertEntry insB a

theorem retargeted_heap_eq_some : (s.retargeted a x insB).heap q = some y ↔
    (q ≠ a ∧ s.heap q = some y) ∨ (q = a ∧ { x with ins := insB } = y) := by
  change Function.update s.heap a _ q = some y ↔ _
  by_cases hq : q = a
  · cases hq
    simp
  · simp [hq]

theorem mem_retargeted_references : e ∈ (s.retargeted a x insB).references ↔
    e = (insB, a) ∨ (e ∈ s.references ∧ e.1 ≠ x.ins) := by
  refine (List.mem_orderedInsert _).trans (or_congr_right (List.mem_filter.trans ?_))
  rw [decide_eq_true_iff]
  rfl

theorem Inv.retargeted (h : s.Inv) (hx : s.heap a = some x) (hB : s.find insB = none) :
    (s.retargeted a x insB).Inv := by
  have hkey : insB ∉ s.references.map Prod.fst := by
    intro hmem
    obtain ⟨⟨j, q⟩, hentry, rfl⟩ := List.mem_map.1 hmem
    rw [h.find_eq_some.2 hentry] at hB
    cases hB
  constructor
  · constructor
    · have hperm := (List.perm_orderedInsert (fun e e' : ι × κ => e.1 ≤ e'.1) (insB, a)
        (s.references.filter fun e => e.1 ≠ x.ins)).map Prod.fst
      have hsub : ((s.references.filter fun e => e.1 ≠ x.ins).map Prod.fst).Sublist
          (s.references.map Prod.fst) := List.filter_sublist.map _
      exact hperm.nodup_iff.2 (List.nodup_cons.2
        ⟨fun hmem => hkey (hsub.subset hmem), h.keys.sublist hsub⟩)
    · intro i q
      rw [mem_retargeted_references]
      constructor
      · rintro (he | ⟨hmem, hi⟩)
        · cases he
          exact ⟨_, retargeted_heap_eq_some.2 (.inr ⟨rfl, rfl⟩), rfl⟩
        · obtain ⟨y, hy, rfl⟩ := h.entry_iff.1 hmem
          refine ⟨y, retargeted_heap_eq_some.2 (.inl ⟨?_, hy⟩), rfl⟩
          rintro rfl
          exact hi (congrArg InstructionReferenceImpl.ins (Option.some.inj (hy.symm.trans hx)))
      · rintro ⟨y, hy, rfl⟩
        obtain ⟨hq, hy⟩ | ⟨rfl, rfl⟩ := retargeted_heap_eq_some.1 hy
        · exact .inr ⟨h.entry_iff.2 ⟨y, hy, rfl⟩, fun he => hq (h.eq_of_ins hy hx he)⟩
        · exact .inl rfl
    · intro r q
      refine Iff.trans h.mem_iff ?_
      constructor
      · rintro ⟨y, hy, hmem⟩
        by_cases hq : q = a
        · cases hq
          obtain rfl := Option.some.inj (hx.symm.trans hy)
          exact ⟨_, retargeted_heap_eq_some.2 (.inr ⟨rfl, rfl⟩), hmem⟩
        · exact ⟨y, retargeted_heap_eq_some.2 (.inl ⟨hq, hy⟩), hmem⟩
      · rintro ⟨y, hy, hmem⟩
        obtain ⟨-, hy⟩ | ⟨rfl, rfl⟩ := retargeted_heap_eq_some.1 hy
        · exact ⟨y, hy, hmem⟩
        · exact ⟨x, hx, hmem⟩
    · intro q y hy
      obtain ⟨-, hy⟩ | ⟨-, rfl⟩ := retargeted_heap_eq_some.1 hy
      · exact h.nodup hy
      · have hnodup : x.refs.Nodup := h.nodup hx
        exact hnodup
  · intro q y hy
    obtain ⟨-, hy⟩ | ⟨-, rfl⟩ := retargeted_heap_eq_some.1 hy
    · exact h.nonempty hy
    · have hnonempty : x.refs ≠ [] := h.nonempty hx
      exact hnonempty

theorem Inv.view_retargeted (h : s.Inv) (hx : s.heap a = some x) :
    (s.retargeted a x insB).view = Pointers.replace s.view x.ins insB := by
  funext r
  rw [Pointers.replace]
  cases hr : s.impl r with
  | none =>
    have hr' : (s.retargeted a x insB).impl r = none := hr
    simp only [view, hr, hr', Option.map_none, reduceCtorEq, if_false]
  | some pointer =>
    have hr' : (s.retargeted a x insB).impl r = some pointer := hr
    rw [view_of_impl hr', view_of_impl hr]
    cases pointer with
    | none => rfl
    | some q =>
      by_cases hq : q = a
      · cases hq
        rw [Option.bind_some, Option.bind_some, hx, retargeted_heap_eq_some.2 (.inr ⟨rfl, rfl⟩),
          Option.map_some, Option.map_some, if_pos rfl]
      · obtain ⟨y, hy⟩ := h.heap_of_impl hr
        rw [Option.bind_some, Option.bind_some, hy, retargeted_heap_eq_some.2 (.inl ⟨hq, hy⟩),
          Option.map_some, if_neg]
        intro he
        exact hq (h.eq_of_ins hy hx (Option.some.inj (Option.some.inj he)))

end Retargeting

section Replacing

variable [LinearOrder ι]

theorem Inv.view_eq_iff (h : s.Inv) (hx : s.heap p = some x) :
    s.view r = some (some x.ins) ↔ r ∈ x.refs := by
  constructor
  · intro hview
    cases hr : s.impl r with
    | none =>
      rw [view, hr] at hview
      cases hview
    | some pointer =>
      rw [view_of_impl hr] at hview
      cases pointer with
      | none => cases hview
      | some q =>
        obtain ⟨y, hy, hmem⟩ := h.mem_iff.1 hr
        rw [Option.bind_some, hy] at hview
        have hins : y.ins = x.ins := Option.some.inj (Option.some.inj hview)
        cases h.eq_of_ins hy hx hins
        rwa [← Option.some.inj (hy.symm.trans hx)]
  · intro hmem
    rw [view_of_impl (h.mem_iff.2 ⟨x, hx, hmem⟩), Option.bind_some, hx, Option.map_some]

variable [LinearOrder ρ] [DecidableEq κ]

theorem Inv.mergeLoop (h : s.Inv) {l : List ρ} (hl : l.Nodup)
    (hall : ∀ r ∈ l, s.impl r = some (some a)) (hne : a ≠ b) (hb : s.heap b = some y) :
    ∃ s', l.foldlM (fun s r => do
        let (s', _) ← s.setImpl r (some b)
        .ok s') s = .ok s' ∧ s'.Inv ∧
      s'.view = fun r => if r ∈ l then some (some y.ins) else s.view r := by
  induction l generalizing s y with
  | nil =>
    refine ⟨s, rfl, h, ?_⟩
    funext r
    exact (if_neg List.not_mem_nil).symm
  | cons r l ih =>
    rw [List.nodup_cons] at hl
    have hpointer : some b ≠ some a := fun he => hne (Option.some.inj he).symm
    obtain ⟨s₁, c, hset, hinv, himpl, hins, hview⟩ :=
      h.setImpl (hall r List.mem_cons_self) hpointer fun p hp => by
        cases hp
        exact ⟨y, hb⟩
    have hb' := hins b rfl
    rw [hb, Option.map_some, Option.map_eq_some_iff] at hb'
    obtain ⟨z, hz, hzy⟩ := hb'
    obtain ⟨s', hfold, hinv', hview'⟩ := ih hinv hl.2 (fun r' hr' => by
      have hrr : r' ≠ r := fun he => hl.1 (he ▸ hr')
      rw [himpl, Function.update_of_ne hrr]
      exact hall r' (List.mem_cons_of_mem r hr')) hz
    refine ⟨s', ?_, hinv', ?_⟩
    · rw [List.foldlM_cons, hset]
      exact hfold
    · rw [hview', hview, hzy]
      funext r'
      by_cases hr' : r' = r
      · cases hr'
        rw [if_neg hl.1, Function.update_self, if_pos List.mem_cons_self, Option.bind_some, hb,
          Option.map_some]
      · rw [Function.update_of_ne hr']
        simp only [List.mem_cons, hr', false_or]

theorem Inv.merge (h : s.Inv) (hx : s.heap a = some x) (hy : s.heap b = some y) (hne : a ≠ b) :
    ∃ s', s.merge b a = .ok s' ∧ s'.Inv ∧ s'.view = Pointers.replace s.view x.ins y.ins := by
  obtain ⟨s', hfold, hinv, hview⟩ := h.mergeLoop (h.nodup hx)
    (fun r hr => h.mem_iff.2 ⟨x, hx, hr⟩) hne hy
  refine ⟨s', ?_, hinv, ?_⟩
  · rw [InstructionReferenceManager.merge, hx]
    exact hfold
  · rw [hview]
    funext r
    rw [Pointers.replace]
    simp only [h.view_eq_iff hx]

theorem Inv.replace (h : s.Inv) (hA : s.hasReference insA = true) (hne : insA ≠ insB) :
    ∃ s', s.replace insA insB = .ok s' ∧ s'.Inv ∧
      s'.view = Pointers.replace s.view insA insB := by
  obtain ⟨a, ha⟩ := Option.isSome_iff_exists.1 hA
  obtain ⟨x, hx, rfl⟩ := h.heap_of_find ha
  rw [InstructionReferenceManager.replace, ha]
  cases hB : s.find insB with
  | none =>
    refine ⟨s.retargeted a x insB, ?_, h.retargeted hx hB, h.view_retargeted hx⟩
    simp only [hx]
    rfl
  | some b =>
    obtain ⟨y, hy, rfl⟩ := h.heap_of_find hB
    refine h.merge hx hy ?_
    rintro rfl
    exact hne (congrArg InstructionReferenceImpl.ins (Option.some.inj (hx.symm.trans hy)))

/-- An impl that is merged with itself asks its references for a pointer that they have. -/
theorem Inv.replace_self (h : s.Inv) (hA : s.hasReference ins = true) :
    s.replace ins ins = .error .assertion := by
  obtain ⟨a, ha⟩ := Option.isSome_iff_exists.1 hA
  obtain ⟨x, hx, rfl⟩ := h.heap_of_find ha
  have hset (r : ρ) (hr : r ∈ x.refs) : s.setImpl r (some a) = .error .assertion := by
    rw [InstructionReferenceManager.setImpl, h.mem_iff.2 ⟨x, hx, hr⟩]
    exact if_pos rfl
  rw [InstructionReferenceManager.replace, ha]
  simp only [InstructionReferenceManager.merge, hx]
  cases hrefs : x.refs with
  | nil => exact absurd hrefs (h.nonempty hx)
  | cons r l =>
    rw [List.foldlM_cons, hset r (hrefs ▸ List.mem_cons_self)]
    rfl

end Replacing

section Clearing

variable [LinearOrder ι] [LinearOrder ρ] [DecidableEq κ]

theorem Inv.setImpl_none (h : s.Inv) (hx : s.heap p = some x) (hr : r ∈ x.refs) :
    s.setImpl r none = .ok ((s.left p r x).setReference r (some none),
      decide (x.refs.erase r ≠ [])) := by
  rw [InstructionReferenceManager.setImpl, h.mem_iff.2 ⟨x, hx, hr⟩]
  have hne : (none : Option κ) ≠ some p := fun he => by cases he
  change (if none = some p then _ else _) = _
  rw [if_neg hne]
  exact Except.bind_of_ok (h.removeRef_eq hx hr) _

/-- The loop ends with the impl, whose references are null then. -/
theorem Inv.nullifyLoop (h : s.Inv) (hx : s.heap p = some x) (hn : x.refs.length < n) :
    ∃ s', nullifyLoop p n s = .ok s' ∧ s'.Inv ∧
      s'.references = s.references.filter (fun e => e.1 ≠ x.ins) ∧
      s'.view = fun r => if r ∈ x.refs then some none else s.view r := by
  induction n generalizing s x with
  | zero => exact absurd hn (Nat.not_lt_zero _)
  | succ n ih =>
    rw [InstructionReferenceManager.nullifyLoop]
    simp only [hx]
    cases hrefs : x.refs with
    | nil => exact absurd hrefs (h.nonempty hx)
    | cons r l =>
      have hr : r ∈ x.refs := hrefs ▸ List.mem_cons_self
      have herase : x.refs.erase r = l := by rw [hrefs, List.erase_cons_head]
      have hnull (q : κ) : some none ≠ some (some q) := fun hq => by cases hq
      have hinv := h.left hx hr hnull
      have hview := h.view_left hx hr hnull
      have hreferences : ((s.left p r x).setReference r (some none)).references = _ :=
        left_references (s := s) (p := p) (r := r) (x := x)
      have hset := h.setImpl_none hx hr
      rw [herase] at hset hreferences
      rw [hrefs, List.length_cons] at hn
      simp only
      rw [Except.bind_of_ok hset]
      by_cases hl : l = []
      · cases hl
        refine ⟨_, if_neg Bool.false_ne_true, hinv, ?_, ?_⟩
        · rw [hreferences, if_pos rfl]
        · rw [hview]
          funext r'
          by_cases hr' : r' = r
          · cases hr'
            rw [Function.update_self, if_pos List.mem_cons_self, Option.map_some]
          · rw [Function.update_of_ne hr', if_neg fun hmem => hr' (List.mem_singleton.1 hmem)]
      · have hx' : ((s.left p r x).setReference r (some none)).heap p =
            some { x with refs := l } := by
          refine left_heap_eq_some.2 (.inr ⟨rfl, ?_⟩)
          rw [herase]
          exact ⟨hl, rfl⟩
        obtain ⟨s', hloop, hinv', hreferences', hview'⟩ :=
          ih hinv hx' (Nat.lt_of_succ_lt_succ hn)
        refine ⟨s', ?_, hinv', ?_, ?_⟩
        · rw [decide_eq_true hl]
          exact hloop
        · rw [hreferences', hreferences, if_neg hl]
        · rw [hview', hview]
          funext r'
          by_cases hr' : r' = r
          · cases hr'
            rw [Function.update_self, if_pos List.mem_cons_self, Option.map_some, ite_self]
          · rw [Function.update_of_ne hr']
            simp only [List.mem_cons, hr', false_or]

theorem Inv.nullify (h : s.Inv) (hx : s.heap p = some x) : ∃ s', s.nullify p = .ok s' ∧ s'.Inv ∧
    s'.references = s.references.filter (fun e => e.1 ≠ x.ins) ∧
    s'.view = fun r => if r ∈ x.refs then some none else s.view r := by
  simp only [InstructionReferenceManager.nullify, hx]
  exact h.nullifyLoop hx (Nat.lt_succ_self _)

theorem Inv.clearLoop (h : s.Inv) (hn : s.references.length < n) :
    ∃ s', clearLoop n s = .ok s' ∧ s'.Inv ∧ s'.references = [] ∧ s'.view = Pointers.cleared s.view := by
  induction n generalizing s with
  | zero => exact absurd hn (Nat.not_lt_zero _)
  | succ n ih =>
    rw [InstructionReferenceManager.clearLoop]
    cases hrefs : s.references with
    | nil =>
      refine ⟨s, rfl, h, hrefs, ?_⟩
      have hheap (q : κ) : s.heap q = none := by
        cases hy : s.heap q with
        | none => rfl
        | some y =>
          have hmem : (y.ins, q) ∈ s.references := h.entry_iff.2 ⟨y, hy, rfl⟩
          rw [hrefs] at hmem
          cases hmem
      funext r
      rw [Pointers.cleared, view, Option.map_map]
      refine congrArg (fun f => (s.impl r).map f) (funext fun pointer => ?_)
      cases pointer with
      | none => rfl
      | some q => rw [Option.bind_some, hheap, Option.map_none]; rfl
    | cons e l =>
      obtain ⟨i, p⟩ := e
      obtain ⟨x, hx, rfl⟩ := h.entry_iff.1 (hrefs ▸ List.mem_cons_self : (i, p) ∈ s.references)
      obtain ⟨s₁, hnull, hinv, hreferences, hview⟩ := h.nullify hx
      have hlt : s₁.references.length < s.references.length := by
        rw [hreferences]
        refine List.length_filter_lt_length_iff_exists.2 ⟨(x.ins, p), ?_, ?_⟩
        · exact hrefs ▸ List.mem_cons_self
        · exact fun hdecide => of_decide_eq_true hdecide rfl
      obtain ⟨s', hloop, hinv', hempty, hview'⟩ :=
        ih hinv (Nat.lt_of_lt_of_le hlt (Nat.le_of_lt_succ hn))
      refine ⟨s', ?_, hinv', hempty, ?_⟩
      · simp only
        rw [Except.bind_of_ok hnull]
        exact hloop
      · rw [hview']
        funext r
        have hr' : s₁.view r = if r ∈ x.refs then some none else s.view r := congrFun hview r
        rw [Pointers.cleared, Pointers.cleared, hr']
        by_cases hr : r ∈ x.refs
        · rw [if_pos hr, (h.view_eq_iff hx).2 hr]
          rfl
        · rw [if_neg hr]

theorem Inv.clearReferences (h : s.Inv) :
    ∃ s', s.clearReferences = .ok s' ∧ s'.Inv ∧ s'.view = Pointers.cleared s.view := by
  obtain ⟨s', hloop, hinv, hempty, hview⟩ := h.clearLoop (Nat.lt_succ_self s.references.length)
  refine ⟨s', ?_, hinv, hview⟩
  rw [InstructionReferenceManager.clearReferences, Except.bind_of_ok hloop, ← hempty]

end Clearing

end InstructionReferenceManager

end TTAProgram

end OpenAsip
