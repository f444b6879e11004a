import Mathlib.Data.List.Forall2

namespace OpenAsip
set_option autoImplicit true

/-- The exception classes thrown by the modelled code. -/
inductive ExceptionClass where
  | objectAlreadyExists
  | notAvailable
  | outOfRange
  | invalidData
  | illegalState
  | general
  | endOfFile
  | keyAlreadyExists
  | numberFormat
deriving DecidableEq, Repr

/-- The ways in which a C++ call fails to return normally. An execution that meets undefined
behaviour has no later states, so it is kept apart from an exception, which a caller can catch. -/
inductive Fault where
  | exception (e : ExceptionClass)
  | assertion
  | undefined
deriving DecidableEq, Repr

abbrev Outcome (α : Type u) := Except Fault α

/-- The state after a call whose exceptions are caught and whose rejected calls change nothing. -/
def attempt (s : σ) (r : Outcome σ) : Outcome σ :=
  match r with
  | .error (.exception _) => .ok s
  | r => r

theorem attempt_ok (h : attempt s r = .ok s') : s' = s ∨ r = .ok s' := by
  cases r with
  | ok t => exact .inr h
  | error f =>
    cases f with
    | exception e =>
      cases h
      exact .inl rfl
    | assertion => cases h
    | undefined => cases h

/-- The call returns or throws an exception. -/
def Outcome.Defined (r : Outcome α) : Prop := ∀ f, r = .error f → ∃ e, f = .exception e

theorem Outcome.defined_ok (a : α) : Outcome.Defined (.ok a) := by
  intro f h
  cases h

theorem Outcome.defined_exception (e : ExceptionClass) :
    Outcome.Defined (.error (.exception e) : Outcome α) := by
  intro f h
  cases h
  exact ⟨e, rfl⟩

theorem Outcome.Defined.bind {r : Outcome α} {k : α → Outcome β} (hr : r.Defined)
    (hk : ∀ a, r = .ok a → (k a).Defined) : Outcome.Defined (r >>= k) := by
  cases r with
  | ok a => exact hk a rfl
  | error f =>
    intro g hg
    change (Except.error f : Outcome β) = .error g at hg
    cases hg
    exact hr f rfl

theorem Outcome.Defined.ite {r r' : Outcome α} {p : Prop} [Decidable p] (hr : p → r.Defined)
    (hr' : ¬ p → r'.Defined) : Outcome.Defined (if p then r else r') := by
  split
  · rename_i h
    exact hr h
  · rename_i h
    exact hr' h

theorem Outcome.Defined.attempt_ok {r : Outcome σ} (h : r.Defined) (s : σ) :
    ∃ s', attempt s r = .ok s' := by
  cases r with
  | ok t => exact ⟨t, rfl⟩
  | error f =>
    obtain ⟨e, rfl⟩ := h f rfl
    exact ⟨s, rfl⟩

theorem Except.bind_ok {x : Except ε α} {f : α → Except ε β} (h : x >>= f = .ok b) :
    ∃ a, x = .ok a ∧ f a = .ok b := by
  cases x with
  | error e => cases h
  | ok a => exact ⟨a, rfl, h⟩

theorem Except.bind_of_ok {x : Except ε α} (h : x = .ok a) (f : α → Except ε β) : (x >>= f) = f a := by
  rw [h]
  rfl

theorem Except.bind_of_error {x : Except ε α} (h : x = .error f) (g : α → Except ε β) :
    (x >>= g) = .error f := by
  rw [h]
  rfl

/-- A check before a computation. -/
theorem Except.check_ok {p : Prop} [Decidable p] {x : Except ε α} :
    (if p then .error e else x) = .ok a ↔ ¬ p ∧ x = .ok a := by
  split
  · rename_i h
    constructor
    · intro hok
      cases hok
    · intro hok
      exact (hok.1 h).elim
  · rename_i h
    exact (and_iff_right h).symm

/-- What one step preserves holds in the last state of every run. -/
theorem foldlM_invariant {step : σ → α → Except ε σ} {inv : σ → Prop}
    (hstep : ∀ s a s', inv s → step s a = .ok s' → inv s') {s s' : σ} {l : List α}
    (hs : inv s) (h : l.foldlM step s = .ok s') : inv s' := by
  induction l generalizing s with
  | nil =>
    cases h
    exact hs
  | cons a l ih =>
    rw [List.foldlM_cons] at h
    obtain ⟨t, ht, hl⟩ := Except.bind_ok h
    exact ih (hstep _ _ _ hs ht) hl

/-- The last step of a run. -/
theorem foldlM_concat (step : σ → α → Except ε σ) (s : σ) (l : List α) (a : α) :
    (l ++ [a]).foldlM step s = l.foldlM step s >>= fun s' => step s' a := by
  rw [List.foldlM_append]
  congr 1
  funext s'
  rw [List.foldlM_cons]
  cases step s' a with
  | error e => rfl
  | ok t => rfl

/-- Every step of a run that goes through goes through. -/
theorem foldlM_ok_mem {step : σ → α → Except ε σ} {s s' : σ} {l : List α}
    (h : l.foldlM step s = .ok s') (ha : a ∈ l) : ∃ t t', step t a = .ok t' := by
  induction l generalizing s with
  | nil => cases ha
  | cons b l ih =>
    rw [List.foldlM_cons] at h
    obtain ⟨t, ht, hl⟩ := Except.bind_ok h
    cases ha with
    | head => exact ⟨s, t, ht⟩
    | tail _ ha => exact ih hl ha

/-- A loop over indices keeps what each round makes of the round before. -/
theorem foldlM_range_ok {f : σ → Nat → Except ε σ} (inv : Nat → σ → Prop)
    (hstep : ∀ i < n, ∀ s, inv i s → ∃ s', f s i = .ok s' ∧ inv (i + 1) s') {s : σ}
    (hs : inv 0 s) : ∃ s', (List.range n).foldlM f s = .ok s' ∧ inv n s' := by
  induction n with
  | zero => exact ⟨s, rfl, hs⟩
  | succ n ih =>
    obtain ⟨t, ht, hinv⟩ := ih fun i hi => hstep i (Nat.lt_succ_of_lt hi)
    obtain ⟨s', he, hinv'⟩ := hstep n (Nat.lt_succ_self n) t hinv
    refine ⟨s', ?_, hinv'⟩
    rw [List.range_succ, List.foldlM_append, ht]
    change [n].foldlM f t = _
    rw [List.foldlM_cons, he]
    rfl

/-- What a computation gives for each element of a list. -/
theorem Except.mapM_eq {f : α → Except ε β} {g : α → β} {l : List α}
    (h : ∀ a ∈ l, f a = .ok (g a)) : l.mapM f = .ok (l.map g) := by
  induction l with
  | nil => rfl
  | cons a l ih =>
    rw [List.mapM_cons, h a List.mem_cons_self, List.map_cons]
    change (l.mapM f >>= fun rest => .ok (g a :: rest)) = _
    rw [ih fun b hb => h b (List.mem_cons_of_mem a hb)]
    rfl

theorem Except.mapM_ok {f : α → Except ε β} {l : List α} (h : l.mapM f = .ok l') :
    List.Forall₂ (fun a b => f a = .ok b) l l' := by
  induction l generalizing l' with
  | nil =>
    cases h
    exact .nil
  | cons a l ih =>
    rw [List.mapM_cons] at h
    obtain ⟨b, hb, h⟩ := Except.bind_ok h
    obtain ⟨rest, hrest, h⟩ := Except.bind_ok h
    cases h
    exact .cons hb (ih hrest)

theorem Except.mapM_ok_mem {f : α → Except ε β} {l : List α} (h : l.mapM f = .ok l') (ha : a ∈ l) :
    ∃ b, f a = .ok b := by
  obtain ⟨i, hi, rfl⟩ := List.getElem_of_mem ha
  have hall := Except.mapM_ok h
  exact ⟨_, hall.get hi (hall.length_eq ▸ hi)⟩

theorem Except.mapM_forall₂ {f : α → Except ε β} {P : α → β → Prop} {l : List α}
    (h : ∀ a ∈ l, ∃ b, f a = .ok b ∧ P a b) : ∃ l', l.mapM f = .ok l' ∧ List.Forall₂ P l l' := by
  induction l with
  | nil => exact ⟨[], rfl, .nil⟩
  | cons a l ih =>
    obtain ⟨b, hb, hp⟩ := h a List.mem_cons_self
    obtain ⟨l', hl, hps⟩ := ih fun a' ha => h a' (List.mem_cons_of_mem a ha)
    refine ⟨b :: l', ?_, .cons hp hps⟩
    rw [List.mapM_cons, hb]
    change (l.mapM f >>= fun rest => .ok (b :: rest)) = _
    rw [hl]
    rfl

/-- A run in which every step meets a condition on the state before it. -/
def Along (step : σ → α → Except ε σ) (cond : σ → α → Prop) : σ → List α → Prop
  | _, [] => True
  | s, a :: l => cond s a ∧ ∀ s', step s a = .ok s' → Along step cond s' l

theorem Along.cons {step : σ → α → Except ε σ} {cond : σ → α → Prop} (ha : cond s a)
    (hs : step s a = .ok s') (h : Along step cond s' l) : Along step cond s (a :: l) := by
  refine ⟨ha, fun t ht => ?_⟩
  rw [hs] at ht
  cases ht
  exact h

instance Along.decidable {step : σ → α → Except ε σ} {cond : σ → α → Prop}
    [∀ s a, Decidable (cond s a)] : ∀ s l, Decidable (Along step cond s l)
  | _, [] => isTrue trivial
  | s, a :: l =>
    match hs : step s a with
    | .ok s' =>
      have : Decidable (Along step cond s' l) := Along.decidable s' l
      decidable_of_iff (cond s a ∧ Along step cond s' l)
        ⟨fun h => Along.cons h.1 hs h.2, fun h => ⟨h.1, h.2 s' hs⟩⟩
    | .error _ =>
      decidable_of_iff (cond s a)
        ⟨fun h => ⟨h, fun s' hs' => by rw [hs] at hs'; cases hs'⟩, And.left⟩

/-- Steps that meet the condition go through and preserve the invariant, hence so do the runs. -/
theorem Along.run {step : σ → α → Except ε σ} {cond : σ → α → Prop} {l : List α} (inv : σ → Prop)
    (hstep : ∀ s, ∀ a ∈ l, inv s → cond s a → ∃ s', step s a = .ok s' ∧ inv s') {s : σ}
    (hs : inv s) (h : Along step cond s l) : ∃ s', l.foldlM step s = .ok s' ∧ inv s' := by
  induction l generalizing s with
  | nil => exact ⟨s, rfl, hs⟩
  | cons a l ih =>
    obtain ⟨ha, hl⟩ := h
    obtain ⟨t, ht, hinv⟩ := hstep s a List.mem_cons_self hs ha
    rw [List.foldlM_cons, ht]
    exact ih (fun s b hb => hstep s b (List.mem_cons_of_mem a hb)) hinv (hl t ht)

end OpenAsip
