import OpenAsip.Outcomes

namespace OpenAsip
set_option autoImplicit true

/-- A loop on a state. The body is `none` where the condition of the loop does not hold. -/
def whileLoop (body : τ → Option (Outcome τ)) : Nat → τ → Option (Outcome τ)
  | 0, _ => none
  | n + 1, t =>
    match body t with
    | none => some (.ok t)
    | some (.error f) => some (.error f)
    | some (.ok t') => whileLoop body n t'

/-- The loop ends after finitely many iterations, with this outcome. -/
def Ends (body : τ → Option (Outcome τ)) (t : τ) (r : Outcome τ) : Prop :=
  ∃ n, whileLoop body n t = some r

namespace Ends

variable {body : τ → Option (Outcome τ)} {t t' : τ} {r r' : Outcome τ}

theorem of_stop (h : body t = none) : Ends body t (.ok t) := by
  refine ⟨1, ?_⟩
  rw [whileLoop, h]

theorem of_fault (h : body t = some (.error f)) : Ends body t (.error f) := by
  refine ⟨1, ?_⟩
  rw [whileLoop, h]

theorem next_iff (h : body t = some (.ok t')) : Ends body t r ↔ Ends body t' r := by
  constructor
  · rintro ⟨n, hn⟩
    cases n with
    | zero => cases hn
    | succ n =>
      rw [whileLoop, h] at hn
      exact ⟨n, hn⟩
  · rintro ⟨n, hn⟩
    refine ⟨n + 1, ?_⟩
    rw [whileLoop, h]
    exact hn

theorem stop_iff (h : body t = none) : Ends body t r ↔ r = .ok t := by
  constructor
  · rintro ⟨n, hn⟩
    cases n with
    | zero => cases hn
    | succ n =>
      rw [whileLoop, h] at hn
      exact (Option.some.inj hn).symm
  · rintro rfl
    exact of_stop h

theorem fault_iff (h : body t = some (.error f)) : Ends body t r ↔ r = .error f := by
  constructor
  · rintro ⟨n, hn⟩
    cases n with
    | zero => cases hn
    | succ n =>
      rw [whileLoop, h] at hn
      exact (Option.some.inj hn).symm
  · rintro rfl
    exact of_fault h

/-- A loop that counts. -/
theorem count_iff {f : Nat → τ} (h : ∀ k < b, body (f k) = some (.ok (f (k + 1)))) :
    Ends body (f 0) r ↔ Ends body (f b) r := by
  induction b with
  | zero => exact Iff.rfl
  | succ b ih =>
    have hb := h b (Nat.lt_succ_self b)
    rw [ih fun k hk => h k (Nat.lt_succ_of_lt hk), next_iff hb]

/-- A loop whose iterations decrease a number ends. -/
theorem of_measure (measure : τ → Nat)
    (h : ∀ t t', body t = some (.ok t') → measure t' < measure t) : ∃ r, Ends body t r := by
  induction hm : measure t using Nat.strongRecOn generalizing t with
  | _ m ih =>
    cases hb : body t with
    | none => exact ⟨_, of_stop hb⟩
    | some next =>
      cases next with
      | error f => exact ⟨_, of_fault hb⟩
      | ok t' =>
        obtain ⟨r, hr⟩ := ih (measure t') (hm ▸ h t t' hb) rfl
        exact ⟨r, (next_iff hb).2 hr⟩

end Ends

/-- The states that the loop comes to. -/
inductive Comes (body : τ → Option (Outcome τ)) (t : τ) : τ → Prop where
  | start : Comes body t t
  | next (h : Comes body t a) (hb : body a = some (.ok b)) : Comes body t b

theorem Comes.ends_iff {body : τ → Option (Outcome τ)} (h : Comes body t a) :
    Ends body t r ↔ Ends body a r := by
  induction h with
  | start => exact Iff.rfl
  | next _ hb ih => rw [ih, Ends.next_iff hb]

theorem whileLoop_fault {body : τ → Option (Outcome τ)} (hn : whileLoop body n a = some (.error f))
    (ha : Comes body t a) : ∃ b, Comes body t b ∧ body b = some (.error f) := by
  induction n generalizing a with
  | zero => cases hn
  | succ n ih =>
    rw [whileLoop] at hn
    cases hb : body a with
    | none =>
      rw [hb] at hn
      cases hn
    | some next =>
      rw [hb] at hn
      cases next with
      | error g =>
        cases hn
        exact ⟨a, ha, hb⟩
      | ok b => exact ih hn (ha.next hb)

/-- A loop that ends with a fault comes to a state in which the body has the fault. -/
theorem Ends.exists_fault {body : τ → Option (Outcome τ)} (h : Ends body t (.error f)) :
    ∃ a, Comes body t a ∧ body a = some (.error f) := by
  obtain ⟨n, hn⟩ := h
  exact whileLoop_fault hn .start

theorem Ends.fault_iff_exists {body : τ → Option (Outcome τ)} :
    Ends body t (.error f) ↔ ∃ a, Comes body t a ∧ body a = some (.error f) := by
  constructor
  · exact Ends.exists_fault
  · rintro ⟨a, ha, hb⟩
    exact ha.ends_iff.2 (Ends.of_fault hb)

theorem whileLoop_ok {body : τ → Option (Outcome τ)} (hn : whileLoop body n a = some (.ok b))
    (ha : Comes body t a) : Comes body t b ∧ body b = none := by
  induction n generalizing a with
  | zero => cases hn
  | succ n ih =>
    rw [whileLoop] at hn
    cases hb : body a with
    | none =>
      rw [hb] at hn
      cases hn
      exact ⟨ha, hb⟩
    | some next =>
      rw [hb] at hn
      cases next with
      | error g => cases hn
      | ok c => exact ih hn (ha.next hb)

/-- A loop that ends ends with the fault if it does not come to another end. -/
theorem Ends.fault_iff_forall {body : τ → Option (Outcome τ)} (hends : ∃ r, Ends body t r) :
    Ends body t (.error f) ↔
      ∀ a, Comes body t a → body a ≠ none ∧ ∀ g, body a = some (.error g) → g = f := by
  constructor
  · intro h a ha
    have hends' := ha.ends_iff.1 h
    constructor
    · intro hb
      exact nomatch (Ends.stop_iff hb).1 hends'
    · intro g hb
      exact (Except.error.inj ((Ends.fault_iff hb).1 hends')).symm
  · intro hall
    obtain ⟨r, n, hn⟩ := hends
    cases r with
    | ok b =>
      obtain ⟨hb, hstop⟩ := whileLoop_ok hn .start
      exact absurd hstop (hall b hb).1
    | error g =>
      obtain ⟨a, ha, hb⟩ := whileLoop_fault hn .start
      rw [← (hall a ha).2 g hb]
      exact ⟨n, hn⟩

section Sequences

/-! A loop whose iterations are numbered. The states in front of iteration `j` satisfy `inv j`, and
the loop goes on after exactly those iterations that are `good`. -/

variable {body : τ → Option (Outcome τ)} {inv : Nat → τ → Prop} {good : Nat → Prop}

theorem comes_of_good (h0 : inv 0 t)
    (hgood : ∀ j a, inv j a → good j → ∃ b, body a = some (.ok b) ∧ inv (j + 1) b)
    (h : ∀ i < j, good i) : ∃ a, Comes body t a ∧ inv j a := by
  induction j with
  | zero => exact ⟨t, .start, h0⟩
  | succ j ih =>
    obtain ⟨a, ha, hinv⟩ := ih fun i hi => h i (Nat.lt_succ_of_lt hi)
    obtain ⟨b, hb, hinv'⟩ := hgood j a hinv (h j (Nat.lt_succ_self j))
    exact ⟨b, ha.next hb, hinv'⟩

theorem whileLoop_of_good (ha : inv j a)
    (hgood : ∀ j a, inv j a → good j → ∃ b, body a = some (.ok b) ∧ inv (j + 1) b)
    (h : ∀ i, good i) : whileLoop body n a = none := by
  induction n generalizing j a with
  | zero => rfl
  | succ n ih =>
    obtain ⟨b, hb, hinv⟩ := hgood j a ha (h j)
    rw [whileLoop, hb]
    exact ih hinv

theorem ends_iff_exists_bad (h0 : inv 0 t)
    (hgood : ∀ j a, inv j a → good j → ∃ b, body a = some (.ok b) ∧ inv (j + 1) b)
    (hbad : ∀ j a, inv j a → ¬ good j → ∀ b, body a ≠ some (.ok b)) :
    (∃ r, Ends body t r) ↔ ∃ j, ¬ good j := by
  constructor
  · rintro ⟨r, n, hn⟩
    by_contra hall
    have hnone := whileLoop_of_good (n := n) h0 hgood fun i => by_contra fun hi => hall ⟨i, hi⟩
    rw [hnone] at hn
    cases hn
  · rintro ⟨j, hj⟩
    induction j using Nat.strongRecOn with
    | _ j ih =>
      by_cases hearlier : ∃ i < j, ¬ good i
      · obtain ⟨i, hi, hbad'⟩ := hearlier
        exact ih i hi hbad'
      · obtain ⟨a, ha, hinv⟩ := comes_of_good h0 hgood (j := j) fun i hi =>
          by_contra fun hbad' => hearlier ⟨i, hi, hbad'⟩
        cases hb : body a with
        | none => exact ⟨_, ha.ends_iff.2 (Ends.of_stop hb)⟩
        | some next =>
          cases next with
          | error f => exact ⟨_, ha.ends_iff.2 (Ends.of_fault hb)⟩
          | ok b => exact absurd hb (hbad j a hinv hj b)

/-- The states that the loop comes to are those in front of the numbered iterations. -/
theorem Comes.exists_inv (h0 : inv 0 t)
    (hgood : ∀ j a, inv j a → good j → ∃ b, body a = some (.ok b) ∧ inv (j + 1) b)
    (hbad : ∀ j a, inv j a → ¬ good j → ∀ b, body a ≠ some (.ok b)) (h : Comes body t a) :
    ∃ j, (∀ i < j, good i) ∧ inv j a := by
  induction h with
  | start => exact ⟨0, fun i hi => absurd hi (Nat.not_lt_zero i), h0⟩
  | next _ hb ih =>
    obtain ⟨j, hall, hinv⟩ := ih
    have hg : good j := by_contra fun hg => hbad j _ hinv hg _ hb
    obtain ⟨c, hc, hinv'⟩ := hgood j _ hinv hg
    obtain rfl := Except.ok.inj (Option.some.inj (hb.symm.trans hc))
    refine ⟨j + 1, fun i hi => ?_, hinv'⟩
    obtain rfl | hi := Nat.eq_or_lt_of_le (Nat.le_of_lt_succ hi)
    · exact hg
    · exact hall i hi

/-- The loop ends with a fault if the first iteration after which it does not go on has it. -/
theorem ends_fault_iff {lost : Nat → Prop} (h0 : inv 0 t)
    (hgood : ∀ j a, inv j a → good j → ∃ b, body a = some (.ok b) ∧ inv (j + 1) b)
    (hbad : ∀ j a, inv j a → ¬ good j → ∀ b, body a ≠ some (.ok b))
    (hlost : ∀ j a, inv j a → (body a = some (.error f) ↔ lost j)) :
    Ends body t (.error f) ↔ ∃ j, (∀ i < j, good i) ∧ lost j := by
  rw [Ends.fault_iff_exists]
  constructor
  · rintro ⟨a, ha, hb⟩
    obtain ⟨j, hall, hinv⟩ := ha.exists_inv h0 hgood hbad
    exact ⟨j, hall, (hlost j a hinv).1 hb⟩
  · rintro ⟨j, hall, hj⟩
    obtain ⟨a, ha, hinv⟩ := comes_of_good h0 hgood hall
    exact ⟨a, ha, (hlost j a hinv).2 hj⟩

end Sequences

end OpenAsip
