import Mathlib.Data.List.Basic
import Mathlib.Data.Nat.Find
import Mathlib.Logic.Function.Iterate

namespace OpenAsip
set_option autoImplicit true

/-- A detector is asked at most once a cycle whether an operation can start. -/
structure Detector (ε : Type u) (σ : Type v) (ι : Type w) where
  issue : σ → ι → Except ε (Bool × σ)
  advance : σ → Except ε σ

namespace Detector

/-- The answers up to the first rejection. -/
def answers (d : Detector ε σ ι) : σ → List (Option ι) → Except ε (List Bool)
  | _, [] => .ok []
  | s, none :: l => do
    let s ← d.advance s
    d.answers s l
  | s, some i :: l => do
    let (accepted, s) ← d.issue s i
    if accepted then
      let s ← d.advance s
      let rest ← d.answers s l
      .ok (true :: rest)
    else .ok [false]

end Detector

namespace Reservations

/-- The resource is in use in an absolute cycle by an operation started at the given one. -/
def UsedAt (uses : ι → ρ → Nat → Prop) (i : ι) (start : Nat) (r : ρ) (cycle : Nat) : Prop :=
  start ≤ cycle ∧ uses i r (cycle - start)

/-- An operation and one of the accepted ones use a resource in the same cycle. -/
def Conflicts (uses : ι → ρ → Nat → Prop) (accepted : List (ι × Nat)) (i : ι) (start : Nat) : Prop :=
  ∃ a ∈ accepted, ∃ r cycle, UsedAt uses a.1 a.2 r cycle ∧ UsedAt uses i start r cycle

open Classical in
/-- The answers of a detector that knows all operations accepted so far. -/
noncomputable def conflictFree (uses : ι → ρ → Nat → Prop) :
    Nat → List (ι × Nat) → List (Option ι) → List Bool
  | _, _, [] => []
  | cycle, accepted, none :: l => conflictFree uses (cycle + 1) accepted l
  | cycle, accepted, some i :: l =>
    if Conflicts uses accepted i cycle then [false]
    else true :: conflictFree uses (cycle + 1) ((i, cycle) :: accepted) l

/-- A resource is reserved some cycles ahead by operations of which the age is known. -/
def Reserved (uses : ι → ρ → Nat → Prop) (h : List (ι × Nat)) (r : ρ) (cycle : Nat) : Prop :=
  ∃ a ∈ h, uses a.1 r (cycle + a.2)

/-- An operation cannot be started the given number of cycles after another one. -/
def Collides (uses : ι → ρ → Nat → Prop) (i j : ι) (distance : Nat) : Prop :=
  ∃ r cycle, uses i r (cycle + distance) ∧ uses j r cycle

def Blocked (uses : ι → ρ → Nat → Prop) (h : List (ι × Nat)) (j : ι) (distance : Nat) : Prop :=
  ∃ a ∈ h, Collides uses a.1 j (distance + a.2)

def aged (h : List (ι × Nat)) : List (ι × Nat) := h.map fun a => (a.1, a.2 + 1)

section Histories
variable {uses : ι → ρ → Nat → Prop} {h : List (ι × Nat)}

theorem reserved_nil : ¬ Reserved uses [] r cycle := by
  rintro ⟨a, ha, -⟩
  cases ha

theorem reserved_cons :
    Reserved uses ((i, 0) :: h) r cycle ↔ uses i r cycle ∨ Reserved uses h r cycle := by
  simp only [Reserved, List.exists_mem_cons_iff, Nat.add_zero]

theorem reserved_aged : Reserved uses (aged h) r cycle ↔ Reserved uses h r (cycle + 1) := by
  simp only [Reserved, aged, List.mem_map, exists_exists_and_eq_and, Nat.add_right_comm cycle 1, Nat.add_assoc]

theorem blocked_nil : ¬ Blocked uses [] j distance := by
  rintro ⟨a, ha, -⟩
  cases ha

theorem blocked_cons : Blocked uses ((i, 0) :: h) j distance ↔
    Collides uses i j distance ∨ Blocked uses h j distance := by
  simp only [Blocked, List.exists_mem_cons_iff, Nat.add_zero]

theorem blocked_aged : Blocked uses (aged h) j distance ↔ Blocked uses h j (distance + 1) := by
  simp only [Blocked, aged, List.mem_map, exists_exists_and_eq_and, Nat.add_right_comm distance 1, Nat.add_assoc]

theorem blocked_zero :
    Blocked uses h j 0 ↔ ∃ r cycle, Reserved uses h r cycle ∧ uses j r cycle := by
  constructor
  · rintro ⟨a, ha, r, cycle, hi, hj⟩
    rw [Nat.zero_add] at hi
    exact ⟨r, cycle, ⟨a, ha, hi⟩, hj⟩
  · rintro ⟨r, cycle, ⟨a, ha, hi⟩, hj⟩
    exact ⟨a, ha, r, cycle, by rwa [Nat.zero_add], hj⟩

/-- The ages of the accepted operations say the same as the cycles in which they started. -/
theorem conflicts_iff {accepted : List (ι × Nat)} (hle : ∀ a ∈ accepted, a.2 ≤ start) :
    Conflicts uses accepted i start ↔
      Blocked uses (accepted.map fun a => (a.1, start - a.2)) i 0 := by
  simp only [Conflicts, Blocked, List.mem_map, exists_exists_and_eq_and, Nat.zero_add]
  refine exists_congr fun a => and_congr_right fun ha => exists_congr fun r => ?_
  have hstart := hle a ha
  constructor
  · rintro ⟨cycle, ⟨-, hi⟩, hcycle, hj⟩
    have he : cycle - start + (start - a.2) = cycle - a.2 := by omega
    exact ⟨cycle - start, by rwa [he], hj⟩
  · rintro ⟨cycle, hi, hj⟩
    have he : start + cycle - a.2 = cycle + (start - a.2) := by omega
    refine ⟨start + cycle, ⟨by omega, by rwa [he]⟩, by omega, ?_⟩
    rwa [Nat.add_sub_cancel_left]

/-- Two operations use a resource in the same cycle when the second one starts some cycles later. -/
def CommonUse (uses : ι → ρ → Nat → Prop) (i j : ι) (distance cycle : Nat) : Prop :=
  ∃ r, uses i r (cycle + distance) ∧ uses j r cycle

theorem collides_iff_commonUse :
    Collides uses i j distance ↔ ∃ cycle, CommonUse uses i j distance cycle := exists_comm

/-- In no cycle up to the first common use does one of the operations use nothing. -/
def NoGap (uses : ι → ρ → Nat → Prop) (i j : ι) (distance : Nat) : Prop :=
  ∀ c, CommonUse uses i j distance c → (∀ c' < c, ¬ CommonUse uses i j distance c') →
    ∀ c' < c, (∃ r, uses i r (c' + distance)) ∧ ∃ r, uses j r c'

/-- A common use that no cycle comes before in which one of the operations uses nothing. -/
def Found (uses : ι → ρ → Nat → Prop) (i j : ι) (distance : Nat) : Prop :=
  ∃ c, CommonUse uses i j distance c ∧
    ∀ c' < c, (∃ r, uses i r (c' + distance)) ∧ ∃ r, uses j r c'

/-- A search that stops at the first cycle without use finds all collisions exactly when no gap
comes before the first common use. -/
theorem found_exact_iff :
    (Found uses i j distance ↔ Collides uses i j distance) ↔ NoGap uses i j distance := by
  rw [collides_iff_commonUse]
  constructor
  · intro h c hc hfirst c' hc'
    obtain ⟨d, hd, hused⟩ := h.2 ⟨c, hc⟩
    have hle : c ≤ d := Nat.le_of_not_lt fun hlt => hfirst d hlt hd
    exact hused c' (Nat.lt_of_lt_of_le hc' hle)
  · intro h
    constructor
    · rintro ⟨c, hc, -⟩
      exact ⟨c, hc⟩
    · classical
      intro hex
      exact ⟨Nat.find hex, Nat.find_spec hex,
        h _ (Nat.find_spec hex) fun c' hlt => Nat.find_min hex hlt⟩

/-- The same search in all that is reserved. -/
def Seen (uses : ι → ρ → Nat → Prop) (h : List (ι × Nat)) (j : ι) : Prop :=
  ∃ c, (∃ r, Reserved uses h r c ∧ uses j r c) ∧
    ∀ c' < c, (∃ r, Reserved uses h r c') ∧ ∃ r, uses j r c'

theorem seen_singleton : Seen uses [(i, distance)] j ↔ Found uses i j distance := by
  simp only [Seen, Found, CommonUse, Reserved, List.mem_singleton, exists_eq_left]

theorem Seen.blocked (hs : Seen uses h j) : Blocked uses h j 0 := by
  obtain ⟨c, ⟨r, hr, hj⟩, -⟩ := hs
  exact blocked_zero.2 ⟨r, c, hr, hj⟩

/-- The first use that blocks an operation is seen when none of the pairs has a gap. -/
theorem Blocked.seen (hb : Blocked uses h j 0) (hgap : ∀ a ∈ h, NoGap uses a.1 j a.2) :
    Seen uses h j := by
  classical
  have hex : ∃ c, ∃ a ∈ h, CommonUse uses a.1 j a.2 c := by
    obtain ⟨a, ha, r, c, hi, hj⟩ := hb
    rw [Nat.zero_add] at hi
    exact ⟨c, a, ha, r, hi, hj⟩
  obtain ⟨a, ha, r, hi, hj⟩ := Nat.find_spec hex
  refine ⟨Nat.find hex, ⟨r, ⟨a, ha, hi⟩, hj⟩, fun c' hc' => ?_⟩
  have hfirst : ∀ c' < Nat.find hex, ¬ CommonUse uses a.1 j a.2 c' :=
    fun c' hlt huse => Nat.find_min hex hlt ⟨a, ha, huse⟩
  obtain ⟨⟨r', hi'⟩, hj'⟩ := hgap a ha (Nat.find hex) ⟨r, hi, hj⟩ hfirst c' hc'
  exact ⟨⟨r', a, ha, hi'⟩, hj'⟩

theorem iterate_aged (k start : Nat) (i : ι) : aged^[k] [(i, start)] = [(i, start + k)] := by
  induction k generalizing start with
  | zero => rfl
  | succ k ih =>
    rw [Function.iterate_succ_apply]
    change aged^[k] [(i, start + 1)] = _
    rw [ih, Nat.add_assoc, Nat.add_comm 1 k]

open Classical in
/-- The same answers from the ages alone. -/
noncomputable def expected (uses : ι → ρ → Nat → Prop) :
    List (ι × Nat) → List (Option ι) → List Bool
  | _, [] => []
  | h, none :: l => expected uses (aged h) l
  | h, some i :: l =>
    if Blocked uses h i 0 then [false] else true :: expected uses (aged ((i, 0) :: h)) l

theorem iterate_aged_start (k : Nat) (i : ι) : aged^[k] (aged [(i, 0)]) = [(i, k + 1)] := by
  rw [← Function.iterate_succ_apply, iterate_aged, Nat.zero_add]

theorem expected_idle (k : Nat) (l : List (Option ι)) :
    expected uses h (List.replicate k none ++ l) = expected uses (aged^[k] h) l := by
  induction k generalizing h with
  | zero => rfl
  | succ k ih =>
    rw [List.replicate_succ, List.cons_append, expected, ih, Function.iterate_succ_apply]

/-- The answers to two operations that start some cycles apart. -/
theorem expected_pair (k : Nat) :
    expected uses [] (some i :: (List.replicate k none ++ [some j])) = [true, false] ↔
      Collides uses i j (k + 1) := by
  have hblocked : Blocked uses [(i, k + 1)] j 0 ↔ Collides uses i j (k + 1) := by
    simp only [Blocked, List.mem_singleton, exists_eq_left, Nat.zero_add]
  rw [expected, if_neg blocked_nil, expected_idle, iterate_aged_start, expected, hblocked]
  by_cases hc : Collides uses i j (k + 1)
  · rw [if_pos hc]
    exact ⟨fun _ => hc, fun _ => rfl⟩
  · rw [if_neg hc]
    refine ⟨fun h => ?_, fun h => (hc h).elim⟩
    cases h

/-- Operations that never collide in later cycles are never rejected. -/
theorem not_mem_expected (hfree : ∀ i j distance, 1 ≤ distance → ¬ Collides uses i j distance)
    (hages : ∀ a ∈ h, 1 ≤ a.2) (l : List (Option ι)) : false ∉ expected uses h l := by
  have haged : ∀ h : List (ι × Nat), ∀ a ∈ aged h, 1 ≤ a.2 := by
    intro h a ha
    obtain ⟨b, -, rfl⟩ := List.mem_map.1 ha
    exact Nat.le_add_left 1 b.2
  induction l generalizing h with
  | nil => exact List.not_mem_nil
  | cons o l ih =>
    cases o with
    | none => exact ih (haged h)
    | some i =>
      have hb : ¬ Blocked uses h i 0 := by
        rintro ⟨a, ha, hc⟩
        rw [Nat.zero_add] at hc
        exact hfree a.1 i a.2 (hages a ha) hc
      rw [expected, if_neg hb, List.mem_cons, not_or]
      exact ⟨Bool.false_ne_true, ih (haged _)⟩

/-- No sequence is rejected exactly when no two operations collide in different cycles. -/
theorem not_mem_expected_iff : (∀ l : List (Option ι), false ∉ expected uses [] l) ↔
    ∀ i j distance, 1 ≤ distance → ¬ Collides uses i j distance := by
  constructor
  · intro h i j distance hdistance hc
    obtain ⟨k, rfl⟩ := Nat.exists_eq_add_of_le' hdistance
    apply h (some i :: (List.replicate k none ++ [some j]))
    rw [(expected_pair k).2 hc]
    exact List.mem_cons_of_mem true List.mem_cons_self
  · intro h
    exact not_mem_expected h (List.forall_mem_nil _)

theorem aged_ages {accepted : List (ι × Nat)} (hle : ∀ a ∈ accepted, a.2 ≤ cycle) :
    aged (accepted.map fun a => (a.1, cycle - a.2)) =
      accepted.map fun a => (a.1, cycle + 1 - a.2) := by
  rw [aged, List.map_map]
  refine List.map_congr_left fun a ha => ?_
  have hcycle := hle a ha
  simp only [Function.comp_apply, Nat.sub_add_comm hcycle]

theorem conflictFree_eq {accepted : List (ι × Nat)} (hle : ∀ a ∈ accepted, a.2 ≤ cycle)
    (l : List (Option ι)) : conflictFree uses cycle accepted l =
      expected uses (accepted.map fun a => (a.1, cycle - a.2)) l := by
  induction l generalizing cycle accepted with
  | nil => rfl
  | cons o l ih =>
    cases o with
    | none =>
      rw [conflictFree, expected, aged_ages hle]
      exact ih fun a ha => Nat.le_succ_of_le (hle a ha)
    | some i =>
      have hle' : ∀ a ∈ (i, cycle) :: accepted, a.2 ≤ cycle := by
        rw [List.forall_mem_cons]
        exact ⟨Nat.le_refl cycle, hle⟩
      have haged := aged_ages hle'
      rw [List.map_cons, Nat.sub_self] at haged
      rw [conflictFree, expected, haged]
      by_cases hc : Conflicts uses accepted i cycle
      · rw [if_pos hc, if_pos ((conflicts_iff hle).1 hc)]
      · rw [if_neg hc, if_neg (mt (conflicts_iff hle).2 hc)]
        exact congrArg _ (ih fun a ha => Nat.le_succ_of_le (hle' a ha))

/-- Only the collisions of two operations matter. -/
theorem expected_congr {uses' : ι → ρ' → Nat → Prop}
    (hc : ∀ i j distance, Collides uses i j distance ↔ Collides uses' i j distance)
    (l : List (Option ι)) : expected uses h l = expected uses' h l := by
  have hb : ∀ h j, Blocked uses h j 0 ↔ Blocked uses' h j 0 := by
    intro h j
    simp only [Blocked, hc]
  induction l generalizing h with
  | nil => rfl
  | cons o l ih =>
    cases o with
    | none => exact ih
    | some i =>
      rw [expected, expected, ih]
      by_cases hi : Blocked uses h i 0
      · rw [if_pos hi, if_pos ((hb h i).1 hi)]
      · rw [if_neg hi, if_neg (mt (hb h i).2 hi)]

end Histories

/-- The states of a detector represent the operations accepted so far, in one way before a cycle's
operation and in another one before the end of the cycle. -/
structure Simulates (d : Detector ε σ ι) (uses : ι → ρ → Nat → Prop)
    (ready issued : σ → List (ι × Nat) → Prop) : Prop where
  accept : ∀ s h i, ready s h → ¬ Blocked uses h i 0 →
    ∃ s', d.issue s i = .ok (true, s') ∧ issued s' ((i, 0) :: h)
  reject : ∀ s h i, ready s h → Blocked uses h i 0 → ∃ s', d.issue s i = .ok (false, s')
  idle : ∀ s h, ready s h → issued s h
  advance : ∀ s h, issued s h → ∃ s', d.advance s = .ok s' ∧ ready s' (aged h)

theorem Simulates.answers_eq {d : Detector ε σ ι} {uses : ι → ρ → Nat → Prop}
    (hd : Simulates d uses ready issued) (hs : ready s h) (l : List (Option ι)) :
    d.answers s l = .ok (expected uses h l) := by
  induction l generalizing s h with
  | nil => rfl
  | cons o l ih =>
    cases o with
    | none =>
      obtain ⟨s', he, hs'⟩ := hd.advance s h (hd.idle s h hs)
      rw [Detector.answers, he]
      exact ih hs'
    | some i =>
      rw [Detector.answers, expected]
      by_cases hb : Blocked uses h i 0
      · obtain ⟨s', he⟩ := hd.reject s h i hs hb
        rw [he, if_pos hb]
        rfl
      · obtain ⟨s', he, hs'⟩ := hd.accept s h i hs hb
        obtain ⟨s'', he', hs''⟩ := hd.advance s' _ hs'
        rw [he, if_neg hb]
        dsimp only [bind, Except.bind]
        rw [if_pos rfl, he']
        dsimp only
        rw [ih hs'']

/-- A detector that starts with nothing reserved accepts exactly what is free of conflicts. -/
theorem Simulates.answers_conflictFree {d : Detector ε σ ι} {uses : ι → ρ → Nat → Prop}
    (hd : Simulates d uses ready issued) (hs : ready s []) (l : List (Option ι)) :
    d.answers s l = .ok (conflictFree uses 0 [] l) := by
  rw [hd.answers_eq hs, conflictFree_eq (List.forall_mem_nil _)]
  rfl

end Reservations
end OpenAsip
