import OpenAsip.BrokerDirectors

namespace OpenAsip
set_option autoImplicit true

namespace Scheduler

theorem countP_without [DecidableEq κ] {l : List α} {key : α → κ} (hnodup : (l.map key).Nodup)
    (ha : a ∈ l) (p : α → Bool) :
    l.countP p = (l.filter fun b => key b ≠ key a).countP p + if p a then 1 else 0 := by
  induction l with
  | nil => cases ha
  | cons b l ih =>
    rw [List.map_cons, List.nodup_cons] at hnodup
    by_cases hkey : key b = key a
    · have hba : b = a := by
        rcases List.mem_cons.1 ha with rfl | ha
        · rfl
        · exact (hnodup.1 (hkey ▸ List.mem_map_of_mem ha)).elim
      subst hba
      have hrest : (l.filter fun c => key c ≠ key b) = l := by
        apply List.filter_eq_self.2
        intro c hc
        rw [decide_eq_true_iff]
        intro heq
        exact hnodup.1 (heq ▸ List.mem_map_of_mem hc)
      rw [List.filter_cons_of_neg (by rw [decide_eq_true_iff]; exact fun h => h rfl), hrest,
        List.countP_cons]
    · have hmem : a ∈ l := by
        rcases List.mem_cons.1 ha with rfl | ha
        · exact (hkey rfl).elim
        · exact ha
      have hkeep : ((b :: l).filter fun c => key c ≠ key a) =
          b :: l.filter fun c => key c ≠ key a := by
        rw [List.filter_cons, if_pos]
        rw [decide_eq_true_iff]
        exact hkey
      rw [hkeep, List.countP_cons, List.countP_cons, ih hnodup.2 hmem]
      omega

theorem foldl_lower {l : List α} (x : α → Int) (m : Int) :
    l.foldl (fun m a => if x a < m then x a else m) m ≤ m ∧
      ∀ a ∈ l, l.foldl (fun m a => if x a < m then x a else m) m ≤ x a := by
  induction l generalizing m with
  | nil => exact ⟨Int.le_refl m, fun a ha => (List.not_mem_nil ha).elim⟩
  | cons b l ih =>
    obtain ⟨hle, hall⟩ := ih (if x b < m then x b else m)
    rw [List.foldl_cons]
    have hfirst : (if x b < m then x b else m) ≤ m ∧ (if x b < m then x b else m) ≤ x b := by
      split
      · omega
      · omega
    refine ⟨Int.le_trans hle hfirst.1, ?_⟩
    intro a ha
    rcases List.mem_cons.1 ha with rfl | ha
    · exact Int.le_trans hle hfirst.2
    · exact hall a ha

namespace Assignment
variable {ν : Type}

/-- The instruction of the cycle holds the move or an immediate of the node. -/
def Occupies (a : Assignment ν) (cycle : Int) : Prop :=
  a.cycle = cycle ∨ a.immediateWrite = some cycle

theorem occupies_iff {a : Assignment ν} :
    a.Occupies c ↔ c ∈ a.cycle :: a.immediateWrite.toList := by
  rw [List.mem_cons, Option.mem_toList, Occupies, eq_comm]

/-- The cycle in which the guard is read. -/
def guardRead (info : ν → NodeInfo) (a : Assignment ν) : Int :=
  max (a.cycle - (info a.node).guardLatency + 1) 0

end Assignment

namespace SimpleBrokerDirector
variable {ν : Type}

theorem lowerMaxCycle_spec (isEmpty : Int → Bool) (knownMin : Int) (n : Nat) (c : Int) :
    lowerMaxCycle isEmpty knownMin n c ≤ c ∧
      ∀ d, lowerMaxCycle isEmpty knownMin n c < d → d ≤ c → isEmpty d = true := by
  induction n generalizing c with
  | zero =>
    rw [lowerMaxCycle]
    exact ⟨Int.le_refl c, fun d hlt hle => by omega⟩
  | succ n ih =>
    rw [lowerMaxCycle]
    split
    · rename_i h
      obtain ⟨hle, hall⟩ := ih (c - 1)
      refine ⟨by omega, ?_⟩
      intro d hlt hdc
      by_cases hd : d = c
      · rw [hd]
        exact h.2
      · exact hall d hlt (by omega)
    · exact ⟨Int.le_refl c, fun d hlt hle => by omega⟩

theorem raiseMinCycle_spec (isEmpty : Int → Bool) (knownMax : Int) (n : Nat) (c : Int)
    (hn : (knownMax - c + 1).toNat ≤ n) :
    c ≤ raiseMinCycle isEmpty knownMax n c ∧
      (∀ d, c ≤ d → d < raiseMinCycle isEmpty knownMax n c → isEmpty d = true) ∧
      (raiseMinCycle isEmpty knownMax n c ≤ knownMax →
        isEmpty (raiseMinCycle isEmpty knownMax n c) = false) := by
  induction n generalizing c with
  | zero =>
    rw [raiseMinCycle]
    exact ⟨Int.le_refl c, fun d hle hlt => by omega, fun h => by omega⟩
  | succ n ih =>
    rw [raiseMinCycle]
    split
    · rename_i h
      obtain ⟨hle, hall, hstop⟩ := ih (c + 1) (by omega)
      refine ⟨by omega, ?_, hstop⟩
      intro d hcd hlt
      by_cases hd : d = c
      · rw [hd]
        exact h.2
      · exact hall d (by omega) hlt
    · rename_i h
      refine ⟨Int.le_refl c, fun d hle hlt => by omega, ?_⟩
      intro hmax
      rw [← Bool.not_eq_true]
      exact fun hempty => h ⟨hmax, hempty⟩

section Instructions
variable {info : ν → NodeInfo} {s : SimpleBrokerDirector ν}

theorem isEmptyInstruction_iff : s.isEmptyInstruction info c = true ↔
    ∀ a ∈ s.assignments, ¬ a.Occupies c := by
  rw [isEmptyInstruction, decide_eq_true_iff, moveCount, immediateCount, Nat.add_eq_zero_iff,
    List.length_eq_zero_iff, List.length_eq_zero_iff, List.length_eq_zero_iff, moves,
    List.filter_eq_nil_iff, List.filter_eq_nil_iff, List.filter_eq_nil_iff]
  simp only [decide_eq_true_iff]
  constructor
  · rintro ⟨hmoves, himmediates, hwrites⟩ a ha hoccupies
    rcases hoccupies with hcycle | hwrite
    · by_cases hmove : (info a.node).isMove = true
      · exact hmoves a ha ⟨hcycle, hmove⟩
      · exact himmediates a ha ⟨hcycle, hmove⟩
    · exact hwrites a ha hwrite
  · intro h
    exact ⟨fun a ha hm => h a ha (.inl hm.1), fun a ha hm => h a ha (.inl hm.1),
      fun a ha hw => h a ha (.inr hw)⟩

theorem isEmptyInstruction_false : s.isEmptyInstruction info c = false ↔
    ∃ a ∈ s.assignments, a.Occupies c := by
  rw [← Bool.not_eq_true, isEmptyInstruction_iff]
  simp only [not_forall, not_not, exists_prop]

end Instructions

variable (info : ν → NodeInfo)

/-- What the bounds and the counts are to satisfy. -/
structure Bounded (s : SimpleBrokerDirector ν) : Prop where
  instructions : ∀ c, 0 < s.moveCount info c ∨ 0 < s.immediateCount info c →
    s.knownMinCycle ≤ c ∧ c ≤ s.knownMaxCycle
  guards : ∀ a ∈ s.assignments, (info a.node).isMove = true →
    s.knownMinCycle ≤ a.guardRead info
  writes : ∀ a ∈ s.assignments, ∀ w, a.immediateWrite = some w → s.knownMinCycle ≤ w
  counts : ∀ c, s.moveCounts c = s.moveCount info c

/-- The bounds as facts about each assignment. -/
structure Within (s : SimpleBrokerDirector ν) : Prop where
  occupied : ∀ a ∈ s.assignments, ∀ c, a.Occupies c →
    s.knownMinCycle ≤ c ∧ c ≤ s.knownMaxCycle
  guards : ∀ a ∈ s.assignments, (info a.node).isMove = true →
    s.knownMinCycle ≤ a.guardRead info

/-- No guard is read before the first instruction and before the guards of the moves in it. -/
def GuardsSeen (s : SimpleBrokerDirector ν) : Prop :=
  ∀ c, (∃ a ∈ s.assignments, a.Occupies c) → (∀ a ∈ s.assignments, ∀ d, a.Occupies d → c ≤ d) →
    ∀ a ∈ s.assignments, (info a.node).isMove = true → c ≤ a.guardRead info ∨
      ∃ b ∈ s.moves info c, c - guardSlack (info b.node).guardLatency ≤ a.guardRead info

variable {info}

section Bounds
variable {s : SimpleBrokerDirector ν}

theorem within_of_empty (h : s.assignments = []) : s.Within info := by
  constructor
  · intro a ha
    rw [h] at ha
    cases ha
  · intro a ha
    rw [h] at ha
    cases ha

theorem lowerBound_frame (info : ν → NodeInfo) (s : SimpleBrokerDirector ν) (nodeCycle : Int) :
    ∃ lower upper, s.lowerBound info nodeCycle =
      { s with knownMinCycle := lower, knownMaxCycle := upper } := by
  rw [lowerBound]
  split
  · dsimp only
    split
    · exact ⟨_, _, rfl⟩
    · exact ⟨_, _, rfl⟩
  · exact ⟨_, _, rfl⟩

theorem raiseBound_frame (info : ν → NodeInfo) (s : SimpleBrokerDirector ν) :
    ∃ lower, s.raiseBound info = { s with knownMinCycle := lower } := by
  rw [raiseBound]
  dsimp only
  split
  · exact ⟨_, rfl⟩
  · exact ⟨_, rfl⟩

theorem GuardsSeen.of_assignments {t : SimpleBrokerDirector ν} (h : s.GuardsSeen info)
    (heq : t.assignments = s.assignments) : t.GuardsSeen info := by
  intro c
  have hmoves : t.moves info c = s.moves info c := by rw [moves, moves, heq]
  rw [heq, hmoves]
  exact h c

instance GuardsSeen.decidable (info : ν → NodeInfo) (s : SimpleBrokerDirector ν) :
    Decidable (s.GuardsSeen info) :=
  decidable_of_iff (∀ e ∈ s.assignments, ∀ c ∈ e.cycle :: e.immediateWrite.toList,
      (∀ a ∈ s.assignments, ∀ d ∈ a.cycle :: a.immediateWrite.toList, c ≤ d) →
        ∀ a ∈ s.assignments, (info a.node).isMove = true → c ≤ a.guardRead info ∨
          ∃ b ∈ s.moves info c, c - guardSlack (info b.node).guardLatency ≤ a.guardRead info) <| by
    simp only [← Assignment.occupies_iff]
    constructor
    · rintro h c ⟨e, he, hc⟩
      exact h e he c hc
    · intro h e he c hc
      exact h c ⟨e, he, hc⟩

theorem guardsSeen_of_empty (h : s.assignments = []) : s.GuardsSeen info := by
  intro c hc
  rw [h] at hc
  obtain ⟨a, ha, -⟩ := hc
  cases ha

/-- The lower bound stays when the upper one goes down, unless nothing is left. -/
theorem lowerBound_within (h : s.Within info) (nodeCycle : Int) :
    (s.lowerBound info nodeCycle).Within info ∧
      ((s.lowerBound info nodeCycle).knownMinCycle = s.knownMinCycle ∨ s.assignments = []) := by
  rw [lowerBound]
  split
  · dsimp only
    obtain ⟨-, hempty⟩ := lowerMaxCycle_spec (s.isEmptyInstruction info) s.knownMinCycle
      (s.knownMaxCycle - s.knownMinCycle + 1).toNat s.knownMaxCycle
    have hbelow : ∀ a ∈ s.assignments, ∀ c, a.Occupies c →
        c ≤ lowerMaxCycle (s.isEmptyInstruction info) s.knownMinCycle
          (s.knownMaxCycle - s.knownMinCycle + 1).toNat s.knownMaxCycle := by
      intro a ha c hc
      by_contra hlt
      have hc' := hempty c (by omega) (h.occupied a ha c hc).2
      exact isEmptyInstruction_iff.1 hc' a ha hc
    split
    · rename_i hlt
      have hnil : s.assignments = [] := by
        apply List.eq_nil_iff_forall_not_mem.2
        intro a ha
        have hle := hbelow a ha a.cycle (.inl rfl)
        have hmin := (h.occupied a ha a.cycle (.inl rfl)).1
        omega
      exact ⟨within_of_empty hnil, .inr hnil⟩
    · refine ⟨⟨?_, h.guards⟩, .inl rfl⟩
      intro a ha c hc
      exact ⟨(h.occupied a ha c hc).1, hbelow a ha c hc⟩
  · exact ⟨h, .inl rfl⟩

theorem raiseBound_within (h : s.Within info) (hseen : s.GuardsSeen info) :
    (s.raiseBound info).Within info := by
  obtain ⟨-, hempty, hstop⟩ := raiseMinCycle_spec (s.isEmptyInstruction info) s.knownMaxCycle
    (s.knownMaxCycle - s.knownMinCycle + 1).toNat s.knownMinCycle (Nat.le_refl _)
  rw [raiseBound]
  dsimp only
  revert hempty hstop
  generalize raiseMinCycle (s.isEmptyInstruction info) s.knownMaxCycle
    (s.knownMaxCycle - s.knownMinCycle + 1).toNat s.knownMinCycle = first
  intro hempty hstop
  have hfirst : ∀ a ∈ s.assignments, ∀ c, a.Occupies c → first ≤ c := by
    intro a ha c hc
    by_contra hlt
    have hc' := hempty c (h.occupied a ha c hc).1 (by omega)
    exact isEmptyInstruction_iff.1 hc' a ha hc
  split
  · rename_i hle
    obtain ⟨hlower, hmoves⟩ := foldl_lower (l := s.moves info first)
      (fun a => first - guardSlack (info a.node).guardLatency) first
    constructor
    · intro a ha c hc
      exact ⟨Int.le_trans hlower (hfirst a ha c hc), (h.occupied a ha c hc).2⟩
    · intro a ha hmove
      rcases hseen first (isEmptyInstruction_false.1 (hstop hle)) hfirst a ha hmove with
        hread | ⟨b, hb, hread⟩
      · exact Int.le_trans hlower hread
      · exact Int.le_trans (hmoves b hb) hread
  · rename_i hgt
    apply within_of_empty
    apply List.eq_nil_iff_forall_not_mem.2
    intro a ha
    have hle := hfirst a ha a.cycle (.inl rfl)
    have hmax := (h.occupied a ha a.cycle (.inl rfl)).2
    omega

end Bounds

end SimpleBrokerDirector
end Scheduler

end OpenAsip
