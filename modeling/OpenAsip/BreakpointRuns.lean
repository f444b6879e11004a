import OpenAsip.SimulationCommandRuns

namespace OpenAsip
set_option autoImplicit true

namespace Simulator

namespace StopPoint
variable {ρ : Type u} {c : SimulationController ρ} {p : StopPoint ρ} {a : Nat}

/-- The breakpoint of `TBPCommand`, without a condition. -/
def temporary (address : Nat) : StopPoint ρ where
  address := address
  enabled := true
  disabledAfterTriggered := false
  deletedAfterTriggered := true
  condition := none
  ignoreCount := 0

theorem handle_temporary (c : SimulationController ρ) (address : Nat) :
    (temporary address).handle c =
      (temporary address, decide (c.machineState.gcuState.programCounter = address)) := by
  rw [handle]
  by_cases h : c.machineState.gcuState.programCounter = address
  · have htriggered : (temporary address).isTriggered c = true := decide_eq_true h
    rw [htriggered, decide_eq_true h]
    rfl
  · have htriggered : (temporary address).isTriggered c = false := decide_eq_false h
    rw [htriggered, decide_eq_false h]
    rfl

theorem kept_temporary (k : Nat) (h : c.machineState.gcuState.programCounter = a) :
    kept c (k, temporary a) = none := by
  rw [kept, handle_temporary, decide_eq_true h]
  rfl

theorem kept_temporary_of_ne (k : Nat) (h : c.machineState.gcuState.programCounter ≠ a) :
    kept c (k, temporary a) = some (k, temporary a) := by
  rw [kept, handle_temporary, decide_eq_false h]
  rfl

theorem kept_fst {x y : Nat × StopPoint ρ} (h : kept c x = some y) : y.1 = x.1 := by
  rw [kept] at h
  split at h
  · cases h
  · cases h
    rfl

/-- Whether a new instruction is one that an enabled breakpoint is there for. -/
def hits (p : StopPoint ρ) (c : SimulationController ρ) : Bool :=
  p.isTriggered c && p.isConditionOK c

theorem handle_miss (h : p.hits c = false) : p.handle c = (p, false) := by
  rw [handle]
  split
  · next htriggered =>
    have hcondition : p.isConditionOK c = false := by
      rw [hits, (Bool.and_eq_true_iff.1 htriggered).2] at h
      exact h
    rw [hcondition, Bool.and_false]
    rfl
  · rfl

theorem handle_hit (henabled : p.enabled = true) (h : p.hits c = true)
    (hignore : p.ignoreCount = 0) : (p.handle c).2 = true := by
  obtain ⟨htriggered, hcondition⟩ := Bool.and_eq_true_iff.1 h
  rw [handle, henabled, htriggered, hcondition, hignore]
  rfl

theorem handle_ignored (henabled : p.enabled = true) (h : p.hits c = true)
    (hignore : p.ignoreCount = i + 1) : p.handle c = ({ p with ignoreCount := i }, false) := by
  obtain ⟨htriggered, hcondition⟩ := Bool.and_eq_true_iff.1 h
  rw [handle, henabled, htriggered, hcondition, hignore]
  rfl

end StopPoint

theorem StopPointManager.Wf.mem_handleEvent {s : StopPointManager ρ} (hs : s.Wf)
    (hp : (h, p) ∈ s.stopPoints) (hgo : p.handle c = (q, false)) :
    (h, q) ∈ (s.handleEvent c).1.stopPoints := by
  rw [hs.stopPoints_handleEvent, List.mem_filterMap]
  refine ⟨_, hp, ?_⟩
  rw [StopPoint.kept, hgo]
  rfl

/-- The stop points of a manager and a temporary breakpoint after them. -/
structure Accompanied (k address : Nat) (s t : StopPointManager ρ) : Prop where
  wf : s.Wf
  wf_right : t.Wf
  stopPoints : t.stopPoints = s.stopPoints ++ [(k, .temporary address)]
  fresh : k ∉ s.stopPoints.map Prod.fst

namespace Accompanied
variable {ρ : Type u} {s t : StopPointManager ρ} {c : SimulationController ρ}

theorem add (hs : s.Wf) (address : Nat) :
    Accompanied (s.handleCount + 1) address s (s.add (.temporary address)) where
  wf := hs
  wf_right := hs.add _
  stopPoints := hs.stopPoints_add _
  fresh h := Nat.not_succ_le_self _ (hs.bound _ h)

theorem fresh_handleEvent (h : Accompanied k address s t) (c : SimulationController ρ) :
    k ∉ (s.handleEvent c).1.stopPoints.map Prod.fst := by
  rw [h.wf.stopPoints_handleEvent]
  intro hk
  obtain ⟨y, hy, rfl⟩ := List.mem_map.1 hk
  obtain ⟨x, hx, hxy⟩ := List.mem_filterMap.1 hy
  rw [StopPoint.kept_fst hxy] at h
  exact h.fresh (List.mem_map_of_mem hx)

/-- Away from the address the breakpoint makes no difference. -/
theorem handleEvent (h : Accompanied k address s t)
    (hc : c.machineState.gcuState.programCounter ≠ address) :
    Accompanied k address (s.handleEvent c).1 (t.handleEvent c).1 ∧
      (t.handleEvent c).2 = (s.handleEvent c).2 := by
  constructor
  · refine ⟨h.wf.handleEvent c, h.wf_right.handleEvent c, ?_, h.fresh_handleEvent c⟩
    rw [h.wf.stopPoints_handleEvent, h.wf_right.stopPoints_handleEvent, h.stopPoints,
      List.filterMap_append, List.filterMap_cons_some (StopPoint.kept_temporary_of_ne k hc)]
    rfl
  · rw [Bool.eq_iff_iff, StopPointManager.handleEvent_snd, StopPointManager.handleEvent_snd]
    rw [h.stopPoints]
    constructor
    · rintro ⟨j, p, hp, hstop⟩
      rcases List.mem_append.1 hp with hp | hp
      · exact ⟨j, p, hp, hstop⟩
      · cases List.mem_singleton.1 hp
        rw [StopPoint.handle_temporary, decide_eq_true_iff] at hstop
        exact absurd hstop hc
    · rintro ⟨j, p, hp, hstop⟩
      exact ⟨j, p, List.mem_append_left _ hp, hstop⟩

/-- At the address the breakpoint asks to stop and is deleted. -/
theorem triggered (h : Accompanied k address s t)
    (hc : c.machineState.gcuState.programCounter = address) :
    (t.handleEvent c).1.stopPoints = (s.handleEvent c).1.stopPoints ∧
      (t.handleEvent c).2 = true := by
  constructor
  · rw [h.wf.stopPoints_handleEvent, h.wf_right.stopPoints_handleEvent, h.stopPoints,
      List.filterMap_append, List.filterMap_cons_none (StopPoint.kept_temporary k hc)]
    exact List.append_nil _
  · rw [StopPointManager.handleEvent_snd, h.stopPoints]
    refine ⟨k, .temporary address, List.mem_append_right _ (List.mem_singleton_self _), ?_⟩
    rw [StopPoint.handle_temporary]
    exact decide_eq_true hc

theorem filter_stopPoints (h : Accompanied k address s t) :
    (t.stopPoints.filter fun x => x.1 ≠ k) = s.stopPoints.filter fun x => x.1 ≠ k := by
  rw [h.stopPoints, List.filter_append]
  simp

end Accompanied

namespace Simulation
variable {ρ : Type u} {m : Machine ρ} {s s' : Simulation ρ} {manager : StopPointManager ρ}

/-- `TBPCommand::execute`, for a breakpoint without a condition. -/
def tbp (address : Nat) (s : Simulation ρ) : Simulation ρ :=
  { s with stopPointManager := s.stopPointManager.add (.temporary address) }

/-- What a user sees of a simulation, except for the reasons of its stop and one breakpoint. -/
def observed (k : Nat) (s : Simulation ρ) :
    SimulationController ρ × SimulationStatus × Nat × List (Nat × StopPoint ρ) :=
  (s.controller, s.state, s.lastExecutedInstruction,
    s.stopPointManager.stopPoints.filter fun x => x.1 ≠ k)

/-- The simulation with the other manager and some reasons to stop. -/
def With (s : Simulation ρ) (manager : StopPointManager ρ) (reasons : List StopReason) :
    Simulation ρ :=
  { s with stopPointManager := manager, stopReasons := reasons }

theorem observed_with (h : Accompanied k address s.stopPointManager manager)
    (reasons : List StopReason) : observed k (s.With manager reasons) = observed k s := by
  rw [observed, observed]
  dsimp only [With]
  rw [h.filter_stopPoints]

theorem observed_finish (h : observed k s = observed k s') :
    observed k s.finish = observed k s'.finish := by
  simp only [observed, Prod.mk.injEq] at h
  obtain ⟨hcontroller, hstate, hlast, hstopPoints⟩ := h
  rw [finish, finish, hstate]
  split
  · simp only [observed, Prod.mk.injEq]
    exact ⟨hcontroller, hstate, hlast, hstopPoints⟩
  · simp only [observed, Prod.mk.injEq]
    exact ⟨hcontroller, trivial, hlast, hstopPoints⟩

/-- What a cycle leaves of two simulations, one with the breakpoint. -/
def Beside (k address : Nat) (s t : Simulation ρ) : Prop :=
  (∃ manager reasons, Accompanied k address s.stopPointManager manager ∧
    t = s.With manager reasons ∧ (s.programCounter = address → s.stopRequested = true)) ∨
  (s.programCounter = address ∧ observed k t = observed k s ∧ t.stopRequested = true)

theorem newInstruction_beside (h : Accompanied k address s.stopPointManager manager)
    (reasons : List StopReason) :
    Beside k address s.newInstruction (s.With manager reasons).newInstruction := by
  by_cases hc : s.programCounter = address
  · obtain ⟨hpoints, hstop⟩ := h.triggered hc
    rw [newInstruction_stop (s := s.With manager reasons) hstop]
    cases hs : (s.stopPointManager.handleEvent s.controller).2 with
    | false =>
      rw [newInstruction_go hs]
      exact .inr ⟨hc, congrArg (fun l => (s.controller, s.state, s.lastExecutedInstruction,
        l.filter fun x => x.1 ≠ k)) hpoints, rfl⟩
    | true =>
      rw [newInstruction_stop hs]
      exact .inr ⟨hc, congrArg (fun l => (s.controller, s.state, s.lastExecutedInstruction,
        l.filter fun x => x.1 ≠ k)) hpoints, rfl⟩
  · obtain ⟨hnext, hstop⟩ := h.handleEvent hc
    cases hs : (s.stopPointManager.handleEvent s.controller).2 with
    | false =>
      rw [newInstruction_go hs, newInstruction_go (s := s.With manager reasons) (hstop.trans hs)]
      exact .inl ⟨_, reasons, hnext, rfl, fun h => absurd h hc⟩
    | true =>
      rw [newInstruction_stop hs,
        newInstruction_stop (s := s.With manager reasons) (hstop.trans hs)]
      exact .inl ⟨_, insertReason .breakpoint reasons, hnext, rfl, fun _ => rfl⟩

theorem simulateCycle_beside (h : Accompanied k address s.stopPointManager manager)
    (reasons : List StopReason) (hs : s.simulateCycle m = .ok (s', more)) :
    ∃ t, (s.With manager reasons).simulateCycle m = .ok (t, more) ∧ Beside k address s' t := by
  rcases simulateCycle_cases hs with ⟨c, hc, rfl, rfl⟩ | ⟨c, hc, hfinished, rfl, rfl⟩ |
    ⟨c, hc, hgoing, rfl, rfl⟩
  · refine ⟨_, simulateCycle_failed (s := s.With manager reasons) hc, .inl ?_⟩
    exact ⟨manager, insertReason .runtimeError reasons, h, rfl, fun _ => rfl⟩
  · refine ⟨_, simulateCycle_finished (s := s.With manager reasons) hc hfinished, .inl ?_⟩
    exact ⟨manager, reasons, h, rfl, fun _ => rfl⟩
  · refine ⟨_, simulateCycle_going (s := s.With manager reasons) hc hgoing, ?_⟩
    exact newInstruction_beside (s := s.executed c) h reasons

theorem runLoop_stopped (hstop : s.stopRequested = true) (fuel : Nat) :
    runLoop m fuel s = some (.ok s) := by
  cases fuel with
  | zero => rw [runLoop, if_pos hstop]
  | succ fuel => rw [runLoop, if_pos hstop]

theorem runUntilLoop_stopped (hstop : s.stopRequested = true) (fuel : Nat) :
    runUntilLoop m address fuel s = some (.ok s.finish) := by
  cases fuel with
  | zero => rw [runUntilLoop, if_pos hstop]
  | succ fuel => rw [runUntilLoop, if_pos hstop]

theorem simulateCycle_stopped (hgo : s.state ≠ .finished) (h : s.simulateCycle m = .ok (s', more))
    (hfinished : s'.state = .finished) : s'.stopRequested = true := by
  rcases simulateCycle_cases h with ⟨c, _, _, rfl⟩ | ⟨c, _, _, _, rfl⟩ | ⟨c, _, _, _, rfl⟩
  · exact absurd hfinished hgo
  · rfl
  · rw [newInstruction] at hfinished ⊢
    split at hfinished
    · exact absurd hfinished hgo
    · exact absurd hfinished hgo

/-- What is observed of the end of a command. -/
def ending (k : Nat) (r : Option (Outcome (Simulation ρ))) :=
  r.map (Except.map (observed k))

theorem ending_stopped (hstop : s.stopRequested = true) (h : observed k s' = observed k s)
    (fuel : Nat) :
    ending k (some (.ok s')) = ending k (runLoop m fuel s) := by
  rw [runLoop_stopped hstop]
  exact congrArg (fun o => some (Except.ok o)) h

theorem ending_finish (r : Option (Outcome (Simulation ρ)))
    (h : ending k (some (.ok s)) = ending k r) :
    ending k (some (.ok s.finish)) = ending k (r.map (Except.map finish)) := by
  cases r with
  | none => cases h
  | some r =>
    cases r with
    | error fault => cases h
    | ok t => 
      have h : observed k s = observed k t := Except.ok.inj (Option.some.inj h)
      exact congrArg (fun o => some (Except.ok o)) (observed_finish h)

/-- A run with the breakpoint keeps to a run until its address. -/
theorem runUntilLoop_beside (hgo : s.state ≠ .finished)
    (h : Accompanied k address s.stopPointManager manager) (reasons : List StopReason)
    (fuel : Nat) :
    ending k (runUntilLoop m address fuel s) =
      ending k ((runLoop m fuel (s.With manager reasons)).map (Except.map finish)) := by
  induction fuel generalizing s manager reasons with
  | zero =>
    by_cases hstop : s.stopRequested = true
    · rw [runUntilLoop_stopped hstop]
      exact ending_finish _ (ending_stopped (s := s.With manager reasons) hstop
        (observed_with h reasons).symm 0)
    · have hstop' : ¬(s.With manager reasons).stopRequested = true := hstop
      rw [runUntilLoop, if_neg hstop, runLoop, if_neg hstop']
      rfl
  | succ fuel ih =>
    by_cases hstop : s.stopRequested = true
    · rw [runUntilLoop_stopped hstop]
      exact ending_finish _ (ending_stopped (s := s.With manager reasons) hstop
        (observed_with h reasons).symm (fuel + 1))
    · have hstop' : ¬(s.With manager reasons).stopRequested = true := hstop
      rw [runUntilLoop, if_neg hstop, runLoop, if_neg hstop']
      cases hs : s.simulateCycle m with
      | error fault =>
        have hfault := simulateCycle_fault hs
        rw [simulateCycle_error (s := s.With manager reasons) hfault]
        rfl
      | ok r =>
        obtain ⟨s', more⟩ := r
        obtain ⟨t, ht, hbeside⟩ := simulateCycle_beside h reasons hs
        rw [ht]
        dsimp only
        have hend : s'.stopRequested = true ∨ s'.programCounter = address →
            ending k (some (.ok s'.finish)) =
              ending k ((runLoop m fuel t).map (Except.map finish)) := by
          intro hend
          apply ending_finish
          obtain ⟨manager', reasons', h', rfl, hstop⟩ | ⟨_, hobserved, hstop⟩ := hbeside
          · exact ending_stopped (s := s'.With manager' reasons') (hend.elim id hstop)
              (observed_with h' reasons').symm fuel
          · exact ending_stopped hstop hobserved.symm fuel
        by_cases hfinished : s'.state = .finished
        · have heq : s'.finish = s' := if_pos hfinished
          rw [if_pos hfinished, ← heq]
          exact hend (.inl (simulateCycle_stopped hgo hs hfinished))
        · rw [if_neg hfinished]
          by_cases hc : s'.programCounter = address
          · rw [if_pos hc, ← hend (.inr hc), finish, if_neg hfinished]
            rfl
          · rw [if_neg hc]
            obtain ⟨manager', reasons', h', rfl, _⟩ | ⟨hc', _⟩ := hbeside
            · exact ih hfinished h' reasons'
            · exact absurd hc' hc

/-- At a stop that is no end, a run until an address gives the reason just if it is there. -/
theorem runUntilLoop_afterUntil (hs : s.Looping) (hstate : s.state = .running)
    (hbefore : s.stopRequested = true → s.programCounter ≠ address)
    (h : runUntilLoop m address fuel s = some (.ok s')) :
    .afterUntil ∈ s'.stopReasons ↔ s'.state ≠ .finished ∧ s'.programCounter = address := by
  have hnot : ∀ {t : Simulation ρ}, t.Looping → StopReason.afterUntil ∉ t.stopReasons := by
    intro t ht hmem
    rcases ht.reasons _ hmem with h | h
    · cases h
    · cases h
  have hend : s.stopRequested = true →
      (.afterUntil ∈ s.finish.stopReasons ↔
        s.finish.state ≠ .finished ∧ s.finish.programCounter = address) := by
    intro hstop
    rw [finish_stopReasons]
    apply iff_of_false (hnot hs)
    rintro ⟨_, hc⟩
    rw [finish] at hc
    split at hc
    · exact hbefore hstop hc
    · exact hbefore hstop hc
  induction fuel generalizing s with
  | zero =>
    rw [runUntilLoop] at h
    split at h
    · next hstop =>
      cases h
      exact hend hstop
    · cases h
  | succ fuel ih =>
    rw [runUntilLoop] at h
    split at h
    · next hstop =>
      cases h
      exact hend hstop
    · next hgo =>
      have hgo := Bool.eq_false_of_not_eq_true hgo
      split at h
      · cases h
      · next s₁ more h₁ =>
        have hnext := hs.simulateCycle hgo h₁
        split at h
        · next hfinished =>
          cases h
          exact iff_of_false (hnot hnext) fun h => h.1 hfinished
        · next hgoing =>
          split at h
          · next hc =>
            cases h
            apply iff_of_true (mem_insertReason.2 (.inl rfl))
            exact ⟨fun h => SimulationStatus.noConfusion h, hc⟩
          · next hc =>
            have hbefore₁ : s₁.stopRequested = true → s₁.programCounter ≠ address := fun _ => hc
            apply ih hnext (hnext.state.resolve_right hgoing) hbefore₁ h
            intro hstop
            rw [finish_stopReasons]
            apply iff_of_false (hnot hnext)
            rintro ⟨_, hc'⟩
            rw [finish, if_neg hgoing] at hc'
            exact hc hc'

/-- The controllers at the new instructions of a loop. -/
def events (m : Machine ρ) : Nat → Simulation ρ → List (SimulationController ρ)
  | 0, _ => []
  | count + 1, s =>
    if s.stopRequested then []
    else
      match s.simulateCycle m with
      | .ok (s, true) => s.controller :: events m count s
      | _ => []

theorem events_stopped (hstop : s.stopRequested = true) (count : Nat) : events m count s = [] := by
  cases count with
  | zero => rfl
  | succ count => rw [events, if_pos hstop]

theorem stepLoop_stopped (hstop : s.stopRequested = true) (h : stepLoop m n s = .ok (s', all)) :
    s' = s := by
  cases n with
  | zero =>
    cases h
    rfl
  | succ n =>
    rw [stepLoop, if_pos hstop] at h
    cases h
    rfl

/-- A run goes through the same cycles as a step. -/
theorem stepLoop_of_runLoop (h : runLoop m fuel s = some (.ok s')) :
    ∃ all, stepLoop m fuel s = .ok (s', all) := by
  induction fuel generalizing s with
  | zero =>
    rw [runLoop] at h
    split at h
    · cases h
      exact ⟨true, rfl⟩
    · cases h
  | succ fuel ih =>
    rw [runLoop] at h
    split at h
    · next hstop =>
      cases h
      exact ⟨false, by rw [stepLoop, if_pos hstop]⟩
    · next hgo =>
      rw [stepLoop, if_neg hgo]
      split at h
      · cases h
      · exact ih h

theorem newInstruction_kept (hs : s.stopPointManager.Wf) {p q : StopPoint ρ}
    (hp : (handle, p) ∈ s.stopPointManager.stopPoints)
    (hgo : p.handle s.controller = (q, false)) :
    (handle, q) ∈ s.newInstruction.stopPointManager.stopPoints := by
  rw [newInstruction_stopPointManager]
  exact hs.mem_handleEvent hp hgo

theorem newInstruction_hit {p : StopPoint ρ}
    (hp : (handle, p) ∈ s.stopPointManager.stopPoints)
    (hstop : (p.handle s.controller).2 = true) :
    s.newInstruction.stopRequested = true ∧ .breakpoint ∈ s.newInstruction.stopReasons := by
  rw [newInstruction_stop ((StopPointManager.handleEvent_snd _ _).2 ⟨handle, p, hp, hstop⟩)]
  exact ⟨rfl, mem_insertReason.2 (.inl rfl)⟩

/-- A breakpoint that is enabled counts its new instructions down, and stops the loop when it has
counted to its end. -/
theorem stepLoop_visits (hs : s.stopPointManager.Wf) {p : StopPoint ρ}
    (hp : (handle, p) ∈ s.stopPointManager.stopPoints) (henabled : p.enabled = true)
    (h : stepLoop m n s = .ok (s', all)) :
    ((events m n s).countP p.hits ≤ p.ignoreCount ∧
      (handle, { p with ignoreCount := p.ignoreCount - (events m n s).countP p.hits }) ∈
        s'.stopPointManager.stopPoints) ∨
    ((events m n s).countP p.hits = p.ignoreCount + 1 ∧ .breakpoint ∈ s'.stopReasons ∧
      p.hits s'.controller = true) := by
  induction n generalizing s p with
  | zero =>
    cases h
    exact .inl ⟨Nat.zero_le _, hp⟩
  | succ n ih =>
    rw [stepLoop] at h
    split at h
    · next hstop =>
      cases h
      rw [events_stopped hstop]
      exact .inl ⟨Nat.zero_le _, hp⟩
    · next hgo =>
      split at h
      · cases h
      · next s₁ more h₁ =>
        have hevents : events m (n + 1) s =
            if more then s₁.controller :: events m n s₁ else [] := by
          rw [events, if_neg hgo, h₁]
          cases more with
          | true => rfl
          | false => rfl
        rw [hevents]
        rcases simulateCycle_cases h₁ with ⟨c, _, rfl, rfl⟩ | ⟨c, _, _, rfl, rfl⟩ |
          ⟨c, _, _, rfl, rfl⟩
        · cases stepLoop_stopped rfl h
          exact .inl ⟨Nat.zero_le _, hp⟩
        · cases stepLoop_stopped rfl h
          exact .inl ⟨Nat.zero_le _, hp⟩
        · have hs' : (s.executed c).stopPointManager.Wf := hs
          have hp' : (handle, p) ∈ (s.executed c).stopPointManager.stopPoints := hp
          generalize s.executed c = t at hs' hp' h
          have hwf : t.newInstruction.stopPointManager.Wf := by
            rw [newInstruction_stopPointManager]
            exact hs'.handleEvent _
          rw [if_pos rfl, newInstruction_controller]
          cases hhit : p.hits t.controller with
          | false =>
            rw [List.countP_cons_of_neg (Bool.eq_false_iff.1 hhit)]
            exact ih hwf (newInstruction_kept hs' hp' (StopPoint.handle_miss hhit)) henabled h
          | true =>
            rw [List.countP_cons_of_pos hhit]
            cases hignore : p.ignoreCount with
            | zero =>
              obtain ⟨hstop, hreason⟩ :=
                newInstruction_hit hp' (StopPoint.handle_hit henabled hhit hignore)
              rw [events_stopped hstop]
              cases stepLoop_stopped hstop h
              rw [newInstruction_controller]
              exact .inr ⟨rfl, hreason, hhit⟩
            | succ i =>
              have hkept := newInstruction_kept hs' hp'
                (StopPoint.handle_ignored henabled hhit hignore)
              have hvisits := ih hwf hkept henabled h
              rw [Nat.add_sub_add_right]
              exact hvisits.imp
                (fun hv => ⟨Nat.succ_le_succ hv.1, hv.2⟩) fun hv => ⟨congrArg _ hv.1, hv.2⟩

end Simulation

end Simulator

end OpenAsip
