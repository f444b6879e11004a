import OpenAsip.SimulationCommands

namespace OpenAsip
set_option autoImplicit true

namespace Simulator

theorem Except.map_ok {f : α → β} {r : Except ε α} (h : r.map f = .ok b) :
    ∃ a, r = .ok a ∧ f a = b := by
  cases r with
  | ok a =>
    cases h
    exact ⟨a, rfl, rfl⟩
  | error e => cases h

namespace Simulation
variable {ρ : Type u} {m : Machine ρ} {s s' : Simulation ρ}

/-- What a cycle does: it meets a runtime error, finishes, or goes on to a new instruction. -/
theorem simulateCycle_cases (h : s.simulateCycle m = .ok (s', more)) :
    (∃ c, s.controller.simulateCycle m = .ok (c, true) ∧ more = false ∧
      s' = { s with controller := c }.prepareToStop .runtimeError) ∨
    (∃ c, s.controller.simulateCycle m = .ok (c, false) ∧ c.machineState.finished = true ∧
      more = false ∧ s' = { s.executed c with state := .finished, stopRequested := true }) ∨
    (∃ c, s.controller.simulateCycle m = .ok (c, false) ∧ c.machineState.finished = false ∧
      more = true ∧ s' = (s.executed c).newInstruction) := by
  rw [simulateCycle] at h
  split at h
  · cases h
  · next c hc =>
    cases h
    exact .inl ⟨c, hc, rfl, rfl⟩
  · next c hc =>
    split at h
    · next hfinished =>
      cases h
      exact .inr (.inl ⟨c, hc, hfinished, rfl, rfl⟩)
    · next hfinished =>
      cases h
      exact .inr (.inr ⟨c, hc, Bool.eq_false_of_not_eq_true hfinished, rfl, rfl⟩)

theorem simulateCycle_failed (hc : s.controller.simulateCycle m = .ok (c, true)) :
    s.simulateCycle m = .ok ({ s with controller := c }.prepareToStop .runtimeError, false) := by
  rw [simulateCycle, hc]

theorem simulateCycle_finished (hc : s.controller.simulateCycle m = .ok (c, false))
    (hfinished : c.machineState.finished = true) : s.simulateCycle m =
      .ok ({ s.executed c with state := .finished, stopRequested := true }, false) := by
  rw [simulateCycle, hc]
  exact if_pos hfinished

theorem simulateCycle_going (hc : s.controller.simulateCycle m = .ok (c, false))
    (hgoing : c.machineState.finished = false) :
    s.simulateCycle m = .ok ((s.executed c).newInstruction, true) := by
  rw [simulateCycle, hc]
  exact if_neg (Bool.eq_false_iff.1 hgoing)

theorem simulateCycle_error (hc : s.controller.simulateCycle m = .error fault) :
    s.simulateCycle m = .error fault := by
  rw [simulateCycle, hc]

theorem simulateCycle_fault (h : s.simulateCycle m = .error fault) :
    s.controller.simulateCycle m = .error fault := by
  rw [simulateCycle] at h
  split at h
  · next hc =>
    cases h
    exact hc
  · cases h
  · split at h
    · cases h
    · cases h

theorem newInstruction_go (h : (s.stopPointManager.handleEvent s.controller).2 = false) :
    s.newInstruction =
      { s with stopPointManager := (s.stopPointManager.handleEvent s.controller).1 } :=
  if_neg (Bool.eq_false_iff.1 h)

theorem newInstruction_stop (h : (s.stopPointManager.handleEvent s.controller).2 = true) :
    s.newInstruction = { s with stopPointManager :=
      (s.stopPointManager.handleEvent s.controller).1 }.prepareToStop .breakpoint :=
  if_pos h

@[simp] theorem newInstruction_controller (s : Simulation ρ) :
    s.newInstruction.controller = s.controller := by
  rw [newInstruction]
  split
  · rfl
  · rfl

@[simp] theorem newInstruction_stopPointManager (s : Simulation ρ) :
    s.newInstruction.stopPointManager = (s.stopPointManager.handleEvent s.controller).1 := by
  rw [newInstruction]
  split
  · rfl
  · rfl

/-- A command that is going on has been told to stop for a reason or has finished. -/
structure Looping (s : Simulation ρ) : Prop where
  state : s.state = .running ∨ s.state = .finished
  reasons : ∀ r ∈ s.stopReasons, r = .breakpoint ∨ r = .runtimeError
  requested : s.stopRequested = true ↔ s.stopReasons ≠ [] ∨ s.state = .finished
  finished : s.state = .finished → s.controller.machineState.finished = true
  stopPoints : s.stopPointManager.Wf

theorem looping_start (hs : s.stopPointManager.Wf) : s.start.Looping where
  state := .inl rfl
  reasons _ h := absurd h List.not_mem_nil
  requested := by simp [start]
  finished h := by cases h
  stopPoints := hs

theorem Looping.quiet (hs : s.Looping) (h : s.stopRequested = false) :
    s.stopReasons = [] ∧ s.state = .running := by
  have hnot : ¬(s.stopReasons ≠ [] ∨ s.state = .finished) := by
    rw [← hs.requested, h]
    exact Bool.false_ne_true
  rw [not_or, not_not] at hnot
  exact ⟨hnot.1, hs.state.resolve_right hnot.2⟩

theorem Looping.stop (hs : s.Looping) (hstate : s.state = .running) {reason : StopReason}
    (hreason : reason = .breakpoint ∨ reason = .runtimeError) :
    (s.prepareToStop reason).Looping where
  state := .inl hstate
  reasons r hr := by
    rcases mem_insertReason.1 hr with rfl | hr
    · exact hreason
    · exact hs.reasons r hr
  requested := ⟨fun _ => .inl insertReason_ne_nil, fun _ => rfl⟩
  finished h := by
    rw [prepareToStop, hstate] at h
    cases h
  stopPoints := hs.stopPoints

/-- The controller and the stop points change within a running command. -/
theorem Looping.change (hs : s.Looping) (hstate : s.state = .running)
    {manager : StopPointManager ρ} (hmanager : manager.Wf) (c : SimulationController ρ)
    (last : Nat) :
    ({ s with controller := c, lastExecutedInstruction := last,
              stopPointManager := manager } : Simulation ρ).Looping where
  state := hs.state
  reasons := hs.reasons
  requested := hs.requested
  finished h := by
    rw [hstate] at h
    cases h
  stopPoints := hmanager

theorem Looping.simulateCycle (hs : s.Looping) (hgo : s.stopRequested = false)
    (h : s.simulateCycle m = .ok (s', more)) : s'.Looping := by
  have hstate := (hs.quiet hgo).2
  rcases simulateCycle_cases h with ⟨c, _, _, rfl⟩ | ⟨c, _, hfinished, _, rfl⟩ |
    ⟨c, _, _, _, rfl⟩
  · exact (hs.change hstate hs.stopPoints c s.lastExecutedInstruction).stop hstate (.inr rfl)
  · exact ⟨.inr rfl, hs.reasons, by simp, fun _ => hfinished, hs.stopPoints⟩
  · have hnext := hs.change hstate (hs.stopPoints.handleEvent c) c
      (s.executed c).lastExecutedInstruction
    cases hevent : ((s.executed c).stopPointManager.handleEvent c).2 with
    | false =>
      rw [newInstruction_go hevent]
      exact hnext
    | true =>
      rw [newInstruction_stop hevent]
      exact hnext.stop hstate (.inl rfl)

theorem Looping.stepLoop (hs : s.Looping) (h : stepLoop m count s = .ok (s', all)) :
    s'.Looping := by
  induction count generalizing s with
  | zero =>
    cases h
    exact hs
  | succ count ih =>
    rw [Simulation.stepLoop] at h
    split at h
    · cases h
      exact hs
    · next hgo =>
      split at h
      · cases h
      · next s₁ more h₁ => exact ih (hs.simulateCycle (Bool.eq_false_of_not_eq_true hgo) h₁) h

/-- Counting on from where the loop has counted to. -/
theorem stepLoop_add (h : stepLoop m a s = .ok (s', true)) (b : Nat) :
    stepLoop m (a + b) s = stepLoop m b s' := by
  induction a generalizing s with
  | zero =>
    cases h
    rw [Nat.zero_add]
  | succ a ih =>
    rw [stepLoop] at h
    rw [Nat.succ_add, stepLoop]
    split at h
    · cases h
    · next hgo =>
      rw [if_neg hgo]
      split at h
      · cases h
      · exact ih h

/-- A count that is not reached has been ended by a request. -/
theorem stepLoop_ended (h : stepLoop m count s = .ok (s', false)) : s'.stopRequested = true := by
  induction count generalizing s with
  | zero => cases h
  | succ count ih =>
    rw [stepLoop] at h
    split at h
    · next hstop =>
      cases h
      exact hstop
    · split at h
      · cases h
      · exact ih h

/-- A state that has stopped after its steps, as a command sees it. -/
def Counted (s : Simulation ρ) : Prop := s.state = .stopped ∧ s.stopReasons = [.afterStepping]

theorem finish_stopReasons (s : Simulation ρ) : s.finish.stopReasons = s.stopReasons := by
  rw [finish]
  split
  · rfl
  · rfl

theorem Looping.not_afterStepping (hs : s.Looping) : StopReason.afterStepping ∉ s.stopReasons := by
  intro h
  rcases hs.reasons _ h with h | h
  · cases h
  · cases h

/-- A step that only its count has ended leaves the loop where nothing has asked to stop. -/
theorem Counted.loop (hs : s.stopPointManager.Wf) (h : s.step m count = .ok s')
    (hcounted : s'.Counted) : (s.state = .stopped ∨ s.state = .initialized) ∧
      stepLoop m count s.start = .ok (s'.start, true) ∧ s'.start.Looping := by
  rw [step] at h
  split at h
  · next hstate =>
    refine ⟨hstate, ?_⟩
    obtain ⟨⟨t, all⟩, ht, rfl⟩ := Except.map_ok h
    have hloop := (looping_start hs).stepLoop ht
    obtain ⟨hstopped, hreasons⟩ := hcounted
    cases all with
    | false =>
      rw [counted, if_neg Bool.false_ne_true, finish_stopReasons] at hreasons
      exact absurd (hreasons ▸ List.mem_singleton_self _) hloop.not_afterStepping
    | true =>
      rw [counted, if_pos rfl] at hstopped hreasons ⊢
      rw [finish_stopReasons] at hreasons
      have hempty : t.stopReasons = [] := by
        rw [List.eq_nil_iff_forall_not_mem]
        intro r hr
        have hmem : r ∈ (t.prepareToStop .afterStepping).stopReasons :=
          mem_insertReason.2 (.inr hr)
        rw [hreasons, List.mem_singleton] at hmem
        exact hloop.not_afterStepping (hmem ▸ hr)
      have hrunning : t.state = .running := by
        apply hloop.state.resolve_right
        intro hfinished
        have hend : (t.prepareToStop .afterStepping).state = .finished := hfinished
        rw [finish, if_pos hend, hend] at hstopped
        cases hstopped
      have hgo : t.stopRequested = false := by
        rw [← Bool.not_eq_true, hloop.requested, hempty, hrunning]
        simp
      have heq : (t.prepareToStop .afterStepping).finish.start = t := by
        obtain ⟨c, state, requested, reasons, last, manager⟩ := t
        cases hrunning
        cases hgo
        cases hempty
        rfl
      rw [heq]
      exact ⟨ht, hloop⟩
  · cases h

/-- Stepping on after a step is a longer step. -/
theorem step_step (hs : s.stopPointManager.Wf) (h : s.step m a = .ok s') (hcounted : s'.Counted)
    (b : Nat) : s'.step m b = s.step m (a + b) := by
  obtain ⟨hstate, hloop, _⟩ := hcounted.loop hs h
  rw [step, step, if_pos (.inl hcounted.1), if_pos hstate, stepLoop_add hloop]

theorem Looping.counted (hs : s.Looping) (hgo : s.stopRequested = false) :
    (s.prepareToStop .afterStepping).finish.Counted := by
  obtain ⟨hreasons, hstate⟩ := hs.quiet hgo
  obtain ⟨c, state, requested, reasons, last, manager⟩ := s
  cases hstate
  cases hreasons
  exact ⟨rfl, rfl⟩

theorem Looping.not_counted (hs : s.Looping) (hstop : s.stopRequested = true) :
    ¬(s.prepareToStop .afterStepping).finish.Counted := by
  rintro ⟨hstopped, hreasons⟩
  rcases hs.requested.1 hstop with hne | hfinished
  · obtain ⟨r, hr⟩ := List.exists_mem_of_ne_nil _ hne
    have hmem : r ∈ (s.prepareToStop .afterStepping).finish.stopReasons := by
      rw [finish_stopReasons]
      exact mem_insertReason.2 (.inr hr)
    rw [hreasons, List.mem_singleton] at hmem
    exact hs.not_afterStepping (hmem ▸ hr)
  · have hend : (s.prepareToStop .afterStepping).state = .finished := hfinished
    rw [finish, if_pos hend, hend] at hstopped
    cases hstopped

/-- A run has gone through the steps after which nothing asked to stop, and one more. -/
theorem runLoop_ok (h : runLoop m fuel s = some (.ok s')) :
    ∃ n, stepLoop m n s = .ok (s', true) ∧ s'.stopRequested = true ∧
      ∀ k < n, ∃ t, stepLoop m k s = .ok (t, true) ∧ t.stopRequested = false := by
  have hend : s.stopRequested = true → ∃ n, stepLoop m n s = .ok (s, true) ∧
      s.stopRequested = true ∧
      ∀ k < n, ∃ t, stepLoop m k s = .ok (t, true) ∧ t.stopRequested = false :=
    fun hstop => ⟨0, rfl, hstop, fun k hk => absurd hk (Nat.not_lt_zero k)⟩
  induction fuel generalizing s with
  | zero =>
    rw [runLoop] at h
    split at h
    · next hstop =>
      cases h
      exact hend hstop
    · cases h
  | succ fuel ih =>
    rw [runLoop] at h
    split at h
    · next hstop =>
      cases h
      exact hend hstop
    · next hgo =>
      split at h
      · cases h
      · next s₁ more h₁ =>
        have hstep : ∀ n, stepLoop m (n + 1) s = stepLoop m n s₁ := by
          intro n
          rw [stepLoop, if_neg hgo, h₁]
        obtain ⟨n, hn, hstop, hbefore⟩ := ih h fun hstop =>
          ⟨0, rfl, hstop, fun k hk => absurd hk (Nat.not_lt_zero k)⟩
        refine ⟨n + 1, (hstep n).trans hn, hstop, fun k hk => ?_⟩
        cases k with
        | zero => exact ⟨s, rfl, Bool.eq_false_of_not_eq_true hgo⟩
        | succ k =>
          rw [hstep]
          exact hbefore k (Nat.lt_of_succ_lt_succ hk)

theorem runLoop_of_stepLoop (h : stepLoop m n s = .ok (s', all)) (hstop : s'.stopRequested = true) :
    runLoop m n s = some (.ok s') := by
  induction n generalizing s with
  | zero =>
    cases h
    rw [runLoop, if_pos hstop]
  | succ n ih =>
    rw [stepLoop] at h
    rw [runLoop]
    split at h
    · next hstop =>
      cases h
      rw [if_pos hstop]
    · next hgo =>
      rw [if_neg hgo]
      split at h
      · cases h
      · next s₁ more h₁ => exact ih h

theorem run_ok (h : s.run m fuel = some (.ok s')) :
    ∃ t, runLoop m fuel s.start = some (.ok t) ∧ s' = t.finish := by
  obtain ⟨r, hr, h⟩ := Option.map_eq_some_iff.1 h
  obtain ⟨t, rfl, rfl⟩ := Except.map_ok h
  exact ⟨t, hr, rfl⟩

theorem step_of_stepLoop (hstate : s.state = .stopped ∨ s.state = .initialized)
    (h : stepLoop m n s.start = .ok (s', all)) : s.step m n = .ok (s'.counted all) := by
  rw [step, if_pos hstate, h]
  rfl

/-- A run is a step of the least count that is not the only reason to stop. -/
theorem run_step (hs : s.stopPointManager.Wf) (hstate : s.state = .stopped ∨ s.state = .initialized)
    (h : s.run m fuel = some (.ok s')) : ∃ n,
      s.step m n = .ok { s' with stopReasons := insertReason .afterStepping s'.stopReasons } ∧
      ∀ k < n, ∃ t, s.step m k = .ok t ∧ t.Counted := by
  obtain ⟨t, ht, rfl⟩ := run_ok h
  obtain ⟨n, hn, hstop, hbefore⟩ := runLoop_ok ht
  refine ⟨n, ?_, fun k hk => ?_⟩
  · rw [step_of_stepLoop hstate hn, counted, if_pos rfl]
    obtain ⟨c, state, requested, reasons, last, manager⟩ := t
    cases hstop
    cases state <;> rfl
  · obtain ⟨t', ht', hgo⟩ := hbefore k hk
    refine ⟨_, step_of_stepLoop hstate ht', ?_⟩
    exact ((looping_start hs).stepLoop ht').counted hgo

/-- A run comes to an end just if some step does not end by its count alone. -/
theorem run_returns (hs : s.stopPointManager.Wf)
    (hstate : s.state = .stopped ∨ s.state = .initialized) :
    (∃ fuel s', s.run m fuel = some (.ok s')) ↔ ∃ n t, s.step m n = .ok t ∧ ¬t.Counted := by
  constructor
  · rintro ⟨fuel, s', h⟩
    obtain ⟨t, ht, rfl⟩ := run_ok h
    obtain ⟨n, hn, hstop, _⟩ := runLoop_ok ht
    exact ⟨n, _, step_of_stepLoop hstate hn,
      ((looping_start hs).stepLoop hn).not_counted hstop⟩
  · rintro ⟨n, t, h, hnot⟩
    rw [step, if_pos hstate] at h
    obtain ⟨⟨s₁, all⟩, h₁, rfl⟩ := Except.map_ok h
    have hstop : s₁.stopRequested = true := by
      by_contra hgo
      have hgo := Bool.eq_false_of_not_eq_true hgo
      cases all with
      | true => exact hnot (((looping_start hs).stepLoop h₁).counted hgo)
      | false =>
        rw [stepLoop_ended h₁] at hgo
        cases hgo
    exact ⟨n, s₁.finish, by rw [run, runLoop_of_stepLoop h₁ hstop]; rfl⟩

end Simulation

end Simulator

end OpenAsip
