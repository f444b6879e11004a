import OpenAsip.BreakpointRuns
import OpenAsip.SimulationCycles

namespace OpenAsip
set_option autoImplicit true

namespace Simulator

namespace MachineState

theorem finished_transport (m : Machine ρ) (s : MachineState ρ) (t : Transport) :
    (s.transport m t).finished = s.finished := by
  cases t with
  | functionUnit unit write =>
    rw [transport]
    split
    · rfl
    · rfl
  | controlUnit write => rfl
  | returnAddress value => rfl

theorem finished_execute (m : Machine ρ) (s : MachineState ρ)
    (instruction : ExecutableInstruction ρ) : (s.execute m instruction).finished = s.finished := by
  rw [execute]
  have hfold : ∀ (transports : List Transport) (s : MachineState ρ),
      (transports.foldl (transport m) s).finished = s.finished := by
    intro transports
    induction transports with
    | nil => exact fun s => rfl
    | cons t transports ih =>
      intro s
      rw [List.foldl_cons, ih, finished_transport]
  exact hfold _ _

theorem finished_endClock (m : Machine ρ) (s : MachineState ρ) :
    (s.endClock m).1.finished = s.finished := by
  rw [endClock]
  dsimp only
  split
  · rfl
  · rfl

theorem finished_advanceClock {m : Machine ρ} {s s' : MachineState ρ}
    (h : s.advanceClock m exit = (s', some fault)) : s'.finished = s.finished := by
  rw [advanceClock] at h
  dsimp only at h
  split at h
  · cases h
    rfl
  · cases h

end MachineState

namespace SimulationController

/-- A cycle that meets a runtime error does not finish the machine. -/
theorem finished_of_failed {m : Machine ρ} {c c' : SimulationController ρ}
    (h : c.simulateCycle m = .ok (c', true)) : c'.machineState.finished = false := by
  rw [simulateCycle] at h
  split at h
  · cases h
  · next hgoing =>
    have hgoing := Bool.eq_false_of_not_eq_true hgoing
    split at h
    · cases h
    · next instruction _ =>
      have hend := (c.machineState.execute m instruction).finished_endClock m
      rw [MachineState.finished_execute, hgoing] at hend
      split at h
      · next s fault heq =>
        rw [(stop_ok h).2, ← hend, heq]
      · next s heq =>
        rw [heq] at hend
        split at h
        · next s' fault hadv =>
          rw [(stop_ok h).2, MachineState.finished_advanceClock hadv]
          exact hend
        · cases h

end SimulationController

namespace Simulation
variable {ρ : Type u} {m : Machine ρ} {s s' : Simulation ρ}

/-- What a cycle leaves, also when its command goes on. -/
structure Settled (s : Simulation ρ) : Prop where
  finished : s.controller.machineState.finished = true ↔ s.state = .finished
  stopCycle : .breakpoint ∈ s.stopReasons →
    s.stopPointManager.lastStopCycle = s.controller.clockCount

end Simulation

namespace StopPointManager

theorem lastStopCycle_foldl_erase (handles : List Nat) (s : StopPointManager ρ) :
    (handles.foldl erase s).lastStopCycle = s.lastStopCycle := by
  induction handles generalizing s with
  | nil => rfl
  | cons h handles ih => exact ih _

theorem lastStopCycle_handleEvent {c : SimulationController ρ} {s : StopPointManager ρ}
    (h : (s.handleEvent c).2 = true) : (s.handleEvent c).1.lastStopCycle = c.clockCount := by
  rw [handleEvent] at h ⊢
  dsimp only at h ⊢
  rw [lastStopCycle_foldl_erase]
  rw [Bool.not_eq_true'] at h
  exact if_neg (Bool.eq_false_iff.1 h)

end StopPointManager

namespace Simulation
variable {ρ : Type u} {m : Machine ρ} {s s' : Simulation ρ}

theorem Looping.settled (hs : s.Looping) (hgo : s.stopRequested = false)
    (h : s.simulateCycle m = .ok (s', more)) : s'.Settled := by
  obtain ⟨hreasons, hstate⟩ := hs.quiet hgo
  rcases simulateCycle_cases h with ⟨c, hc, _, rfl⟩ | ⟨c, _, hfinished, _, rfl⟩ |
    ⟨c, _, hgoing, _, rfl⟩
  · constructor
    · have hfailed := SimulationController.finished_of_failed hc
      apply iff_of_false (Bool.eq_false_iff.1 hfailed)
      intro h
      rw [prepareToStop, hstate] at h
      cases h
    · intro hmem
      rcases mem_insertReason.1 hmem with h | h
      · cases h
      · rw [hreasons] at h
        exact absurd h List.not_mem_nil
  · constructor
    · exact iff_of_true hfinished rfl
    · intro hmem
      change _ ∈ s.stopReasons at hmem
      rw [hreasons] at hmem
      exact absurd hmem List.not_mem_nil
  · have hfinished : (s.executed c).controller.machineState.finished = true ↔
        (s.executed c).state = .finished := by
      apply iff_of_false (Bool.eq_false_iff.1 hgoing)
      intro h
      rw [executed, hstate] at h
      cases h
    cases hevent : ((s.executed c).stopPointManager.handleEvent c).2 with
    | false =>
      rw [newInstruction_go hevent]
      refine ⟨hfinished, fun hmem => ?_⟩
      change _ ∈ s.stopReasons at hmem
      rw [hreasons] at hmem
      exact absurd hmem List.not_mem_nil
    | true =>
      rw [newInstruction_stop hevent]
      exact ⟨hfinished, fun _ => StopPointManager.lastStopCycle_handleEvent hevent⟩

/-- A command before its end. -/
structure Ending (s : Simulation ρ) : Prop where
  state : s.state = .running ∨ s.state = .finished
  requested : s.stopRequested = true ↔ s.stopReasons ≠ [] ∨ s.state = .finished
  settled : s.Settled
  stopPoints : s.stopPointManager.Wf

theorem Looping.ending (hs : s.Looping) (hsettled : s.Settled) : s.Ending :=
  ⟨hs.state, hs.requested, hsettled, hs.stopPoints⟩

theorem Ending.prepareToStop (hs : s.Ending) {reason : StopReason}
    (hreason : reason ≠ .breakpoint) : (s.prepareToStop reason).Ending where
  state := hs.state
  requested := ⟨fun _ => .inl insertReason_ne_nil, fun _ => rfl⟩
  settled := by
    refine ⟨hs.settled.finished, fun hmem => ?_⟩
    exact hs.settled.stopCycle ((mem_insertReason.1 hmem).resolve_left hreason.symm)
  stopPoints := hs.stopPoints

/-- What holds of the simulation between two commands. -/
structure Waiting (s : Simulation ρ) : Prop where
  state : s.state = .initialized ∨ s.state = .stopped ∨ s.state = .finished
  reasons : s.state = .stopped → s.stopReasons ≠ []
  requested : s.stopRequested = true ↔ s.state ≠ .initialized
  finished : s.controller.machineState.finished = true ↔ s.state = .finished
  stopCycle : s.state ≠ .initialized → .breakpoint ∈ s.stopReasons →
    s.stopPointManager.lastStopCycle = s.controller.clockCount
  clockCount : s.state = .initialized → s.controller.clockCount = 0
  stopPoints : s.stopPointManager.Wf

theorem Ending.finish (hs : s.Ending) (hstop : s.stopRequested = true) : s.finish.Waiting := by
  obtain ⟨hfinished, hcycle⟩ := hs.settled
  rcases hs.state with hstate | hstate
  · have heq : s.finish = { s with state := .stopped } := by
      rw [Simulation.finish, if_neg]
      rw [hstate]
      exact fun h => SimulationStatus.noConfusion h
    rw [heq]
    exact
      { state := .inr (.inl rfl)
        reasons := fun _ => by
          apply (hs.requested.1 hstop).resolve_right
          rw [hstate]
          exact fun h => SimulationStatus.noConfusion h
        requested := iff_of_true hstop fun h => SimulationStatus.noConfusion h
        finished := by
          rw [hfinished, hstate]
          exact iff_of_false (fun h => SimulationStatus.noConfusion h)
            fun h => SimulationStatus.noConfusion h
        stopCycle := fun _ => hcycle
        clockCount := fun h => SimulationStatus.noConfusion h
        stopPoints := hs.stopPoints }
  · have heq : s.finish = s := if_pos hstate
    have hne : ∀ status, status ≠ SimulationStatus.finished → s.state ≠ status :=
      fun status h h' => h (h'.symm.trans hstate)
    rw [heq]
    exact
      { state := .inr (.inr hstate)
        reasons := fun h => absurd h (hne _ (by decide))
        requested := iff_of_true hstop (hne _ (by decide))
        finished := hfinished
        stopCycle := fun _ => hcycle
        clockCount := fun h => absurd h (hne _ (by decide))
        stopPoints := hs.stopPoints }

theorem Waiting.start_settled (hs : s.Waiting) (hstate : s.state ≠ .finished) :
    s.start.Settled where
  finished := by
    apply iff_of_false (fun h => hstate (hs.finished.1 h))
    exact fun h => SimulationStatus.noConfusion h
  stopCycle h := absurd h List.not_mem_nil

theorem stepLoop_settled (hs : s.Looping) (hsettled : s.Settled)
    (h : stepLoop m n s = .ok (s', all)) : s'.Settled := by
  induction n generalizing s with
  | zero =>
    cases h
    exact hsettled
  | succ n ih =>
    rw [stepLoop] at h
    split at h
    · cases h
      exact hsettled
    · next hgo =>
      have hgo := Bool.eq_false_of_not_eq_true hgo
      split at h
      · cases h
      · next s₁ more h₁ => exact ih (hs.simulateCycle hgo h₁) (hs.settled hgo h₁) h

theorem stepLoop_succ_settled (hs : s.Looping) (hgo : s.stopRequested = false)
    (h : stepLoop m (n + 1) s = .ok (s', all)) : s'.Settled := by
  rw [stepLoop, if_neg (Bool.eq_false_iff.1 hgo)] at h
  split at h
  · cases h
  · next s₁ more h₁ => exact stepLoop_settled (hs.simulateCycle hgo h₁) (hs.settled hgo h₁) h

theorem Ending.counted (hs : s.Ending) (hstop : all = false → s.stopRequested = true) :
    (s.counted all).Waiting := by
  cases all with
  | false => exact hs.finish (hstop rfl)
  | true => exact (hs.prepareToStop (by decide)).finish rfl

theorem Waiting.step (hs : s.Waiting) (h : s.step m n = .ok s') : s'.Waiting := by
  rw [Simulation.step] at h
  split at h
  · next hstate =>
    have hne : s.state ≠ .finished := by
      intro hfinished
      rw [hfinished] at hstate
      rcases hstate with h | h
      · cases h
      · cases h
    obtain ⟨⟨t, all⟩, ht, rfl⟩ := Except.map_ok h
    have hloop := looping_start hs.stopPoints
    have hending := (hloop.stepLoop ht).ending
      (stepLoop_settled hloop (hs.start_settled hne) ht)
    apply hending.counted
    intro hall
    dsimp only at hall
    rw [hall] at ht
    exact stepLoop_ended ht
  · cases h

theorem Waiting.run (hs : s.Waiting) (h : s.run m fuel = some (.ok s')) : s'.Waiting := by
  obtain ⟨t, ht, rfl⟩ := run_ok h
  obtain ⟨n, hn, hstop, _⟩ := runLoop_ok ht
  have hloop := looping_start hs.stopPoints
  cases n with
  | zero =>
    cases hn
    cases hstop
  | succ n => exact ((hloop.stepLoop hn).ending (stepLoop_succ_settled hloop rfl hn)).finish hstop

theorem runUntilLoop_waiting (hs : s.Looping) (hsettled : s.stopRequested = true → s.Settled)
    (h : runUntilLoop m address fuel s = some (.ok s')) : s'.Waiting := by
  induction fuel generalizing s with
  | zero =>
    rw [runUntilLoop] at h
    split at h
    · next hstop =>
      cases h
      exact (hs.ending (hsettled hstop)).finish hstop
    · cases h
  | succ fuel ih =>
    rw [runUntilLoop] at h
    split at h
    · next hstop =>
      cases h
      exact (hs.ending (hsettled hstop)).finish hstop
    · next hgo =>
      have hgo := Bool.eq_false_of_not_eq_true hgo
      split at h
      · cases h
      · next s₁ more h₁ =>
        have hnext := hs.simulateCycle hgo h₁
        have hending := hnext.ending (hs.settled hgo h₁)
        split at h
        · next hfinished =>
          cases h
          have hwaiting := hending.finish (hending.requested.2 (.inr hfinished))
          rw [finish, if_pos hfinished] at hwaiting
          exact hwaiting
        · next hgoing =>
          split at h
          · cases h
            have hreason : StopReason.afterUntil ≠ .breakpoint := by decide
            have hwaiting := (hending.prepareToStop hreason).finish rfl
            have hne : (s₁.prepareToStop .afterUntil).state ≠ .finished := hgoing
            rw [finish, if_neg hne] at hwaiting
            exact hwaiting
          · exact ih hnext (fun _ => hs.settled hgo h₁) h

theorem Waiting.runUntil (hs : s.Waiting) (h : s.runUntil m address fuel = some (.ok s')) :
    s'.Waiting :=
  runUntilLoop_waiting (looping_start hs.stopPoints) (fun h => Bool.noConfusion h) h

variable {π : Type v} [DecidableEq π] {procedureAt : Nat → Outcome π} {started : π}

/-- A round of `next` ends outside the procedure just if it is told to stop there. -/
theorem nextRound_ending (hs : s.Looping) (hgo : s.stopRequested = false)
    (h : nextRound m procedureAt started fuel s called = some (.ok (s', called'))) :
    s'.Ending ∧ (s'.stopRequested = false → s'.Looping) ∧
      (called' = true → s'.stopRequested = true) := by
  induction fuel generalizing s called with
  | zero => cases h
  | succ fuel ih =>
    rw [nextRound] at h
    split at h
    · cases h
    · next s₁ h₁ =>
      cases h
      have hending := (hs.simulateCycle hgo h₁).ending (hs.settled hgo h₁)
      exact ⟨hending.prepareToStop (by decide), fun h => Bool.noConfusion h, fun _ => rfl⟩
    · next s₁ h₁ =>
      have hnext := hs.simulateCycle hgo h₁
      split at h
      · cases h
      · next current _ =>
        split at h
        · next hmore =>
          have hgo₁ := (Bool.and_eq_true_iff.1 hmore).2
          rw [Bool.not_eq_true'] at hgo₁
          exact ih hnext hgo₁ h
        · next hend =>
          cases h
          refine ⟨hnext.ending (hs.settled hgo h₁), fun _ => hnext, fun hcurrent => ?_⟩
          by_contra hgo₁
          apply hend
          rw [hcurrent, Bool.eq_false_of_not_eq_true hgo₁]
          rfl

theorem nextLoop_ending (hs : s.Ending) (hloop : s.stopRequested = false → s.Looping)
    (hcalled : called = true → s.stopRequested = true)
    (h : nextLoop m procedureAt started fuel n s called = some (.ok (s', called', all))) :
    s'.Ending ∧ (called' = true → s'.stopRequested = true) ∧
      (all = false → s'.stopRequested = true) := by
  induction n generalizing s called with
  | zero =>
    cases h
    exact ⟨hs, hcalled, fun h => Bool.noConfusion h⟩
  | succ n ih =>
    rw [nextLoop] at h
    split at h
    · next hstop =>
      cases h
      exact ⟨hs, hcalled, fun _ => hstop⟩
    · next hgo =>
      have hgo := Bool.eq_false_of_not_eq_true hgo
      split at h
      · cases h
      · cases h
      · next s₁ called₁ h₁ =>
        obtain ⟨hending, hloop₁, hcalled₁⟩ := nextRound_ending (hloop hgo) hgo h₁
        exact ih hending hloop₁ hcalled₁ h

theorem Waiting.next (hs : s.Waiting)
    (h : s.next m procedureAt (n + 1) fuel = some (.ok s')) : s'.Waiting := by
  rw [Simulation.next] at h
  split at h
  · cases h
  · next started _ =>
    split at h
    · cases h
    · cases h
    · next t called all ht =>
      cases h
      rw [nextLoop, if_neg (by exact Bool.false_ne_true)] at ht
      split at ht
      · cases ht
      · cases ht
      · next s₁ called₁ h₁ =>
        obtain ⟨hending, hloop, hcalled⟩ := nextRound_ending (looping_start hs.stopPoints) rfl h₁
        obtain ⟨hending', hcalled', hall⟩ := nextLoop_ending hending hloop hcalled ht
        apply hending'.counted
        intro hfalse
        rcases Bool.and_eq_false_iff.1 hfalse with h | h
        · exact hall h
        · rw [Bool.not_eq_false'] at h
          exact hcalled' h

theorem new_waiting (m : Machine ρ) (others : ρ) : (new m others).Waiting where
  state := .inl rfl
  reasons h := SimulationStatus.noConfusion h
  requested := iff_of_false Bool.false_ne_true fun h => h rfl
  finished := iff_of_false Bool.false_ne_true fun h => SimulationStatus.noConfusion h
  stopCycle h := absurd rfl h
  clockCount _ := rfl
  stopPoints := StopPointManager.new_wf

theorem Waiting.reset (hs : s.Waiting) (m : Machine ρ) : (s.reset m).Waiting where
  state := .inl rfl
  reasons h := SimulationStatus.noConfusion h
  requested := iff_of_false Bool.false_ne_true fun h => h rfl
  finished := iff_of_false Bool.false_ne_true fun h => SimulationStatus.noConfusion h
  stopCycle h := absurd rfl h
  clockCount _ := rfl
  stopPoints := hs.stopPoints

/-- The commands that handle the stop points keep the cycle of the last stop. -/
theorem Waiting.change (hs : s.Waiting) {manager : StopPointManager ρ} (hmanager : manager.Wf)
    (hcycle : manager.lastStopCycle = s.stopPointManager.lastStopCycle) :
    ({ s with stopPointManager := manager } : Simulation ρ).Waiting where
  state := hs.state
  reasons := hs.reasons
  requested := hs.requested
  finished := hs.finished
  stopCycle hne hmem := hcycle.trans (hs.stopCycle hne hmem)
  clockCount := hs.clockCount
  stopPoints := hmanager

end Simulation

namespace Simulation
variable {π : Type v} [DecidableEq π] {ρ : Type u} {m : Machine ρ} {procedureAt : Nat → Outcome π}

/-- The simulations that a user gets to by commands, where `next` is given a positive count. -/
inductive Session (m : Machine ρ) (procedureAt : Nat → Outcome π) : Simulation ρ → Prop where
  | new (others : ρ) : Session m procedureAt (new m others)
  | reset (hs : Session m procedureAt s) : Session m procedureAt (s.reset m)
  | step (hs : Session m procedureAt s) (h : s.step m n = .ok s') : Session m procedureAt s'
  | next (hs : Session m procedureAt s)
      (h : s.next m procedureAt (n + 1) fuel = some (.ok s')) : Session m procedureAt s'
  | run (hs : Session m procedureAt s) (h : s.run m fuel = some (.ok s')) : Session m procedureAt s'
  | runUntil (hs : Session m procedureAt s) (h : s.runUntil m address fuel = some (.ok s')) :
      Session m procedureAt s'
  | add (hs : Session m procedureAt s) (p : StopPoint ρ) :
      Session m procedureAt { s with stopPointManager := s.stopPointManager.add p }
  | deleteStopPoint (hs : Session m procedureAt s)
      (h : s.stopPointManager.deleteStopPoint handle = some manager) :
      Session m procedureAt { s with stopPointManager := manager }
  | update (hs : Session m procedureAt s) (f : StopPoint ρ → StopPoint ρ)
      (h : s.stopPointManager.update handle f = some manager) :
      Session m procedureAt { s with stopPointManager := manager }

theorem Session.waiting (h : Session m procedureAt s) : s.Waiting := by
  induction h with
  | new others => exact new_waiting m others
  | reset _ ih => exact ih.reset m
  | step _ h ih => exact ih.step h
  | next _ h ih => exact ih.next h
  | run _ h ih => exact ih.run h
  | runUntil _ h ih => exact ih.runUntil h
  | add _ p ih => exact ih.change (ih.stopPoints.add p) rfl
  | deleteStopPoint _ h ih =>
    apply ih.change (ih.stopPoints.deleteStopPoint h)
    obtain ⟨p, _, rfl⟩ := Option.map_eq_some_iff.1 h
    rfl
  | update _ f h ih =>
    apply ih.change (ih.stopPoints.update h)
    obtain ⟨p, _, rfl⟩ := Option.map_eq_some_iff.1 h
    rfl

end Simulation

namespace Simulation
variable {π : Type v} [DecidableEq π] {ρ : Type u} {m : Machine ρ} {procedureAt : Nat → Outcome π}
  {s s' : Simulation ρ}

/-- Four instructions that do nothing. -/
def idleProgram : Machine Unit where
  units := []
  controlUnit := ⟨[], fun _ => 0, fun _ => 0, 0⟩
  entryAddress := 0
  firstIllegalInstructionIndex := 4
  instructionAt := fun _ => some ⟨fun _ => ([], ()), false⟩
  advanceOthers := fun _ => ()

def oneProcedure (_ : Nat) : Outcome Unit := .ok ()

theorem idle_session : Session idleProgram oneProcedure (new idleProgram ()) := .new ()

/-- What holds between the commands of a session. -/
theorem session_invariant (hs : Session m procedureAt s) :
    (s.state = .initialized ∨ s.state = .stopped ∨ s.state = .finished) ∧
      (s.state = .stopped → s.stopReasons ≠ []) ∧
      (s.stopRequested = true ↔ s.state ≠ .initialized) ∧
      (s.controller.machineState.finished = true ↔ s.state = .finished) ∧
      (s.state = .initialized → s.controller.clockCount = 0) ∧
      (s.state ≠ .initialized → .breakpoint ∈ s.stopReasons →
        s.stopPointManager.lastStopCycle = s.controller.clockCount) ∧
      s.stopPointManager.handles = s.stopPointManager.stopPoints.map Prod.fst ∧
      s.stopPointManager.handles.Nodup := by
  have hw := hs.waiting
  refine ⟨hw.state, hw.reasons, hw.requested, hw.finished, hw.clockCount, hw.stopCycle,
    hw.stopPoints.handles, ?_⟩
  rw [hw.stopPoints.handles]
  exact hw.stopPoints.sorted.imp fun h => Nat.ne_of_lt h

theorem session_invariant_idle : ∃ s, (new idleProgram ()).step idleProgram 2 = .ok s ∧
    (s.state = .stopped → s.stopReasons ≠ []) :=
  ⟨_, rfl, (session_invariant (idle_session.step (n := 2) rfl)).2.1⟩

theorem Session.ready (hs : Session m procedureAt s) (hstate : s.state ≠ .finished) :
    s.state = .stopped ∨ s.state = .initialized := by
  rcases hs.waiting.state with h | h | h
  · exact .inr h
  · exact .inl h
  · exact absurd h hstate

/-- Two steps in a row are one step, when nothing but its count has ended the first one. -/
theorem step_add (hs : Session m procedureAt s) (h : s.step m a = .ok s') (hcounted : s'.Counted)
    (b : Nat) : s'.step m b = s.step m (a + b) :=
  step_step hs.waiting.stopPoints h hcounted b

theorem step_add_idle : ∃ s, (new idleProgram ()).step idleProgram 1 = .ok s ∧
    s.step idleProgram 2 = (new idleProgram ()).step idleProgram (1 + 2) :=
  ⟨_, rfl, step_add idle_session rfl ⟨rfl, rfl⟩ 2⟩

/-- A run comes to an end just if some step is not ended by its count alone, and then it is the
least such step. -/
theorem run_least_step (hs : Session m procedureAt s) (hstate : s.state ≠ .finished) :
    ((∃ fuel s', s.run m fuel = some (.ok s')) ↔ ∃ n t, s.step m n = .ok t ∧ ¬t.Counted) ∧
      ∀ fuel s', s.run m fuel = some (.ok s') → ∃ n,
        s.step m n = .ok { s' with stopReasons := insertReason .afterStepping s'.stopReasons } ∧
        ∀ k < n, ∃ t, s.step m k = .ok t ∧ t.Counted :=
  ⟨run_returns hs.waiting.stopPoints (hs.ready hstate),
    fun _ _ h => run_step hs.waiting.stopPoints (hs.ready hstate) h⟩

theorem run_least_step_idle : ∃ s, (new idleProgram ()).run idleProgram 4 = some (.ok s) ∧
    ∃ n, (new idleProgram ()).step idleProgram n =
        .ok { s with stopReasons := insertReason .afterStepping s.stopReasons } ∧
      ∀ k < n, ∃ t, (new idleProgram ()).step idleProgram k = .ok t ∧ t.Counted :=
  ⟨_, rfl, (run_least_step idle_session
    fun h => SimulationStatus.noConfusion h).2 4 _ rfl⟩

/-- Running until an address is running with a temporary breakpoint there, but for the reason of
the stop, which is given just if the address has been reached. -/
theorem runUntil_tbp (hs : Session m procedureAt s) (address fuel : Nat) :
    (s.runUntil m address fuel).map
        (Except.map (observed (s.stopPointManager.handleCount + 1))) =
      ((s.tbp address).run m fuel).map
        (Except.map (observed (s.stopPointManager.handleCount + 1))) ∧
    ∀ s', s.runUntil m address fuel = some (.ok s') →
      (.afterUntil ∈ s'.stopReasons ↔ s'.state ≠ .finished ∧ s'.programCounter = address) := by
  have hwf := hs.waiting.stopPoints
  constructor
  · exact runUntilLoop_beside (s := s.start) (fun h => SimulationStatus.noConfusion h)
      (Accompanied.add hwf address) [] fuel
  · exact fun s' h => runUntilLoop_afterUntil (looping_start hwf) rfl
      (fun h => Bool.noConfusion h) h

theorem runUntil_tbp_idle : ∃ s, (new idleProgram ()).runUntil idleProgram 2 4 = some (.ok s) ∧
    (.afterUntil ∈ s.stopReasons ↔ s.state ≠ .finished ∧ s.programCounter = 2) :=
  ⟨_, rfl, (runUntil_tbp (m := idleProgram) idle_session 2 4).2 _ rfl⟩

/-- An enabled breakpoint lets a command go through it as often as its ignore count says, which
goes down by that, and once more only to stop. -/
theorem breakpoint_visits (hs : Session m procedureAt s) {p : StopPoint ρ}
    (hp : (handle, p) ∈ s.stopPointManager.stopPoints) (henabled : p.enabled = true)
    (h : s.step m n = .ok s' ∨ s.run m n = some (.ok s')) :
    ((events m n s.start).countP p.hits ≤ p.ignoreCount ∧
      (handle, { p with
        ignoreCount := p.ignoreCount - (events m n s.start).countP p.hits }) ∈
          s'.stopPointManager.stopPoints) ∨
    ((events m n s.start).countP p.hits = p.ignoreCount + 1 ∧ .breakpoint ∈ s'.stopReasons ∧
      p.hits s'.controller = true) := by
  have hwf := hs.waiting.stopPoints
  obtain ⟨t, all, ht, hmanager, hcontroller, hreasons⟩ : ∃ t all,
      stepLoop m n s.start = .ok (t, all) ∧ s'.stopPointManager = t.stopPointManager ∧
      s'.controller = t.controller ∧ ∀ r ∈ t.stopReasons, r ∈ s'.stopReasons := by
    have hfinish : ∀ t : Simulation ρ, t.finish.stopPointManager = t.stopPointManager ∧
        t.finish.controller = t.controller := by
      intro t
      rw [finish]
      split
      · exact ⟨rfl, rfl⟩
      · exact ⟨rfl, rfl⟩
    rcases h with h | h
    · rw [step] at h
      split at h
      · obtain ⟨⟨t, all⟩, ht, rfl⟩ := Except.map_ok h
        refine ⟨t, all, ht, ?_⟩
        cases all with
        | false =>
          refine ⟨(hfinish t).1, (hfinish t).2, fun r hr => ?_⟩
          rw [counted, if_neg Bool.false_ne_true, finish_stopReasons]
          exact hr
        | true =>
          refine ⟨(hfinish _).1, (hfinish _).2, fun r hr => ?_⟩
          rw [counted, if_pos rfl, finish_stopReasons]
          exact mem_insertReason.2 (.inr hr)
      · cases h
    · obtain ⟨t, ht, rfl⟩ := run_ok h
      obtain ⟨all, ht⟩ := stepLoop_of_runLoop ht
      refine ⟨t, all, ht, (hfinish t).1, (hfinish t).2, fun r hr => ?_⟩
      rw [finish_stopReasons]
      exact hr
  rw [hmanager, hcontroller]
  exact (stepLoop_visits (s := s.start) hwf hp henabled ht).imp id
    fun h => ⟨h.1, hreasons _ h.2.1, h.2.2⟩

/-- A breakpoint that stops the second time at an address. -/
def ignoredOnce : StopPoint Unit := ⟨2, true, false, false, none, 1⟩

def ignoring : Simulation Unit :=
  { new idleProgram () with stopPointManager := StopPointManager.new.add ignoredOnce }

theorem breakpoint_visits_idle : ∃ s, ignoring.run idleProgram 4 = some (.ok s) ∧
    (((events idleProgram 4 ignoring.start).countP ignoredOnce.hits ≤ 1 ∧
      (1, { ignoredOnce with
        ignoreCount := 1 - (events idleProgram 4 ignoring.start).countP ignoredOnce.hits }) ∈
          s.stopPointManager.stopPoints) ∨
    ((events idleProgram 4 ignoring.start).countP ignoredOnce.hits = 1 + 1 ∧
      .breakpoint ∈ s.stopReasons ∧ ignoredOnce.hits s.controller = true)) :=
  ⟨_, rfl, breakpoint_visits (m := idleProgram) (idle_session.add ignoredOnce)
    (List.mem_singleton_self (1, ignoredOnce)) rfl (.inr rfl)⟩

end Simulation

end Simulator

end OpenAsip
