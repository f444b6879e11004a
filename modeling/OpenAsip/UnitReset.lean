import OpenAsip.FUTiming

namespace OpenAsip
set_option autoImplicit true

namespace Simulator

namespace Executor

/-- No operation is in the pipeline. -/
def Empty : Executor → Prop
  | .oneCycle _ => True
  | .simple e => e.pendingOperations = 0
  | .multiLatency e => ∀ x ∈ e.executingOps, x.free = true

theorem reset_spec (width : Nat → Nat) {e : Executor} (hok : e.Ok op) (hempty : e.Empty) :
    e.reset.Ok op ∧ e.reset.Ready ∧ (∀ n port value, ¬ e.reset.InFlight width op n port value) ∧
      (e.reset.live = true → e.live = true) ∧ (e.Started → e.reset.Started) := by
  cases e with
  | oneCycle pending => exact ⟨hok, trivial, fun _ _ _ => id, id, id⟩
  | simple e =>
    refine ⟨hok, ?_, ?_, id, id⟩
    · have hcount : e.buffer.countP Option.isSome = 0 := hok.2.pending_eq.symm.trans hempty
      have hlt : e.nextSlot < e.buffer.length := by
        rw [hok.2.length_eq]
        exact hok.2.nextSlot_lt
      change e.buffer[e.nextSlot]? = some none
      rw [List.getElem?_eq_getElem hlt]
      have hnone := List.countP_eq_zero.1 hcount _ (List.getElem_mem hlt)
      rw [Option.not_isSome_iff_eq_none.1 hnone]
    · intro n port value hf
      exact Nat.lt_irrefl 0 (hempty ▸ SimpleOperationExecutor.InFlight.pending hf hok.2)
  | multiLatency e =>
    have hnot {x : ExecutingOperation} (hx : x ∈ e.executingOps) (hfree : x.free = false) :
        False := by
      rw [hempty x hx] at hfree
      cases hfree
    refine ⟨⟨hok.1, ?_⟩, ?_, ?_, ?_, id⟩
    · obtain ⟨hlen, hbound, hfresh, htimed, hstages, hfreeOp, -⟩ := hok.2
      exact ⟨hlen, hbound, hfresh, htimed, hstages, hfreeOp, fun x hx h => (hnot hx h).elim⟩
    · exact fun x hx h => (hnot hx h).elim
    · rintro n port value ⟨x, hx, h, -⟩
      exact hnot hx h
    · intro h
      cases h

end Executor

namespace FUState

/-- Nothing of the unit is left to do: no operation is triggered or in a pipeline. -/
structure Quiet (s : FUState) : Prop where
  trigger_eq : s.trigger = false
  empty : ∀ e ∈ s.executors, e.Empty

/-- A unit that is reset when it is quiet is as good as a new one. -/
theorem Steady.reset {u : FunctionUnit} {s : FUState} (h : Steady u s) (hq : s.Quiet) :
    Rested u s.reset ∧ ∀ n port value,
      ¬ Simulator.InFlight u.outputWidth u.operations s.reset.executors n port value := by
  have hget {i : Nat} {e' : Executor} (he' : s.reset.executors[i]? = some e') :
      ∃ e, s.executors[i]? = some e ∧ e' = e.reset := by
    change (s.executors.map Executor.reset)[i]? = some e' at he'
    rw [List.getElem?_map] at he'
    obtain ⟨e, he, rfl⟩ := Option.map_eq_some_iff.1 he'
    exact ⟨e, he, rfl⟩
  have hspec {i : Nat} {op : HWOperation} {e : Executor} (hop : u.operations[i]? = some op)
      (he : s.executors[i]? = some e) :=
    Executor.reset_spec u.outputWidth (h.executors.ok i op e hop he)
      (hq.empty e (List.mem_of_getElem? he))
  have hop {i : Nat} {e : Executor} (he : s.executors[i]? = some e) :
      ∃ op, u.operations[i]? = some op := by
    have hlt := (List.getElem?_eq_some_iff.1 he).1
    rw [h.executors.length_eq] at hlt
    exact ⟨_, List.getElem?_eq_getElem hlt⟩
  have hready (e' : Executor) (he' : e' ∈ s.reset.executors) : e'.Ready := by
    obtain ⟨i, hi⟩ := List.mem_iff_getElem?.1 he'
    obtain ⟨e, he, rfl⟩ := hget hi
    obtain ⟨op, hop⟩ := hop he
    exact (hspec hop he).2.1
  refine ⟨⟨⟨⟨?_, ?_, fun e he _ => hready e he⟩, ?_, h.next_eq, ?_, h.idle_eq, hq.trigger_eq⟩,
    hready⟩, ?_⟩
  · exact (List.length_map _).trans h.executors.length_eq
  · intro i op e' hop he'
    obtain ⟨e, he, rfl⟩ := hget he'
    exact (hspec hop he).1
  · have hle : (s.executors.map Executor.reset).countP Executor.live ≤
        s.executors.countP Executor.live := by
      rw [List.countP_map]
      apply List.countP_mono_left
      intro e he hlive
      obtain ⟨i, hi⟩ := List.mem_iff_getElem?.1 he
      obtain ⟨op, hop⟩ := hop hi
      exact (hspec hop hi).2.2.2.1 hlive
    exact Nat.le_trans hle h.live_le
  · intro i e' hi he'
    obtain ⟨e, he, rfl⟩ := hget he'
    obtain ⟨op, hop⟩ := hop he
    exact (hspec hop he).2.2.2.2 (h.next_started i e hi he)
  · rintro n port value ⟨i, op, e', hop, he', hf⟩
    obtain ⟨e, he, rfl⟩ := hget he'
    exact (hspec hop he).2.2.1 n port value hf

/-- Writes that trigger nothing leave the unit as it is for the rest of the cycle. -/
theorem Written.steady {u : FunctionUnit} {s s₁ : FUState} (h : Steady u s)
    (hw : Written u s writes s₁) (htrigger : s₁.trigger = false) : Steady u s₁ := by
  have hany : writes.any PortWrite.triggers = false := by
    rw [hw.trigger_eq, h.trigger_eq, Bool.false_or] at htrigger
    exact htrigger
  constructor
  · rw [hw.executors_eq]
    exact h.executors
  · rw [hw.executors_eq, hw.activeExecutors_eq]
    exact h.live_le
  · exact hw.next_eq h.next_eq
  · rw [hw.executors_eq, hw.nextExecutor_eq hany]
    exact h.next_started
  · intro hidle
    rw [hw.activeExecutors_eq]
    apply h.idle_eq
    rw [hw.idle_eq] at hidle
    exact (Bool.and_eq_true_iff.1 hidle).1
  · exact htrigger

/-- A trigger that goes through is one of an operation of the unit. -/
theorem Written.triggered_of_endClock {u : FunctionUnit} {s s₁ s₂ : FUState}
    (hw : Written u s writes s₁) (hend : s₁.endClockOf u = .ok s₂)
    (hany : writes.any PortWrite.triggers = true) :
    ∃ x, triggered u (s.inputPorts, s.nextOperation) writes = some x := by
  have hidle : s₁.idle = false := by
    rw [hw.idle_eq, hany]
    exact Bool.and_false s.idle
  have htrigger : s₁.trigger = true := by
    rw [hw.trigger_eq, hany]
    exact Bool.or_true s.trigger
  have hneg : ¬ s₁.idle = true := by
    rw [hidle]
    exact Bool.false_ne_true
  rw [endClockOf, if_neg hneg, endClock, if_pos htrigger] at hend
  rw [triggered, if_pos hany, ← hw.issued]
  cases hop : s₁.nextOperation with
  | none =>
    rw [hop] at hend
    cases hend
  | some i =>
    rw [hop] at hend
    dsimp only at hend ⊢
    cases hget : u.operations[i]? with
    | none =>
      rw [hget] at hend
      cases hend
    | some op =>
      rw [Option.bind_some, hget]
      exact ⟨_, rfl⟩

/-- After a cycle with no such condition on its triggers: the unit has ended its clock or not. -/
theorem Rested.endClock {u : FunctionUnit} {s s₁ s₂ : FUState} (h : Rested u s)
    (hw : Written u s writes s₁) (hend : s₁.endClockOf u = .ok s₂) : Steady u s₂ := by
  obtain ⟨s₂', -, hend', hsteady, -⟩ := endClock_spec h hw (hw.triggered_of_endClock hend)
  rw [hend] at hend'
  cases hend'
  exact hsteady

/-- The operation that was set does not matter to a cycle that sets one before it triggers. -/
theorem issue_foldl (u : FunctionUnit) {d d' : Option Nat} (hd : ∀ i, d = some i → d' = some i)
    (ports : Ports) (writes : List PortWrite) :
    (writes.foldl (issue u) (ports, d)).1 = (writes.foldl (issue u) (ports, d')).1 ∧
      ∀ i, (writes.foldl (issue u) (ports, d)).2 = some i →
        (writes.foldl (issue u) (ports, d')).2 = some i := by
  induction writes generalizing ports d d' with
  | nil => exact ⟨rfl, hd⟩
  | cons w writes ih =>
    cases w with
    | input port value => exact ih hd _
    | triggering port value => exact ih hd _
    | opcodeSetting operation executorKnown port value => exact ih (fun _ => id) _

theorem triggered_mono (u : FunctionUnit) {d d' : Option Nat} (hd : ∀ i, d = some i → d' = some i)
    {ports : Ports} {writes : List PortWrite}
    (h : writes.any PortWrite.triggers = true → ∃ x, triggered u (ports, d) writes = some x) :
    triggered u (ports, d') writes = triggered u (ports, d) writes := by
  cases hany : writes.any PortWrite.triggers with
  | false => rw [triggered, triggered, hany, if_neg Bool.false_ne_true, if_neg Bool.false_ne_true]
  | true =>
    obtain ⟨x, hx⟩ := h hany
    rw [hx]
    rw [triggered, if_pos hany] at hx ⊢
    obtain ⟨i, hi, hmap⟩ := Option.bind_eq_some_iff.1 hx
    obtain ⟨hports, hnext⟩ := issue_foldl u hd ports writes
    rw [hnext i hi, ← hports]
    exact hmap

/-- The history tells what is in flight. The operation that the unit has been set to may be older
than the history. -/
def Tracked (u : FunctionUnit) (s : FUState) (h : History) : Prop :=
  ∃ operation, Tracks u s { h with driver := (h.driver.1, operation) } ∧
    ∀ i, h.driver.2 = some i → operation = some i

theorem Tracked.record_eq {u : FunctionUnit} {h : History} {operation : Option Nat}
    (hop : ∀ i, h.driver.2 = some i → operation = some i)
    (hissued : writes.any PortWrite.triggers = true → ∃ x, triggered u h.driver writes = some x) :
    ({ h with driver := (h.driver.1, operation) } : History).record u writes =
      { h.record u writes with
        driver := writes.foldl (issue u) (h.driver.1, operation) } := by
  rw [History.record, History.record]
  dsimp only
  rw [triggered_mono u hop hissued]

theorem Tracked.cycle {u : FunctionUnit} {s s' : FUState} {h : History} (ht : Tracked u s h)
    (hissued : writes.any PortWrite.triggers = true → ∃ x, triggered u h.driver writes = some x)
    (hok : s.cycle u writes = .ok s') :
    Tracked u s' (h.record u writes) ∧
      Delivered s.outputPorts s'.outputPorts
        (Arrives u (h.record u writes).starts (h.record u writes).time) := by
  obtain ⟨operation, ht, hop⟩ := ht
  have hissued' : writes.any PortWrite.triggers = true →
      ∃ x, triggered u (h.driver.1, operation) writes = some x := by
    intro hany
    rw [triggered_mono u hop hissued]
    exact hissued hany
  obtain ⟨s'', hok', ht', hdeliv⟩ := ht.cycle hissued'
  rw [hok] at hok'
  cases hok'
  rw [Tracked.record_eq hop hissued] at ht' hdeliv
  obtain ⟨hports, hnext⟩ := issue_foldl u hop h.driver.1 writes
  refine ⟨⟨(writes.foldl (issue u) (h.driver.1, operation)).2, ?_, hnext⟩, hdeliv⟩
  have hpair : ((h.record u writes).driver.1,
      (writes.foldl (issue u) (h.driver.1, operation)).2) =
        writes.foldl (issue u) (h.driver.1, operation) := by
    exact Prod.ext hports rfl
  rw [hpair]
  exact ht'

/-- In a cycle that ends early, what the unit has written is due. -/
theorem Tracked.endClock {u : FunctionUnit} {s s₂ : FUState} {h : History} (ht : Tracked u s h)
    (hissued : writes.any PortWrite.triggers = true → ∃ x, triggered u h.driver writes = some x)
    (hend : (writes.foldl (writePort u) s).endClockOf u = .ok s₂) :
    ∃ written, Delivered s.outputPorts s₂.outputPorts written ∧
      ∀ port value, written port value →
        Arrives u (h.record u writes).starts (h.record u writes).time port value := by
  obtain ⟨operation, ht, hop⟩ := ht
  have hdriver : (s.inputPorts, s.nextOperation) = (h.driver.1, operation) := ht.driver_eq
  obtain ⟨s₂', written, hend', -, -, hdeliv, hdue⟩ :=
    endClock_spec ht.rested (written_foldl u s writes)
      ((written_foldl u s writes).triggered_of_endClock hend)
  rw [hend] at hend'
  cases hend'
  refine ⟨written, hdeliv, ?_⟩
  intro port value hwritten
  have hdue' := (hdue 1 port value).1 (.inr ⟨rfl, hwritten⟩)
  rw [hdriver, triggered_mono u hop hissued] at hdue'
  rcases hdue' with hf | ⟨x, hx, hy⟩
  · obtain ⟨-, x, hx, l, hy, htime⟩ := (ht.inFlight 1 port value).1 hf
    exact ⟨x, List.mem_append_left _ hx, l, hy, htime⟩
  · refine ⟨⟨h.time, x.1, x.2⟩, List.mem_append_right _ ?_, 1, hy, rfl⟩
    have htrig : triggered u h.driver writes = some x := hx
    rw [htrig]
    exact List.mem_singleton_self _

theorem Tracked.reset {u : FunctionUnit} {s : FUState} (h : Steady u s) (hq : s.Quiet) :
    Tracked u s.reset ⟨0, (s.reset.inputPorts, none), []⟩ := by
  obtain ⟨hrested, hnone⟩ := h.reset hq
  refine ⟨s.reset.nextOperation, ⟨hrested, rfl, ?_⟩, fun i hi => (Option.some_ne_none i hi.symm).elim⟩
  intro n port value
  constructor
  · exact fun hf => (hnone n port value hf).elim
  · rintro ⟨-, x, hx, -⟩
    cases hx

end FUState

end Simulator

end OpenAsip
