import OpenAsip.MultiLatencyExecutors

namespace OpenAsip
set_option autoImplicit true

namespace Simulator

namespace Executor

/-- The executor is one for the operation, in a state that its operations lead to. -/
def Ok (op : HWOperation) : Executor → Prop
  | .oneCycle _ => op.executor = .oneCycle
  | .simple e => op.executor = .simple ∧ e.Ok op
  | .multiLatency e => op.executor = .multiLatency ∧ e.Ok op

/-- An operation can be started. -/
def Ready : Executor → Prop
  | .oneCycle _ => True
  | .simple e => e.Ready
  | .multiLatency e => e.Ready

/-- A value is written to a port when the clock has advanced `n` times. -/
def InFlight (width : Nat → Nat) (op : HWOperation) : Executor → Nat → Nat → Nat → Prop
  | .oneCycle _ => fun _ _ _ => False
  | .simple e => e.InFlight width op
  | .multiLatency e => e.InFlight width op

/-- The flag is not the one that the executor was constructed with. -/
def Started : Executor → Prop
  | .oneCycle _ => True
  | .simple e => e.hasPendingOperations = decide (0 < e.pendingOperations)
  | .multiLatency e => e.execOperationsInitialized = true

/-- The executor is flagged because of an operation. Executors of two classes are constructed with
the flag set, before any operation. -/
def live : Executor → Bool
  | .oneCycle pending => pending
  | .simple e => e.hasPendingOperations && decide (0 < e.pendingOperations)
  | .multiLatency e => e.hasPendingOperations && e.execOperationsInitialized

theorem Started.live_eq {e : Executor} (h : e.Started) : e.live = e.hasPendingOperations := by
  cases e with
  | oneCycle pending => rfl
  | simple e =>
    change (e.hasPendingOperations && _) = e.hasPendingOperations
    rw [← show e.hasPendingOperations = decide (0 < e.pendingOperations) from h, Bool.and_self]
  | multiLatency e =>
    change (e.hasPendingOperations && e.execOperationsInitialized) = e.hasPendingOperations
    rw [show e.execOperationsInitialized = true from h, Bool.and_true]

theorem live_pending {e : Executor} (h : e.live = true) : e.hasPendingOperations = true := by
  cases e with
  | oneCycle pending => exact h
  | simple e => exact (Bool.and_eq_true_iff.1 h).1
  | multiLatency e => exact (Bool.and_eq_true_iff.1 h).1

/-- Whatever is in flight belongs to a live executor. -/
theorem InFlight.live {e : Executor} (h : e.InFlight width op n port value) (hok : e.Ok op) :
    e.live = true := by
  cases e with
  | oneCycle pending => exact h.elim
  | simple e =>
    have hpos := SimpleOperationExecutor.InFlight.pending h hok.2
    exact Bool.and_eq_true_iff.2 ⟨hok.2.flagged hpos, decide_eq_true hpos⟩
  | multiLatency e =>
    obtain ⟨x, hx, hfree, -⟩ := h
    refine Bool.and_eq_true_iff.2 ⟨hok.2.flagged x hx hfree, ?_⟩
    cases hinit : e.execOperationsInitialized with
    | true => rfl
    | false => cases (hok.2.fresh hinit x hx).2.symm.trans hfree

theorem new_ok (width : Nat → Nat) (op : HWOperation) : (new op).Ok op ∧ (new op).Ready ∧
    ¬ (new op).live = true ∧ ∀ n port value, ¬ (new op).InFlight width op n port value := by
  cases hop : op.executor with
  | oneCycle =>
    rw [new, hop]
    exact ⟨hop, trivial, Bool.false_ne_true, fun _ _ _ => id⟩
  | simple =>
    rw [new, hop]
    exact ⟨⟨hop, SimpleOperationExecutor.new_ok op⟩, SimpleOperationExecutor.new_ready op,
      Bool.false_ne_true, fun _ _ _ => SimpleOperationExecutor.not_inFlight_new⟩
  | multiLatency =>
    rw [new, hop]
    exact ⟨⟨hop, MultiLatencyOperationExecutor.new_ok op⟩,
      MultiLatencyOperationExecutor.new_ready op.latency, Bool.false_ne_true,
      fun _ _ _ => MultiLatencyOperationExecutor.not_inFlight_new⟩

/-- What is in flight after an operation has been started, together with what a one-cycle operation
has already written, is what was in flight and the results of the operation. -/
theorem startOperation_spec (width : Nat → Nat) {e : Executor} (hok : e.Ok op) (hready : e.Ready)
    (inputs : List Nat) (ports : Ports) :
    ∃ e' ports' written, e.startOperation width op inputs ports = .ok (e', ports') ∧ e'.Ok op ∧
      e'.Started ∧ (e'.live = false → e'.Ready) ∧ Delivered ports ports' written ∧
      ∀ n port value, (e'.InFlight width op n port value ∨ n = 1 ∧ written port value) ↔
        e.InFlight width op n port value ∨ op.Yields width inputs n port value := by
  cases e with
  | oneCycle pending =>
    refine ⟨_, _, _, rfl, hok, trivial, fun _ => trivial, writePorts_delivered width ports _, ?_⟩
    have hlatency {o : Output} {k : Nat} (ho : op.outputs[k]? = some o) : o.latency = 1 := by
      rw [op.output_eq (by rw [show op.executor = .oneCycle from hok]; decide) o
        (List.mem_of_getElem? ho), op.oneCycle hok]
    intro n port value
    constructor
    · rintro (h | ⟨rfl, x, hx, rfl, rfl⟩)
      · exact h.elim
      · obtain ⟨k, hk⟩ := List.mem_iff_getElem?.1 hx
        rw [List.getElem?_mapIdx] at hk
        obtain ⟨o, ho, rfl⟩ := Option.map_eq_some_iff.1 hk
        refine .inr ⟨k, o, ho, (hlatency ho).symm, rfl, ?_⟩
        rw [HWOperation.portValue, show op.executor = .oneCycle from hok]
    · rintro (h | ⟨k, o, ho, rfl, rfl, rfl⟩)
      · exact h.elim
      · refine .inr ⟨hlatency ho, (o.port, op.simulateTrigger inputs k), ?_, rfl, ?_⟩
        · apply List.mem_of_getElem? (i := k)
          rw [List.getElem?_mapIdx, ho]
          rfl
        · rw [HWOperation.portValue, show op.executor = .oneCycle from hok]
  | simple e =>
    obtain ⟨e', hstart, hok', hflag, hpos, hflight⟩ :=
      SimpleOperationExecutor.startOperation_spec width hok.1 hok.2 hready inputs
    rw [Executor.startOperation, hstart]
    refine ⟨.simple e', ports, fun _ _ => False, rfl, ⟨hok.1, hok'⟩, ?_, ?_,
      Delivered.none ports fun _ _ => id, ?_⟩
    · exact hflag.trans (decide_eq_true hpos).symm
    · intro hlive
      change (e'.hasPendingOperations && _) = false at hlive
      rw [hflag, decide_eq_true hpos] at hlive
      cases hlive
    · intro n port value
      rw [and_false, or_false]
      exact hflight n port value
  | multiLatency e =>
    obtain ⟨e', hstart, hok', hflag, hinit, hflight⟩ :=
      MultiLatencyOperationExecutor.startOperation_spec width hok.1 hok.2 hready inputs
    rw [Executor.startOperation, hstart]
    refine ⟨.multiLatency e', ports, fun _ _ => False, rfl, ⟨hok.1, hok'⟩, hinit, ?_,
      Delivered.none ports fun _ _ => id, ?_⟩
    · intro hlive
      change (e'.hasPendingOperations && e'.execOperationsInitialized) = false at hlive
      rw [hflag, hinit] at hlive
      cases hlive
    · intro n port value
      rw [and_false, or_false]
      exact hflight n port value

theorem advanceClock_spec (width : Nat → Nat) {e : Executor} (hok : e.Ok op) (ports : Ports) :
    ∃ e' ports', e.advanceClock width op ports = .ok (e', ports') ∧ e'.Ok op ∧ e'.Ready ∧
      Delivered ports ports' (e.InFlight width op 1) ∧
      (∀ n port value, e'.InFlight width op n port value ↔
        1 ≤ n ∧ e.InFlight width op (n + 1) port value) ∧
      (e.Started → e'.Started) := by
  cases e with
  | oneCycle pending =>
    exact ⟨_, _, rfl, hok, trivial, Delivered.none ports fun _ _ => id,
      fun n port value => (and_iff_right_of_imp False.elim).symm, id⟩
  | simple e =>
    obtain ⟨e', ports', hadv, hok', hready, hdeliv, hflight, hstarted⟩ :=
      SimpleOperationExecutor.advanceClock_spec width hok.2 ports
    rw [Executor.advanceClock, hadv]
    exact ⟨_, _, rfl, ⟨hok.1, hok'⟩, hready, hdeliv, hflight, hstarted⟩
  | multiLatency e =>
    obtain ⟨hok', hready, hdeliv, hflight, hinit⟩ :=
      MultiLatencyOperationExecutor.advanceClock_spec width hok.2 ports
    exact ⟨_, _, rfl, ⟨hok.1, hok'⟩, hready, hdeliv, hflight, hinit.trans⟩

end Executor

end Simulator

end OpenAsip
