import OpenAsip.Executors
import OpenAsip.FUState

namespace OpenAsip
set_option autoImplicit true

namespace Simulator

/-- A value is written to an output port when the clock has advanced `n` times. -/
def InFlight (width : Nat → Nat) (operations : List HWOperation) (executors : List Executor)
    (n port value : Nat) : Prop :=
  ∃ (i : Nat) (op : HWOperation) (e : Executor), operations[i]? = some op ∧
    executors[i]? = some e ∧ e.InFlight width op n port value

/-- The executors are those of the operations. One that is not live can start an operation. -/
structure ExecutorsOk (operations : List HWOperation) (executors : List Executor) : Prop where
  length_eq : executors.length = operations.length
  ok : ∀ (i : Nat) (op : HWOperation) (e : Executor), operations[i]? = some op →
    executors[i]? = some e → e.Ok op
  ready : ∀ e ∈ executors, e.live = false → e.Ready

theorem ExecutorsOk.tail (h : ExecutorsOk (op :: operations) (e :: executors)) :
    ExecutorsOk operations executors where
  length_eq := Nat.succ.inj h.length_eq
  ok := fun i op' e' hop he => h.ok (i + 1) op' e' hop he
  ready := fun e' he => h.ready e' (List.mem_cons_of_mem e he)

theorem ExecutorsOk.cons (h : ExecutorsOk operations executors) (hok : Executor.Ok op e)
    (hready : e.Ready) : ExecutorsOk (op :: operations) (e :: executors) := by
  constructor
  · exact congrArg Nat.succ h.length_eq
  · intro i op' e' hop he
    cases i with
    | zero =>
      cases hop
      cases he
      exact hok
    | succ i => exact h.ok i op' e' hop he
  · intro e' he hlive
    rcases List.mem_cons.1 he with rfl | he
    · exact hready
    · exact h.ready e' he hlive

theorem inFlight_cons : InFlight width (op :: operations) (e :: executors) n port value ↔
    e.InFlight width op n port value ∨ InFlight width operations executors n port value := by
  constructor
  · rintro ⟨i, op', e', hop, he, h⟩
    cases i with
    | zero =>
      cases hop
      cases he
      exact .inl h
    | succ i => exact .inr ⟨i, op', e', hop, he, h⟩
  · rintro (h | ⟨i, op', e', hop, he, h⟩)
    · exact ⟨0, op, e, rfl, rfl, h⟩
    · exact ⟨i + 1, op', e', hop, he, h⟩

/-- The loop over all executors skips those without the flag, which have nothing in flight. -/
theorem ExecutorsOk.advance (h : ExecutorsOk operations executors) (width : Nat → Nat)
    (ports : Ports) :
    ∃ executors' ports' active,
      FUState.advanceExecutors width operations executors ports = .ok (executors', ports', active) ∧
      ExecutorsOk operations executors' ∧ (∀ e ∈ executors', e.Ready) ∧
      Delivered ports ports' (InFlight width operations executors 1) ∧
      (∀ n port value, InFlight width operations executors' n port value ↔
        1 ≤ n ∧ InFlight width operations executors (n + 1) port value) ∧
      executors'.countP Executor.live ≤ active ∧
      ∀ (i : Nat) (e : Executor), executors[i]? = some e → e.Started →
        ∃ e', executors'[i]? = some e' ∧ e'.Started := by
  induction operations generalizing executors ports with
  | nil =>
    obtain rfl : executors = [] := List.eq_nil_of_length_eq_zero h.length_eq
    refine ⟨[], ports, 0, rfl, h, fun e he => (List.not_mem_nil he).elim, ?_, ?_,
      Nat.le_refl 0, fun i e he => (Option.some_ne_none e he.symm).elim⟩
    · exact Delivered.none ports fun p v ⟨i, op, e, hop, _⟩ => (Option.some_ne_none op hop.symm)
    · intro n port value
      constructor
      · rintro ⟨i, op, e, hop, -⟩
        cases hop
      · rintro ⟨-, i, op, e, hop, -⟩
        cases hop
  | cons op operations ih =>
    obtain ⟨e, rest, rfl⟩ : ∃ e rest, executors = e :: rest := by
      cases executors with
      | nil => cases h.length_eq
      | cons e rest => exact ⟨e, rest, rfl⟩
    have hok : e.Ok op := h.ok 0 op e rfl rfl
    cases hpend : e.hasPendingOperations with
    | true =>
      obtain ⟨e', ports₁, hadv, hok', hready', hdeliv, hflight, hstarted⟩ :=
        e.advanceClock_spec width hok ports
      obtain ⟨rest', ports', active, hrest, hoks, hreadys, hdeliv', hflights, hcount, hstarteds⟩ :=
        ih h.tail ports₁
      rw [FUState.advanceExecutors, if_pos hpend, hadv]
      change ∃ executors' ports' active,
        (FUState.advanceExecutors width operations rest ports₁ >>= _) = _ ∧ _
      rw [hrest]
      refine ⟨_, _, _, rfl, ?_, ?_, ?_, ?_, ?_, ?_⟩
      · exact hoks.cons hok' hready'
      · intro e'' he
        rcases List.mem_cons.1 he with rfl | he
        · exact hready'
        · exact hreadys e'' he
      · exact (hdeliv.trans hdeliv').congr fun p v => inFlight_cons.symm
      · intro n port value
        rw [inFlight_cons, inFlight_cons, hflight, hflights, and_or_left]
      · rw [List.countP_cons]
        have hle : (if e'.live = true then 1 else 0) ≤ e'.hasPendingOperations.toNat := by
          split
          · rename_i hlive
            rw [Executor.live_pending hlive]
            exact Nat.le_refl 1
          · exact Nat.zero_le _
        exact Nat.add_le_add hcount hle
      · intro i e'' he hs
        cases i with
        | zero =>
          cases he
          exact ⟨e', rfl, hstarted hs⟩
        | succ i => exact hstarteds i e'' he hs
    | false =>
      have hlive : e.live = false := by
        cases hl : e.live with
        | false => rfl
        | true => cases hpend.symm.trans (Executor.live_pending hl)
      have hnone (n port value : Nat) : ¬ e.InFlight width op n port value := by
        intro hf
        cases hlive.symm.trans (hf.live hok)
      have hready := h.ready e List.mem_cons_self hlive
      obtain ⟨rest', ports', active, hrest, hoks, hreadys, hdeliv', hflights, hcount, hstarteds⟩ :=
        ih h.tail ports
      have hneg : ¬ e.hasPendingOperations = true := by
        rw [hpend]
        exact Bool.false_ne_true
      rw [FUState.advanceExecutors, if_neg hneg, hrest]
      refine ⟨_, _, _, rfl, ?_, ?_, ?_, ?_, ?_, ?_⟩
      · exact hoks.cons hok hready
      · intro e'' he
        rcases List.mem_cons.1 he with rfl | he
        · exact hready
        · exact hreadys e'' he
      · apply hdeliv'.congr
        intro p v
        rw [inFlight_cons]
        exact (or_iff_right (hnone 1 p v)).symm
      · intro n port value
        rw [inFlight_cons, inFlight_cons, hflights, or_iff_right (hnone n port value),
          or_iff_right (hnone (n + 1) port value)]
      · rw [List.countP_cons, hlive]
        exact hcount
      · intro i e'' he hs
        cases i with
        | zero =>
          cases he
          exact ⟨e, rfl, hs⟩
        | succ i => exact hstarteds i e'' he hs

/-- An executor is replaced, after an operation has been started in it or its clock has advanced. -/
theorem inFlight_set {executors : List Executor} {i : Nat} {e e' : Executor} {op : HWOperation}
    (hop : operations[i]? = some op) (he : executors[i]? = some e) :
    InFlight width operations (executors.set i e') n port value ↔
      e'.InFlight width op n port value ∨
        ∃ (j : Nat) (op' : HWOperation) (x : Executor), j ≠ i ∧ operations[j]? = some op' ∧
          executors[j]? = some x ∧ x.InFlight width op' n port value := by
  have hlt := (List.getElem?_eq_some_iff.1 he).1
  constructor
  · rintro ⟨j, op', x, hop', hx, h⟩
    by_cases hj : i = j
    · subst hj
      rw [List.getElem?_set_self hlt] at hx
      cases hx
      rw [hop] at hop'
      cases hop'
      exact .inl h
    · rw [List.getElem?_set_ne hj] at hx
      exact .inr ⟨j, op', x, fun h => hj h.symm, hop', hx, h⟩
  · rintro (h | ⟨j, op', x, hj, hop', hx, h⟩)
    · exact ⟨i, op, e', hop, List.getElem?_set_self hlt, h⟩
    · refine ⟨j, op', x, hop', ?_, h⟩
      rw [List.getElem?_set_ne (Ne.symm hj), hx]

theorem inFlight_split {executors : List Executor} {i : Nat} {e : Executor} {op : HWOperation}
    (hop : operations[i]? = some op) (he : executors[i]? = some e) :
    InFlight width operations executors n port value ↔
      e.InFlight width op n port value ∨
        ∃ (j : Nat) (op' : HWOperation) (x : Executor), j ≠ i ∧ operations[j]? = some op' ∧
          executors[j]? = some x ∧ x.InFlight width op' n port value := by
  have hset : executors.set i e = executors := by
    obtain ⟨hlt, rfl⟩ := List.getElem?_eq_some_iff.1 he
    exact List.set_getElem_self hlt
  have h : InFlight width operations (executors.set i e) n port value ↔ _ := inFlight_set hop he
  rwa [hset] at h

theorem ExecutorsOk.set {executors : List Executor} {i : Nat} {e' : Executor} {op : HWOperation}
    (h : ExecutorsOk operations executors) (hop : operations[i]? = some op) (hok : e'.Ok op)
    (hready : e'.live = false → e'.Ready) : ExecutorsOk operations (executors.set i e') := by
  have hlt : i < executors.length := by
    rw [h.length_eq]
    exact (List.getElem?_eq_some_iff.1 hop).1
  constructor
  · rw [List.length_set, h.length_eq]
  · intro j op' x hop' hx
    by_cases hj : i = j
    · subst hj
      rw [List.getElem?_set_self hlt] at hx
      cases hx
      rw [hop] at hop'
      cases hop'
      exact hok
    · rw [List.getElem?_set_ne hj] at hx
      exact h.ok j op' x hop' hx
  · intro x hx
    rcases List.mem_or_eq_of_mem_set hx with hx | rfl
    · exact h.ready x hx
    · exact hready

/-- At most one element of a list satisfies a predicate. -/
theorem eq_of_countP_le_one {p : α → Bool} {l : List α} {i j : Nat} {a b : α}
    (h : l.countP p ≤ 1) (ha : l[i]? = some a) (hpa : p a = true) (hb : l[j]? = some b)
    (hpb : p b = true) : i = j := by
  induction l generalizing i j with
  | nil => cases ha
  | cons c l ih =>
    rw [List.countP_cons] at h
    have hrest {k : Nat} {d : α} (hd : l[k]? = some d) (hpd : p d = true) :
        0 < l.countP p := List.countP_pos_iff.2 ⟨d, List.mem_of_getElem? hd, hpd⟩
    cases i with
    | zero =>
      cases ha
      cases j with
      | zero => rfl
      | succ j =>
        have hpos := hrest hb hpb
        rw [if_pos hpa] at h
        omega
    | succ i =>
      cases j with
      | zero =>
        cases hb
        have hpos := hrest ha hpa
        rw [if_pos hpb] at h
        omega
      | succ j =>
        rw [ih (by omega) ha hb]

namespace FUState

/-- The values of the input ports and the operation that is set, as the writes leave them. -/
def issue (u : FunctionUnit) (d : Ports × Option Nat) : PortWrite → Ports × Option Nat
  | .input port value => (Function.update d.1 port (value % 2 ^ u.inputWidth port), d.2)
  | .triggering port value => (Function.update d.1 port (value % 2 ^ u.inputWidth port), d.2)
  | .opcodeSetting operation _ port value =>
    (Function.update d.1 port (value % 2 ^ u.inputWidth port), some operation)

/-- The state after some writes. -/
structure Written (u : FunctionUnit) (s : FUState) (writes : List PortWrite) (s' : FUState) :
    Prop where
  executors_eq : s'.executors = s.executors
  outputPorts_eq : s'.outputPorts = s.outputPorts
  activeExecutors_eq : s'.activeExecutors = s.activeExecutors
  issued : (s'.inputPorts, s'.nextOperation) =
    writes.foldl (issue u) (s.inputPorts, s.nextOperation)
  trigger_eq : s'.trigger = (s.trigger || writes.any PortWrite.triggers)
  idle_eq : s'.idle = (s.idle && !writes.any PortWrite.triggers)
  nextExecutor_eq : writes.any PortWrite.triggers = false → s'.nextExecutor = s.nextExecutor
  next_eq : (∀ i, s.nextExecutor = some i → s.nextOperation = some i) →
    ∀ i, s'.nextExecutor = some i → s'.nextOperation = some i

theorem written_foldl (u : FunctionUnit) (s : FUState) (writes : List PortWrite) :
    Written u s writes (writes.foldl (writePort u) s) := by
  induction writes generalizing s with
  | nil =>
    exact ⟨rfl, rfl, rfl, rfl, (Bool.or_false _).symm, (Bool.and_true _).symm, fun _ => rfl, id⟩
  | cons w writes ih =>
    have h := ih (s.writePort u w)
    cases w with
    | input port value =>
      exact ⟨h.executors_eq, h.outputPorts_eq, h.activeExecutors_eq, h.issued, h.trigger_eq,
        h.idle_eq, h.nextExecutor_eq, h.next_eq⟩
    | triggering port value =>
      refine ⟨h.executors_eq, h.outputPorts_eq, h.activeExecutors_eq, h.issued, ?_, ?_, ?_,
        h.next_eq⟩
      · exact h.trigger_eq.trans (Bool.or_true s.trigger).symm
      · exact h.idle_eq.trans (Bool.and_false s.idle).symm
      · intro hnone
        cases hnone
    | opcodeSetting operation executorKnown port value =>
      refine ⟨h.executors_eq, h.outputPorts_eq, h.activeExecutors_eq, h.issued, ?_, ?_, ?_, ?_⟩
      · exact h.trigger_eq.trans (Bool.or_true s.trigger).symm
      · exact h.idle_eq.trans (Bool.and_false s.idle).symm
      · intro hnone
        cases hnone
      · intro _
        apply h.next_eq
        intro i hi
        cases executorKnown with
        | true => exact hi
        | false => cases hi

/-- What holds of a function unit at all times. No more executors are live than are counted, and the
executor that was triggered last has a flag of its own. -/
structure Steady (u : FunctionUnit) (s : FUState) : Prop where
  executors : ExecutorsOk u.operations s.executors
  live_le : s.executors.countP Executor.live ≤ s.activeExecutors
  next_eq : ∀ i, s.nextExecutor = some i → s.nextOperation = some i
  next_started : ∀ (i : Nat) (e : Executor), s.nextExecutor = some i → s.executors[i]? = some e →
    e.Started
  idle_eq : s.idle = true → s.activeExecutors = 0
  trigger_eq : s.trigger = false

/-- At the start of a cycle every executor can start an operation. -/
structure Rested (u : FunctionUnit) (s : FUState) : Prop where
  steady : Steady u s
  ready : ∀ e ∈ s.executors, e.Ready

/-- The operation that the writes of a cycle trigger, with the values at its inputs. -/
def triggered (u : FunctionUnit) (d : Ports × Option Nat) (writes : List PortWrite) :
    Option (HWOperation × List Nat) :=
  if writes.any PortWrite.triggers then
    (writes.foldl (issue u) d).2.bind fun operation =>
      u.operations[operation]?.map fun op =>
        (op, op.inputs.map (writes.foldl (issue u) d).1)
  else none

/-- Results that are in flight or are those of an operation that has just been triggered. -/
def Due (u : FunctionUnit) (s : FUState) (start : Option (HWOperation × List Nat))
    (n port value : Nat) : Prop :=
  Simulator.InFlight u.outputWidth u.operations s.executors n port value ∨
    ∃ x, start = some x ∧ x.1.Yields u.outputWidth x.2 n port value

/-- The triggered operation is started. -/
theorem endClock_spec {u : FunctionUnit} {s s₁ : FUState} (h : Rested u s)
    (hw : Written u s writes s₁)
    (hissued : writes.any PortWrite.triggers = true →
      ∃ x, triggered u (s.inputPorts, s.nextOperation) writes = some x) :
    ∃ s₂ written, s₁.endClockOf u = .ok s₂ ∧ Steady u s₂ ∧
      (s₂.inputPorts, s₂.nextOperation) =
        writes.foldl (issue u) (s.inputPorts, s.nextOperation) ∧
      Delivered s.outputPorts s₂.outputPorts written ∧
      ∀ n port value,
        (Simulator.InFlight u.outputWidth u.operations s₂.executors n port value ∨
          n = 1 ∧ written port value) ↔
        Due u s (triggered u (s.inputPorts, s.nextOperation) writes) n port value := by
  cases hany : writes.any PortWrite.triggers with
  | false =>
    have htrigger : s₁.trigger = false := by
      rw [hw.trigger_eq, hany, h.steady.trigger_eq]
      rfl
    have hok : s₁.endClockOf u = .ok s₁ := by
      rw [endClockOf, endClock, htrigger, if_neg Bool.false_ne_true]
      split
      · rfl
      · rfl
    have hidle : s₁.idle = s.idle := by
      rw [hw.idle_eq, hany]
      exact Bool.and_true s.idle
    refine ⟨s₁, fun _ _ => False, hok, ?_, hw.issued, ?_, ?_⟩
    · constructor
      · rw [hw.executors_eq]
        exact h.steady.executors
      · rw [hw.executors_eq, hw.activeExecutors_eq]
        exact h.steady.live_le
      · exact hw.next_eq h.steady.next_eq
      · rw [hw.executors_eq, hw.nextExecutor_eq hany]
        exact h.steady.next_started
      · rw [hidle, hw.activeExecutors_eq]
        exact h.steady.idle_eq
      · exact htrigger
    · rw [hw.outputPorts_eq]
      exact Delivered.none _ fun _ _ => id
    · intro n port value
      rw [and_false, or_false, hw.executors_eq, Due, triggered, hany,
        if_neg Bool.false_ne_true]
      constructor
      · exact .inl
      · rintro (hf | ⟨x, hx, -⟩)
        · exact hf
        · cases hx
  | true =>
    obtain ⟨x, hx⟩ := hissued hany
    have htrig := hx
    rw [triggered, if_pos hany, ← hw.issued] at htrig
    obtain ⟨i, hi, hmap⟩ := Option.bind_eq_some_iff.1 htrig
    obtain ⟨op, hop, rfl⟩ := Option.map_eq_some_iff.1 hmap
    change s₁.nextOperation = some i at hi
    -- the executor is the one of the operation, whether it was known or not
    have hexec : s₁.nextExecutor.getD i = i := by
      cases hn : s₁.nextExecutor with
      | none => rfl
      | some j =>
        have hj := hw.next_eq h.steady.next_eq j hn
        rw [hi] at hj
        exact (Option.some.inj hj).symm
    have hlt : i < s.executors.length := by
      rw [h.steady.executors.length_eq]
      exact (List.getElem?_eq_some_iff.1 hop).1
    obtain ⟨e, he⟩ : ∃ e, s.executors[i]? = some e := ⟨_, List.getElem?_eq_getElem hlt⟩
    obtain ⟨e', ports', written, hstart, hok', hstarted, hready', hdeliv, hflight⟩ :=
      e.startOperation_spec u.outputWidth (h.steady.executors.ok i op e hop he)
        (h.ready e (List.mem_of_getElem? he)) (op.inputs.map s₁.inputPorts) s.outputPorts
    have hidle : s₁.idle = false := by
      rw [hw.idle_eq, hany]
      exact Bool.and_false s.idle
    have htrigger : s₁.trigger = true := by
      rw [hw.trigger_eq, hany]
      exact Bool.or_true s.trigger
    refine ⟨{ s₁ with
      outputPorts := ports'
      executors := s.executors.set i e'
      idle := s₁.idle && !e'.hasPendingOperations
      trigger := false
      nextExecutor := some i
      activeExecutors := s₁.activeExecutors + e'.hasPendingOperations.toNat },
      written, ?_, ?_, hw.issued, hdeliv, ?_⟩
    · have hneg : ¬ s₁.idle = true := by
        rw [hidle]
        exact Bool.false_ne_true
      rw [endClockOf, if_neg hneg, endClock, if_pos htrigger, hi]
      dsimp only
      rw [hexec, hop, hw.executors_eq, he, hw.outputPorts_eq]
      dsimp only
      rw [inputValues, hstart]
      rfl
    · constructor
      · exact h.steady.executors.set hop hok' hready'
      · dsimp only
        rw [List.countP_set hlt, hstarted.live_eq, hw.activeExecutors_eq]
        have hle := h.steady.live_le
        cases e'.hasPendingOperations with
        | true =>
          rw [if_pos rfl]
          change _ ≤ s.activeExecutors + 1
          omega
        | false =>
          rw [if_neg Bool.false_ne_true]
          change _ ≤ s.activeExecutors + 0
          omega
      · intro j hj
        cases hj
        exact hi
      · intro j x hj hx
        cases hj
        rw [List.getElem?_set_self hlt] at hx
        cases hx
        exact hstarted
      · intro hidle'
        rw [hidle] at hidle'
        cases hidle'
      · rfl
    · intro n port value
      rw [hx, Due, inFlight_set hop he, inFlight_split hop he, or_right_comm, hflight,
        or_right_comm]
      apply or_congr_right
      constructor
      · intro hy
        exact ⟨_, rfl, hy⟩
      · rintro ⟨x, hx, hy⟩
        cases hx
        exact hy

/-- The clock advances: what has one cycle left is written. The executors that are left out have
nothing in flight. -/
theorem advanceClock_spec {u : FunctionUnit} {s : FUState} (h : Steady u s) :
    ∃ s', s.advanceClockOf u = .ok s' ∧ Rested u s' ∧
      (s'.inputPorts, s'.nextOperation) = (s.inputPorts, s.nextOperation) ∧
      Delivered s.outputPorts s'.outputPorts
        (Simulator.InFlight u.outputWidth u.operations s.executors 1) ∧
      ∀ n port value,
        Simulator.InFlight u.outputWidth u.operations s'.executors n port value ↔
          1 ≤ n ∧ Simulator.InFlight u.outputWidth u.operations s.executors (n + 1) port value := by
  have hflive {n port value : Nat} {i : Nat} {op : HWOperation} {e : Executor}
      (hop : u.operations[i]? = some op) (he : s.executors[i]? = some e)
      (hf : e.InFlight u.outputWidth op n port value) : e.live = true :=
    hf.live (h.executors.ok i op e hop he)
  by_cases hactive : s.activeExecutors = 0
  · -- nothing is live
    have hdead (e : Executor) (he : e ∈ s.executors) : e.live = false := by
      cases hl : e.live with
      | false => rfl
      | true =>
        have hpos : 0 < s.executors.countP Executor.live := List.countP_pos_iff.2 ⟨e, he, hl⟩
        have hle := h.live_le
        omega
    have hnone (n port value : Nat) :
        ¬ Simulator.InFlight u.outputWidth u.operations s.executors n port value := by
      rintro ⟨i, op, e, hop, he, hf⟩
      cases (hdead e (List.mem_of_getElem? he)).symm.trans (hflive hop he hf)
    have hok : ∃ idle, s.advanceClockOf u = .ok { s with idle := idle } := by
      rw [advanceClockOf]
      split
      · exact ⟨s.idle, rfl⟩
      · rw [advanceClock, if_pos hactive]
        exact ⟨true, rfl⟩
    obtain ⟨idle, hok⟩ := hok
    refine ⟨_, hok, ⟨⟨h.executors, h.live_le, h.next_eq, h.next_started, fun _ => hactive,
      h.trigger_eq⟩, fun e he => h.executors.ready e he (hdead e he)⟩, rfl, ?_, ?_⟩
    · exact Delivered.none _ (hnone 1)
    · intro n port value
      constructor
      · exact fun hf => (hnone n port value hf).elim
      · exact fun hf => (hnone (n + 1) port value hf.2).elim
  · have hneg : ¬ s.idle = true := fun hidle => hactive (h.idle_eq hidle)
    rw [advanceClockOf, if_neg hneg, advanceClock, if_neg hactive]
    cases honly : s.onlyActive with
    | some x =>
      obtain ⟨i, e⟩ := x
      obtain ⟨hnext, he, hone, hpend⟩ : s.nextExecutor = some i ∧ s.executors[i]? = some e ∧
          s.activeExecutors = 1 ∧ e.hasPendingOperations = true := by
        rw [onlyActive] at honly
        split at honly
        · cases honly
        · split at honly
          · cases honly
          · split at honly
            · rename_i hnext _ e' he hc
              cases honly
              exact ⟨hnext, he, hc.1, hc.2⟩
            · cases honly
      have hlt := (List.getElem?_eq_some_iff.1 he).1
      obtain ⟨op, hop⟩ : ∃ op, u.operations[i]? = some op := by
        rw [h.executors.length_eq] at hlt
        exact ⟨_, List.getElem?_eq_getElem hlt⟩
      have hstarted := h.next_started i e hnext he
      have hlive : e.live = true := hstarted.live_eq.trans hpend
      -- the count leaves room for no other live executor
      have hothers (n port value : Nat) : ¬ ∃ (j : Nat) (op' : HWOperation) (x : Executor), j ≠ i ∧
          u.operations[j]? = some op' ∧ s.executors[j]? = some x ∧
            x.InFlight u.outputWidth op' n port value := by
        rintro ⟨j, op', x, hj, hop', hx, hf⟩
        have hle := h.live_le
        rw [hone] at hle
        exact hj (eq_of_countP_le_one hle hx (hflive hop' hx hf) he hlive)
      obtain ⟨e', ports', hadv, hok', hready', hdeliv, hflight, hstarted'⟩ :=
        e.advanceClock_spec u.outputWidth (h.executors.ok i op e hop he) s.outputPorts
      dsimp only
      rw [advanceOnly, hop]
      dsimp only
      rw [hadv]
      refine ⟨_, rfl, ⟨⟨?_, ?_, h.next_eq, ?_, ?_, h.trigger_eq⟩, ?_⟩, rfl, ?_, ?_⟩
      · exact h.executors.set hop hok' fun _ => hready'
      · dsimp only
        have hle := h.live_le
        obtain ⟨_, hget⟩ := List.getElem?_eq_some_iff.1 he
        rw [List.countP_set hlt, hget, hlive, (hstarted' hstarted).live_eq, if_pos rfl]
        cases e'.hasPendingOperations with
        | true =>
          rw [if_pos rfl]
          change _ ≤ 1
          omega
        | false =>
          rw [if_neg Bool.false_ne_true]
          change _ ≤ 0
          omega
      · intro j x hj hx
        have hij : i = j := Option.some.inj (hnext.symm.trans hj)
        rw [← hij, List.getElem?_set_self hlt] at hx
        cases hx
        exact hstarted' hstarted
      · intro hidle
        dsimp only at hidle ⊢
        cases hp : e'.hasPendingOperations with
        | true =>
          rw [hp] at hidle
          cases hidle
        | false => rfl
      · intro x hx
        obtain ⟨j, hj⟩ := List.mem_iff_getElem?.1 hx
        dsimp only at hj
        by_cases hij : i = j
        · rw [← hij, List.getElem?_set_self hlt] at hj
          cases hj
          exact hready'
        · rw [List.getElem?_set_ne hij] at hj
          apply h.executors.ready x (List.mem_of_getElem? hj)
          cases hl : x.live with
          | false => rfl
          | true =>
            have hle := h.live_le
            rw [hone] at hle
            exact (hij (eq_of_countP_le_one hle he hlive hj hl)).elim
      · apply hdeliv.congr
        intro port value
        rw [inFlight_split hop he]
        exact (or_iff_left (hothers 1 port value)).symm
      · intro n port value
        rw [inFlight_set hop he, inFlight_split hop he, or_iff_left (hothers n port value),
          or_iff_left (hothers (n + 1) port value)]
        exact hflight n port value
    | none =>
      obtain ⟨executors', ports', active, hadv, hoks, hreadys, hdeliv, hflight, hcount, hstarted⟩ :=
        h.executors.advance u.outputWidth s.outputPorts
      dsimp only
      rw [advanceAll, hadv]
      refine ⟨_, rfl, ⟨⟨hoks, hcount, h.next_eq, ?_, ?_, h.trigger_eq⟩, hreadys⟩, rfl, hdeliv,
        hflight⟩
      · intro i x hi hx
        have hlt : i < s.executors.length := by
          have hlt := (List.getElem?_eq_some_iff.1 hx).1
          rw [hoks.length_eq] at hlt
          rwa [h.executors.length_eq]
        have hold := List.getElem?_eq_getElem hlt
        obtain ⟨x', hx', hs⟩ := hstarted i _ hold (h.next_started i _ hi hold)
        rw [hx'] at hx
        cases hx
        exact hs
      · exact fun hidle => of_decide_eq_true hidle

theorem cycle_spec {u : FunctionUnit} {s : FUState} (h : Rested u s)
    (hissued : writes.any PortWrite.triggers = true →
      ∃ x, triggered u (s.inputPorts, s.nextOperation) writes = some x) :
    ∃ s', s.cycle u writes = .ok s' ∧ Rested u s' ∧
      (s'.inputPorts, s'.nextOperation) =
        writes.foldl (issue u) (s.inputPorts, s.nextOperation) ∧
      Delivered s.outputPorts s'.outputPorts
        (Due u s (triggered u (s.inputPorts, s.nextOperation) writes) 1) ∧
      ∀ n port value,
        Simulator.InFlight u.outputWidth u.operations s'.executors n port value ↔
          1 ≤ n ∧ Due u s (triggered u (s.inputPorts, s.nextOperation) writes) (n + 1) port value := by
  obtain ⟨s₂, written, hend, hsteady, hdriver, hdeliv, hdue⟩ :=
    endClock_spec h (written_foldl u s writes) hissued
  obtain ⟨s', hadv, hrested, hdriver', hdeliv', hflight⟩ := advanceClock_spec hsteady
  refine ⟨s', ?_, hrested, hdriver'.trans hdriver, ?_, ?_⟩
  · rw [cycle, hend]
    exact hadv
  · apply (hdeliv.trans hdeliv').congr
    intro port value
    rw [← hdue, or_comm]
    exact or_congr_right (and_iff_right rfl).symm
  · intro n port value
    rw [hflight, ← hdue]
    apply and_congr_right
    intro hn
    have hne : ¬ (n + 1 = 1 ∧ written port value) := by
      rintro ⟨he, -⟩
      omega
    exact (or_iff_left hne).symm

theorem new_rested (u : FunctionUnit) : Rested u (new u) ∧
    ∀ n port value,
      ¬ Simulator.InFlight u.outputWidth u.operations (new u).executors n port value := by
  have hmem {e : Executor} (he : e ∈ (new u).executors) : ∃ op ∈ u.operations, Executor.new op = e :=
    List.mem_map.1 he
  have hget {i : Nat} {op : HWOperation} {e : Executor} (hop : u.operations[i]? = some op)
      (he : (new u).executors[i]? = some e) : e = Executor.new op := by
    have hmap : (new u).executors[i]? = u.operations[i]?.map Executor.new := List.getElem?_map
    rw [hmap, hop] at he
    exact (Option.some.inj he).symm
  refine ⟨⟨⟨⟨List.length_map _, ?_, ?_⟩, ?_, ?_, ?_, ?_, rfl⟩, ?_⟩, ?_⟩
  · intro i op e hop he
    rw [hget hop he]
    exact (Executor.new_ok u.outputWidth op).1
  · intro e he _
    obtain ⟨op, -, rfl⟩ := hmem he
    exact (Executor.new_ok u.outputWidth op).2.1
  · apply Nat.le_of_eq
    apply List.countP_eq_zero.2
    intro e he
    obtain ⟨op, -, rfl⟩ := hmem he
    exact (Executor.new_ok u.outputWidth op).2.2.1
  · intro i hi
    cases hi
  · intro i e hi
    cases hi
  · exact fun _ => rfl
  · intro e he
    obtain ⟨op, -, rfl⟩ := hmem he
    exact (Executor.new_ok u.outputWidth op).2.1
  · rintro n port value ⟨i, op, e, hop, he, hf⟩
    rw [hget hop he] at hf
    exact (Executor.new_ok u.outputWidth op).2.2.2 n port value hf

/-- An operation that was started: the cycle, the operation and the values at its inputs. -/
structure Start where
  time : Nat
  operation : HWOperation
  inputs : List Nat

/-- The cycles so far: their number, the values of the input ports, the operation that is set and the
operations that were started. -/
structure History where
  time : Nat
  driver : Ports × Option Nat
  starts : List Start

def History.empty : History := ⟨0, (fun _ => 0, none), []⟩

def History.record (u : FunctionUnit) (h : History) (writes : List PortWrite) : History where
  time := h.time + 1
  driver := writes.foldl (issue u) h.driver
  starts := h.starts ++
    ((triggered u h.driver writes).map fun x => Start.mk h.time x.1 x.2).toList

/-- The results that are visible at a port from the start of a cycle on. -/
def Arrives (u : FunctionUnit) (starts : List Start) (time port value : Nat) : Prop :=
  ∃ x ∈ starts, ∃ latency, x.operation.Yields u.outputWidth x.inputs latency port value ∧
    x.time + latency = time

/-- In every cycle with a trigger one of the operations is set. -/
def Issued (u : FunctionUnit) : Ports × Option Nat → List (List PortWrite) → Prop
  | _, [] => True
  | d, writes :: cycles =>
    (writes.any PortWrite.triggers = true → ∃ x, triggered u d writes = some x) ∧
      Issued u (writes.foldl (issue u) d) cycles

/-- The state and the history go together: what is in flight arrives later. -/
structure Tracks (u : FunctionUnit) (s : FUState) (h : History) : Prop where
  rested : Rested u s
  driver_eq : (s.inputPorts, s.nextOperation) = h.driver
  inFlight : ∀ n port value,
    Simulator.InFlight u.outputWidth u.operations s.executors n port value ↔
      1 ≤ n ∧ Arrives u h.starts (h.time + n) port value

theorem Tracks.cycle {u : FunctionUnit} {s : FUState} {h : History} (ht : Tracks u s h)
    (hissued : writes.any PortWrite.triggers = true → ∃ x, triggered u h.driver writes = some x) :
    ∃ s', s.cycle u writes = .ok s' ∧ Tracks u s' (h.record u writes) ∧
      Delivered s.outputPorts s'.outputPorts
        (Arrives u (h.record u writes).starts (h.time + 1)) := by
  rw [← ht.driver_eq] at hissued
  obtain ⟨s', hok, hrested, hdriver, hdeliv, hflight⟩ := cycle_spec ht.rested hissued
  rw [ht.driver_eq] at hdriver hdeliv hflight
  have hdue (n port value : Nat) (hn : 1 ≤ n) :
      Due u s (triggered u h.driver writes) n port value ↔
        Arrives u (h.record u writes).starts (h.time + n) port value := by
    rw [Due, ht.inFlight]
    constructor
    · rintro (⟨-, x, hx, l, hy, htime⟩ | ⟨x, hx, hy⟩)
      · exact ⟨x, List.mem_append_left _ hx, l, hy, htime⟩
      · refine ⟨⟨h.time, x.1, x.2⟩, List.mem_append_right _ ?_, n, hy, rfl⟩
        rw [hx]
        exact List.mem_singleton_self _
    · rintro ⟨x, hx, l, hy, htime⟩
      rcases List.mem_append.1 hx with hx | hx
      · exact .inl ⟨hn, x, hx, l, hy, htime⟩
      · obtain ⟨y, hy', rfl⟩ := Option.map_eq_some_iff.1 (Option.mem_toList.1 hx)
        have hl : l = n := Nat.add_left_cancel htime
        exact .inr ⟨y, hy', hl ▸ hy⟩
  refine ⟨s', hok, ⟨hrested, hdriver, ?_⟩, ?_⟩
  · intro n port value
    rw [hflight]
    apply and_congr_right
    intro hn
    have htime : (h.record u writes).time + n = h.time + (n + 1) := by
      change h.time + 1 + n = _
      omega
    rw [htime]
    exact hdue (n + 1) port value (by omega)
  · exact hdeliv.congr fun port value => hdue 1 port value (Nat.le_refl 1)

theorem Tracks.run {u : FunctionUnit} {s : FUState} {h : History} (ht : Tracks u s h)
    (hissued : Issued u h.driver (cycles ++ rest)) :
    ∃ s', cycles.foldlM (FUState.cycle u) s = .ok s' ∧
      Tracks u s' (cycles.foldl (History.record u) h) ∧
      Issued u (cycles.foldl (History.record u) h).driver rest ∧
      (cycles.foldl (History.record u) h).time = h.time + cycles.length := by
  induction cycles generalizing s h with
  | nil => exact ⟨s, rfl, ht, hissued, rfl⟩
  | cons writes cycles ih =>
    obtain ⟨hfirst, hrest⟩ := hissued
    obtain ⟨s₁, hok, ht₁, -⟩ := ht.cycle hfirst
    obtain ⟨s', hrun, ht', hissued', htime⟩ := ih ht₁ hrest
    rw [List.foldlM_cons, hok]
    refine ⟨s', hrun, ht', hissued', ?_⟩
    rw [List.foldl_cons, htime, List.length_cons]
    change h.time + 1 + cycles.length = _
    omega

/-- A unit with one operation, which increments the value of a port in two cycles. -/
def incrementer : FunctionUnit where
  operations := [{
    inputs := [0]
    outputs := [⟨0, 32, 2⟩]
    latency := 2
    executor := .simple
    simulateTrigger := fun inputs _ => inputs.sum + 1
    ready := fun _ => true
    latency_pos := by decide
    latency_le := by decide
    output_pos := by decide
    output_le := by decide
    output_eq := by decide
    oneCycle := by decide
    operands_le := by decide }]
  inputWidth := fun _ => 32
  outputWidth := fun _ => 32

end FUState

end Simulator

end OpenAsip
