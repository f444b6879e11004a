import Mathlib.Data.List.Nodup
import Mathlib.Data.List.Perm.Subperm
import OpenAsip.SimpleExecutors

namespace OpenAsip
set_option autoImplicit true

namespace Simulator

/-- The counter of a result when its operation is in the given stage. A result that has been written
counts down from `INT_MAX`. -/
def PendingResult.countAt (stage : Nat) (r : PendingResult) : Int :=
  if stage < r.resultLatency then r.resultLatency - stage else intMax - (stage - r.resultLatency)

def PendingResult.at (stage : Nat) (r : PendingResult) : PendingResult :=
  { r with cyclesToGo := r.countAt stage }

/-- The counter reaches zero in the cycle before the result is visible, and then starts anew. -/
theorem PendingResult.countAt_arrival {r : PendingResult} (h : r.resultLatency = n + 1) :
    r.countAt n - 1 = 0 ∧ r.countAt (n + 1) = intMax := by
  rw [countAt, countAt, if_pos (by omega), if_neg (by omega)]
  omega

theorem PendingResult.countAt_succ {r : PendingResult} {n : Nat} (h : r.resultLatency ≠ n + 1)
    (hpos : 0 < r.resultLatency) (hn : (n : Int) < intMax) :
    r.countAt n - 1 ≠ 0 ∧ r.countAt (n + 1) = r.countAt n - 1 := by
  rw [countAt, countAt]
  by_cases hlt : n < r.resultLatency
  · rw [if_pos hlt, if_pos (by omega)]
    omega
  · rw [if_neg hlt, if_neg (by omega)]
    omega

theorem PendingResult.advanceCycle_spec (width : Nat → Nat) (r : PendingResult) (ports : Ports)
    {n : Nat} (hpos : 0 < r.resultLatency) (hn : (n : Int) < intMax)
    (hcount : r.cyclesToGo = r.countAt n) :
    (r.advanceCycle width ports).1 = r.at (n + 1) ∧
      Delivered ports (r.advanceCycle width ports).2
        fun p v => r.resultLatency = n + 1 ∧ p = r.target ∧ v = r.result % 2 ^ width p := by
  rw [advanceCycle, hcount, PendingResult.at]
  by_cases hnow : r.resultLatency = n + 1
  · obtain ⟨hzero, hmax⟩ := countAt_arrival hnow
    rw [if_pos hzero, hmax]
    refine ⟨rfl, (Delivered.update ports r.target _).congr ?_⟩
    intro p v
    constructor
    · rintro ⟨rfl, rfl⟩
      exact ⟨hnow, rfl, rfl⟩
    · rintro ⟨-, rfl, rfl⟩
      exact ⟨rfl, rfl⟩
  · obtain ⟨hne, hsucc⟩ := countAt_succ hnow hpos hn
    rw [if_neg hne, hsucc]
    exact ⟨rfl, Delivered.none ports fun p v h => hnow h.1⟩

namespace ExecutingOperation

theorem advanceResults_spec (width : Nat → Nat) (results : List PendingResult) (ports : Ports)
    {n : Nat} (hpos : ∀ r ∈ results, 0 < r.resultLatency) (hn : (n : Int) < intMax)
    (hcount : ∀ r ∈ results, r.cyclesToGo = r.countAt n) :
    (advanceResults width results ports).1 = results.map (PendingResult.at (n + 1)) ∧
      Delivered ports (advanceResults width results ports).2
        fun p v => ∃ r ∈ results, r.resultLatency = n + 1 ∧ p = r.target ∧
          v = r.result % 2 ^ width p := by
  induction results generalizing ports with
  | nil => exact ⟨rfl, Delivered.none ports fun p v ⟨r, hr, _⟩ => List.not_mem_nil hr⟩
  | cons r results ih =>
    obtain ⟨hfirst, hdeliv⟩ := r.advanceCycle_spec width ports (hpos r List.mem_cons_self) hn
      (hcount r List.mem_cons_self)
    obtain ⟨hrest, hdeliv'⟩ := ih (r.advanceCycle width ports).2
      (fun s hs => hpos s (List.mem_cons_of_mem r hs))
      fun s hs => hcount s (List.mem_cons_of_mem r hs)
    constructor
    · rw [advanceResults, hfirst, hrest, List.map_cons]
    · apply (hdeliv.trans hdeliv').congr
      intro p v
      constructor
      · rintro (h | ⟨s, hs, h⟩)
        · exact ⟨r, List.mem_cons_self, h⟩
        · exact ⟨s, List.mem_cons_of_mem r hs, h⟩
      · rintro ⟨s, hs, h⟩
        rcases List.mem_cons.1 hs with rfl | hs
        · exact .inl h
        · exact .inr ⟨s, hs, h⟩

/-- The value that a result will have in its port. It is computed in the first stage. -/
def resultValue (width : Nat → Nat) (op : HWOperation) (e : ExecutingOperation) (k : Nat)
    (r : PendingResult) : Nat :=
  (if e.stage = 0 then op.simulateTrigger e.inputs k else r.result) % 2 ^ width r.target

/-- A value is written to a port when the clock has advanced `n` times. -/
def InFlight (width : Nat → Nat) (op : HWOperation) (e : ExecutingOperation)
    (n port value : Nat) : Prop :=
  e.free = false ∧ ∃ (k : Nat) (r : PendingResult), e.pendingResults[k]? = some r ∧
    r.resultLatency = e.stage + n ∧ 1 ≤ n ∧ port = r.target ∧ value = e.resultValue width op k r

/-- The results are those of the operation. -/
def Bound (op : HWOperation) (e : ExecutingOperation) : Prop :=
  e.pendingResults.map (fun r => (r.target, r.resultLatency)) =
    op.outputs.map fun o => (o.port, o.latency)

/-- A slot in use is in a stage before the last one, with its counters accordingly. -/
structure Timed (op : HWOperation) (e : ExecutingOperation) : Prop where
  bound : e.Bound op
  stage_lt : e.stage < op.latency
  counts : ∀ r ∈ e.pendingResults, r.cyclesToGo = r.countAt e.stage

theorem Bound.get {r : PendingResult} {k : Nat} (h : Bound op e) (hr : e.pendingResults[k]? = some r) :
    ∃ o : Output, op.outputs[k]? = some o ∧ o.port = r.target ∧ o.latency = r.resultLatency := by
  have hget := congrArg (fun l : List (Nat × Nat) => l[k]?) h
  rw [List.getElem?_map, List.getElem?_map, hr] at hget
  obtain ⟨o, ho, heq⟩ := Option.map_eq_some_iff.1 hget.symm
  obtain ⟨hport, hlat⟩ := Prod.mk.inj heq
  exact ⟨o, ho, hport, hlat⟩

theorem Bound.latency {r : PendingResult} (h : Bound op e) (hr : r ∈ e.pendingResults) :
    0 < r.resultLatency ∧ r.resultLatency ≤ op.latency := by
  obtain ⟨k, hk⟩ := List.mem_iff_getElem?.1 hr
  obtain ⟨o, ho, -, hlat⟩ := h.get hk
  have hmem := List.mem_of_getElem? ho
  exact ⟨hlat ▸ op.output_pos o hmem, hlat ▸ op.output_le o hmem⟩

/-- The results as they are when the clock advances: those of the first stage are computed then. -/
def computed (width : Nat → Nat) (op : HWOperation) (e : ExecutingOperation) (k : Nat)
    (r : PendingResult) : PendingResult :=
  { r with result := if e.stage = 0 then op.simulateTrigger e.inputs k % 2 ^ width r.target
      else r.result }

theorem computed_value (width : Nat → Nat) (op : HWOperation) (e : ExecutingOperation) (k : Nat)
    (r : PendingResult) : (computed width op e k r).result % 2 ^ width r.target =
      e.resultValue width op k r := by
  rw [computed, resultValue]
  split
  · exact Nat.mod_mod _ _
  · rfl

/-- The slot after the clock has advanced. -/
def next (width : Nat → Nat) (op : HWOperation) (e : ExecutingOperation) : ExecutingOperation where
  inputs := e.inputs
  pendingResults := (e.pendingResults.mapIdx (e.computed width op)).map
    (PendingResult.at (e.stage + 1))
  stage := e.stage + 1
  free := decide (e.stage + 1 = op.latency)

theorem getElem?_mapIdx_computed (width : Nat → Nat) (op : HWOperation) (e : ExecutingOperation)
    (k : Nat) : (e.pendingResults.mapIdx (e.computed width op))[k]? =
      e.pendingResults[k]?.map (e.computed width op k) :=
  List.getElem?_mapIdx

theorem mem_computed {e : ExecutingOperation} {r : PendingResult}
    (hr : r ∈ e.pendingResults.mapIdx (e.computed width op)) :
    ∃ k s, e.pendingResults[k]? = some s ∧ r = e.computed width op k s := by
  obtain ⟨k, hk⟩ := List.mem_iff_getElem?.1 hr
  rw [getElem?_mapIdx_computed] at hk
  obtain ⟨s, hs, rfl⟩ := Option.map_eq_some_iff.1 hk
  exact ⟨k, s, hs, rfl⟩

theorem simulateTrigger_eq (width : Nat → Nat) (op : HWOperation) (e : ExecutingOperation) :
    (if e.stage = 0 then e.simulateTrigger width op else e) =
      { e with pendingResults := e.pendingResults.mapIdx (e.computed width op) } := by
  split
  · rename_i h0
    rw [simulateTrigger]
    congr 1
    apply List.ext_getElem?
    intro k
    rw [List.getElem?_mapIdx, getElem?_mapIdx_computed]
    cases e.pendingResults[k]? with
    | none => rfl
    | some r =>
      rw [Option.map_some, Option.map_some, computed, if_pos h0]
  · rename_i h0
    have hid : e.pendingResults.mapIdx (e.computed width op) = e.pendingResults := by
      apply List.ext_getElem?
      intro k
      rw [getElem?_mapIdx_computed]
      cases e.pendingResults[k]? with
      | none => rfl
      | some r =>
        rw [Option.map_some, computed, if_neg h0]
    rw [hid]

theorem Timed.advance (width : Nat → Nat) (h : Timed op e) (hfree : e.free = false) (ports : Ports) :
    (e.advance width op ports).1 = e.next width op ∧
      Delivered ports (e.advance width op ports).2 (e.InFlight width op 1) := by
  have hstage : ((e.stage : Nat) : Int) < intMax := by
    have hlt := h.stage_lt
    have hle := op.latency_le
    omega
  obtain ⟨hresults, hdeliv⟩ := advanceResults_spec width
    (e.pendingResults.mapIdx (e.computed width op)) ports
    (by
      intro r hr
      obtain ⟨k, s, hs, rfl⟩ := mem_computed hr
      exact (h.bound.latency (List.mem_of_getElem? hs)).1)
    hstage
    (by
      intro r hr
      obtain ⟨k, s, hs, rfl⟩ := mem_computed hr
      exact h.counts s (List.mem_of_getElem? hs))
  rw [ExecutingOperation.advance, simulateTrigger_eq, advanceCycle]
  constructor
  · dsimp only
    rw [hresults, hfree]
    rfl
  · apply hdeliv.congr
    intro p v
    constructor
    · rintro ⟨r, hr, hlat, rfl, rfl⟩
      obtain ⟨k, s, hs, rfl⟩ := mem_computed hr
      exact ⟨hfree, k, s, hs, hlat, Nat.le_refl 1, rfl, computed_value width op e k s⟩
    · rintro ⟨-, k, r, hr, hlat, -, rfl, rfl⟩
      refine ⟨e.computed width op k r, ?_, hlat, rfl, (computed_value width op e k r).symm⟩
      apply List.mem_of_getElem? (i := k)
      rw [getElem?_mapIdx_computed, hr]
      rfl

theorem getElem?_next (width : Nat → Nat) (op : HWOperation) (e : ExecutingOperation) (k : Nat) :
    (e.next width op).pendingResults[k]? =
      e.pendingResults[k]?.map fun r => (e.computed width op k r).at (e.stage + 1) := by
  rw [next, List.getElem?_map, getElem?_mapIdx_computed, Option.map_map]
  rfl

theorem Bound.next (h : Bound op e) : Bound op (e.next width op) := by
  rw [Bound, ← h]
  apply List.ext_getElem?
  intro k
  rw [List.getElem?_map, getElem?_next, List.getElem?_map, Option.map_map]
  rfl

theorem Timed.next (h : Timed op e) (hfree : (e.next width op).free = false) :
    Timed op (e.next width op) := by
  have hne : e.stage + 1 ≠ op.latency := of_decide_eq_false hfree
  have hlt := h.stage_lt
  refine ⟨h.bound.next, ?_, ?_⟩
  · change e.stage + 1 < op.latency
    omega
  · intro r hr
    obtain ⟨s, -, rfl⟩ := List.mem_map.1 hr
    rfl

theorem Timed.inFlight_next (h : Timed op e) (hfree : e.free = false) :
    InFlight width op (e.next width op) n port value ↔
      1 ≤ n ∧ InFlight width op e (n + 1) port value := by
  have hvalue (k : Nat) (r : PendingResult) :
      (e.next width op).resultValue width op k ((e.computed width op k r).at (e.stage + 1)) =
        e.resultValue width op k r := by
    rw [resultValue, ExecutingOperation.next, if_neg (Nat.succ_ne_zero _)]
    exact computed_value width op e k r
  constructor
  · rintro ⟨-, k, s, hs, hlat, hn, rfl, rfl⟩
    rw [getElem?_next] at hs
    obtain ⟨r, hr, rfl⟩ := Option.map_eq_some_iff.1 hs
    change r.resultLatency = e.stage + 1 + n at hlat
    exact ⟨hn, hfree, k, r, hr, by omega, by omega, rfl, hvalue k r⟩
  · rintro ⟨hn, -, k, r, hr, hlat, -, rfl, rfl⟩
    have hle := (h.bound.latency (List.mem_of_getElem? hr)).2
    refine ⟨decide_eq_false (by omega), k, (e.computed width op k r).at (e.stage + 1), ?_, ?_, hn,
      rfl, (hvalue k r).symm⟩
    · rw [getElem?_next, hr]
      rfl
    · change r.resultLatency = e.stage + 1 + n
      omega

end ExecutingOperation

namespace MultiLatencyOperationExecutor

/-- The executor is in a state that its operations lead to. The slots in use are in different
stages, since at most one operation is started in a cycle. -/
structure Ok (op : HWOperation) (e : MultiLatencyOperationExecutor) : Prop where
  length_eq : e.executingOps.length = op.latency
  bound : e.execOperationsInitialized = true → ∀ x ∈ e.executingOps, x.Bound op
  fresh : e.execOperationsInitialized = false →
    ∀ x ∈ e.executingOps, x.pendingResults = [] ∧ x.free = true
  timed : ∀ x ∈ e.executingOps, x.free = false → x.Timed op
  stages_ne : ∀ (i j : Nat) (x y : ExecutingOperation), e.executingOps[i]? = some x →
    e.executingOps[j]? = some y → x.free = false → y.free = false → x.stage = y.stage → i = j
  freeExecOp : ∀ i, e.freeExecOp = some i →
    ∃ x : ExecutingOperation, e.executingOps[i]? = some x ∧ x.free = true
  flagged : ∀ x ∈ e.executingOps, x.free = false → e.hasPendingOperations = true

/-- No operation has been started in this cycle. -/
def Ready (e : MultiLatencyOperationExecutor) : Prop :=
  ∀ x ∈ e.executingOps, x.free = false → 0 < x.stage

def InFlight (width : Nat → Nat) (op : HWOperation) (e : MultiLatencyOperationExecutor)
    (n port value : Nat) : Prop :=
  ∃ x ∈ e.executingOps, x.InFlight width op n port value

theorem mem_new (h : x ∈ (new latency).executingOps) : x = ⟨[], [], 0, true⟩ :=
  List.eq_of_mem_replicate h

theorem new_ok (op : HWOperation) : Ok op (new op.latency) where
  length_eq := List.length_replicate
  bound := fun h => (Bool.false_ne_true h).elim
  fresh := by
    intro _ x hx
    rw [mem_new hx]
    exact ⟨rfl, rfl⟩
  timed := by
    intro x hx hfree
    rw [mem_new hx] at hfree
    cases hfree
  stages_ne := by
    intro i j x y hx _ hfree
    rw [mem_new (List.mem_of_getElem? hx)] at hfree
    cases hfree
  freeExecOp := fun i h => (Option.some_ne_none i h.symm).elim
  flagged := fun _ _ _ => rfl

theorem new_ready (latency : Nat) : Ready (new latency) := by
  intro x hx hfree
  rw [mem_new hx] at hfree
  cases hfree

theorem not_inFlight_new : ¬ InFlight width op (new latency) n port value := by
  rintro ⟨x, hx, hfree, -⟩
  rw [mem_new hx] at hfree
  cases hfree

/-- There are as many slots as stages, so one of them is free. -/
theorem Ok.exists_free (h : Ok op e) (hready : e.Ready) : ∃ x ∈ e.executingOps, x.free = true := by
  apply Classical.byContradiction
  intro hnone
  have hused (x : ExecutingOperation) (hx : x ∈ e.executingOps) : x.free = false := by
    cases hfree : x.free with
    | false => rfl
    | true => exact (hnone ⟨x, hx, hfree⟩).elim
  have hnodup : (e.executingOps.map ExecutingOperation.stage).Nodup := by
    apply List.nodup_iff_getElem?_ne_getElem?.2
    intro i j hij hj heq
    rw [List.length_map] at hj
    rw [List.getElem?_map, List.getElem?_map, List.getElem?_eq_getElem (Nat.lt_trans hij hj),
      List.getElem?_eq_getElem hj] at heq
    have hsame := h.stages_ne i j _ _ (List.getElem?_eq_getElem (Nat.lt_trans hij hj))
      (List.getElem?_eq_getElem hj) (hused _ (List.getElem_mem _)) (hused _ (List.getElem_mem _))
      (Option.some.inj heq)
    omega
  have hsub : e.executingOps.map ExecutingOperation.stage ⊆ List.range' 1 (op.latency - 1) := by
    intro n hn
    obtain ⟨x, hx, rfl⟩ := List.mem_map.1 hn
    have hpos := hready x hx (hused x hx)
    have hlt := (h.timed x hx (hused x hx)).stage_lt
    exact List.mem_range'_1.2 ⟨hpos, by omega⟩
  have hle := (List.subperm_of_subset hnodup hsub).length_le
  rw [List.length_map, h.length_eq, List.length_range'] at hle
  have hpos := op.latency_pos
  omega

theorem Ok.findFree (h : Ok op e) (hready : e.Ready) :
    ∃ (i : Nat) (x : ExecutingOperation), e.findFreeExecutingOperation = .ok i ∧
      e.executingOps[i]? = some x ∧ x.free = true := by
  rw [findFreeExecutingOperation]
  cases hf : e.freeExecOp with
  | some i =>
    obtain ⟨x, hx, hfree⟩ := h.freeExecOp i hf
    exact ⟨i, x, rfl, hx, hfree⟩
  | none =>
    obtain ⟨x, hx, hfree⟩ := h.exists_free hready
    have hlt : e.executingOps.findIdx ExecutingOperation.free < e.executingOps.length :=
      List.findIdx_lt_length_of_exists ⟨x, hx, hfree⟩
    dsimp only
    rw [if_neg (List.ne_nil_of_mem hx), Nat.min_eq_left (by omega)]
    exact ⟨_, _, rfl, List.getElem?_eq_getElem hlt, List.findIdx_getElem⟩

/-- Before the first operation all slots get their results. They are free then. -/
theorem Ok.initializedOps {j : Nat} {y : ExecutingOperation} (h : Ok op e)
    (hy : (e.initializedOps op)[j]? = some y) :
    y.Bound op ∧ ∃ x, e.executingOps[j]? = some x ∧ x.free = y.free ∧
      (x.free = false → x = y) := by
  rw [MultiLatencyOperationExecutor.initializedOps] at hy
  split at hy
  · rename_i hinit
    exact ⟨h.bound hinit y (List.mem_of_getElem? hy), y, hy, rfl, fun _ => rfl⟩
  · rename_i hinit
    rw [List.getElem?_map] at hy
    obtain ⟨x, hx, rfl⟩ := Option.map_eq_some_iff.1 hy
    obtain ⟨hnil, hfree⟩ := h.fresh (Bool.not_eq_true _ ▸ hinit) x
      (List.mem_of_getElem? hx)
    refine ⟨?_, x, hx, rfl, ?_⟩
    · rw [ExecutingOperation.Bound, ExecutingOperation.initPendingResults, hnil, List.nil_append,
        List.map_map]
      rfl
    · intro hused
      rw [hfree] at hused
      cases hused

theorem Ok.getElem?_initializedOps {j : Nat} {x : ExecutingOperation} (h : Ok op e)
    (hx : e.executingOps[j]? = some x) :
    ∃ y, (e.initializedOps op)[j]? = some y ∧ (x.free = false → y = x) := by
  have hlt : j < (e.initializedOps op).length := by
    have hlt := (List.getElem?_eq_some_iff.1 hx).1
    rw [MultiLatencyOperationExecutor.initializedOps]
    split
    · exact hlt
    · rwa [List.length_map]
  obtain ⟨-, x', hx', -, heq⟩ := h.initializedOps (List.getElem?_eq_getElem hlt)
  rw [hx] at hx'
  cases hx'
  exact ⟨_, List.getElem?_eq_getElem hlt, fun hfree => (heq hfree).symm⟩

/-- A slot in which an operation is started. -/
theorem started_timed {x : ExecutingOperation} (h : x.Bound op) (inputs : List Nat) :
    ExecutingOperation.Timed op { x with inputs := inputs }.start := by
  refine ⟨?_, op.latency_pos, ?_⟩
  · rw [ExecutingOperation.Bound, ← h, ExecutingOperation.start, List.map_map]
    rfl
  · intro r hr
    obtain ⟨s, hs, rfl⟩ := List.mem_map.1 hr
    have hpos := (h.latency hs).1
    change (s.resultLatency : Int) = if 0 < s.resultLatency then _ else _
    rw [if_pos hpos]
    exact (Int.sub_zero _).symm

theorem started_inFlight {x : ExecutingOperation} (hop : op.executor = .multiLatency)
    (h : x.Bound op) (inputs : List Nat) :
    ExecutingOperation.InFlight width op { x with inputs := inputs }.start n port value ↔
      op.Yields width inputs n port value := by
  have hvalue (k : Nat) (o : Output) (r : PendingResult) (ho : o.port = r.target) :
      ExecutingOperation.resultValue width op { x with inputs := inputs }.start k r =
        op.portValue width o (op.simulateTrigger inputs k) := by
    rw [ExecutingOperation.resultValue, HWOperation.portValue, hop, ho]
    rfl
  have hbound : ExecutingOperation.Bound op { x with inputs := inputs }.start :=
    (started_timed h inputs).bound
  constructor
  · rintro ⟨-, k, r, hr, hlat, -, rfl, rfl⟩
    obtain ⟨o, ho, hport, ho'⟩ := hbound.get hr
    change r.resultLatency = 0 + n at hlat
    exact ⟨k, o, ho, by omega, hport.symm, hvalue k o r hport⟩
  · rintro ⟨k, o, ho, rfl, rfl, rfl⟩
    have hget := congrArg (fun l : List (Nat × Nat) => l[k]?) hbound
    rw [List.getElem?_map, List.getElem?_map, ho] at hget
    obtain ⟨r, hr, heq⟩ := Option.map_eq_some_iff.1 hget
    obtain ⟨hport, hlat⟩ := Prod.mk.inj heq
    refine ⟨rfl, k, r, hr, ?_, op.output_pos o (List.mem_of_getElem? ho), hport.symm,
      (hvalue k o r hport.symm).symm⟩
    change r.resultLatency = 0 + o.latency
    omega

theorem startOperation_spec (width : Nat → Nat) (hop : op.executor = .multiLatency) (hok : Ok op e)
    (hready : e.Ready) (inputs : List Nat) :
    ∃ e', e.startOperation op inputs = .ok e' ∧ Ok op e' ∧ e'.hasPendingOperations = true ∧
      e'.execOperationsInitialized = true ∧ ∀ n port value,
        InFlight width op e' n port value ↔
          InFlight width op e n port value ∨ op.Yields width inputs n port value := by
  obtain ⟨i, x, hfind, hx, hfree⟩ := hok.findFree hready
  obtain ⟨y, hy, -⟩ := hok.getElem?_initializedOps hx
  have hybound := (hok.initializedOps hy).1
  have hself : ((e.initializedOps op).modify i fun x => { x with inputs := inputs }.start)[i]? =
      some { y with inputs := inputs }.start := by
    rw [List.getElem?_modify_eq, hy]
    rfl
  have hother (j : Nat) (hne : i ≠ j) :
      ((e.initializedOps op).modify i fun x => { x with inputs := inputs }.start)[j]? =
        (e.initializedOps op)[j]? :=
    List.getElem?_modify_ne _ _ hne
  -- a slot is the one of the new operation or one that was there
  have hcases {z : ExecutingOperation} {j : Nat}
      (hz : ((e.initializedOps op).modify i fun x => { x with inputs := inputs }.start)[j]? =
        some z) :
      (j = i ∧ z = { y with inputs := inputs }.start) ∨
        (j ≠ i ∧ z.Bound op ∧ (z.free = false → e.executingOps[j]? = some z)) := by
    by_cases he : i = j
    · subst he
      rw [hself] at hz
      exact .inl ⟨rfl, (Option.some.inj hz).symm⟩
    · rw [hother j he] at hz
      obtain ⟨hbound, x', hx', hxfree, heq⟩ := hok.initializedOps hz
      refine .inr ⟨fun h => he h.symm, hbound, fun hz' => ?_⟩
      rw [hx', heq (hxfree.trans hz')]
  rw [startOperation, hfind]
  refine ⟨_, rfl, ?_, rfl, rfl, ?_⟩
  · constructor
    · rw [List.length_modify, MultiLatencyOperationExecutor.initializedOps]
      split
      · exact hok.length_eq
      · rw [List.length_map, hok.length_eq]
    · intro _ z hz
      obtain ⟨j, hj⟩ := List.mem_iff_getElem?.1 hz
      rcases hcases hj with ⟨-, rfl⟩ | ⟨-, hbound, -⟩
      · exact (started_timed hybound inputs).bound
      · exact hbound
    · intro h
      cases h
    · intro z hz hzfree
      obtain ⟨j, hj⟩ := List.mem_iff_getElem?.1 hz
      rcases hcases hj with ⟨-, rfl⟩ | ⟨-, -, hold⟩
      · exact started_timed hybound inputs
      · exact hok.timed z (List.mem_of_getElem? (hold hzfree)) hzfree
    · intro j k z w hz hw hzfree hwfree hstage
      rcases hcases hz with ⟨rfl, rfl⟩ | ⟨-, -, hzold⟩
      · rcases hcases hw with ⟨rfl, -⟩ | ⟨-, -, hwold⟩
        · rfl
        · have hpos := hready w (List.mem_of_getElem? (hwold hwfree)) hwfree
          change 0 = w.stage at hstage
          omega
      · rcases hcases hw with ⟨rfl, rfl⟩ | ⟨-, -, hwold⟩
        · have hpos := hready z (List.mem_of_getElem? (hzold hzfree)) hzfree
          change z.stage = 0 at hstage
          omega
        · exact hok.stages_ne j k z w (hzold hzfree) (hwold hwfree) hzfree hwfree hstage
    · intro j hj
      cases hj
    · exact fun _ _ _ => rfl
  · intro n port value
    constructor
    · rintro ⟨z, hz, hflight⟩
      obtain ⟨j, hj⟩ := List.mem_iff_getElem?.1 hz
      rcases hcases hj with ⟨-, rfl⟩ | ⟨-, -, hold⟩
      · exact .inr ((started_inFlight hop hybound inputs).1 hflight)
      · exact .inl ⟨z, List.mem_of_getElem? (hold hflight.1), hflight⟩
    · rintro (⟨z, hz, hflight⟩ | hyields)
      · obtain ⟨j, hj⟩ := List.mem_iff_getElem?.1 hz
        have hne : i ≠ j := by
          intro he
          rw [← he, hx] at hj
          cases hj
          cases hfree.symm.trans hflight.1
        obtain ⟨z', hz', heq⟩ := hok.getElem?_initializedOps hj
        rw [heq hflight.1] at hz'
        rw [← hother j hne] at hz'
        exact ⟨z, List.mem_of_getElem? hz', hflight⟩
      · exact ⟨_, List.mem_of_getElem? hself, (started_inFlight hop hybound inputs).2 hyields⟩

/-- What the loop of `advanceClock` does to the slots. -/
def nextOps (width : Nat → Nat) (op : HWOperation) (ops : List ExecutingOperation) :
    List ExecutingOperation :=
  ops.map fun x => if x.free then x else x.next width op

theorem advanceLoop_spec (width : Nat → Nat) (ops : List ExecutingOperation)
    (htimed : ∀ x ∈ ops, x.free = false → x.Timed op) (i : Nat) (ports : Ports)
    (freeExecOp : Option Nat) (found : Bool) :
    (advanceLoop width op i ops ports freeExecOp found).1 = nextOps width op ops ∧
      Delivered ports (advanceLoop width op i ops ports freeExecOp found).2.1
        (fun p v => ∃ x ∈ ops, x.InFlight width op 1 p v) ∧
      (∀ j, (advanceLoop width op i ops ports freeExecOp found).2.2.1 = some j →
        freeExecOp = some j ∨ ∃ (k : Nat) (x : ExecutingOperation), j = i + k ∧
          ops[k]? = some x ∧ x.free = true) ∧
      (found = true ∨ (∃ x ∈ ops, x.free = false) →
        (advanceLoop width op i ops ports freeExecOp found).2.2.2 = true) := by
  induction ops generalizing i ports freeExecOp found with
  | nil =>
    refine ⟨rfl, Delivered.none ports fun p v ⟨x, hx, _⟩ => List.not_mem_nil hx,
      fun j hj => .inl hj, ?_⟩
    rintro (hfound | ⟨x, hx, -⟩)
    · exact hfound
    · cases hx
  | cons e ops ih =>
    have htail (x : ExecutingOperation) (hx : x ∈ ops) (hfree : x.free = false) : x.Timed op :=
      htimed x (List.mem_cons_of_mem e hx) hfree
    cases hfree : e.free with
    | true =>
      obtain ⟨hops, hdeliv, hslot, hfound⟩ := ih htail (i + 1) ports (some i) found
      rw [advanceLoop, if_pos hfree]
      refine ⟨?_, ?_, ?_, ?_⟩
      · dsimp only
        rw [hops, nextOps, nextOps, List.map_cons, if_pos hfree]
      · apply hdeliv.congr
        intro p v
        constructor
        · rintro ⟨x, hx, hflight⟩
          exact ⟨x, List.mem_cons_of_mem e hx, hflight⟩
        · rintro ⟨x, hx, hflight⟩
          rcases List.mem_cons.1 hx with rfl | hx
          · cases hfree.symm.trans hflight.1
          · exact ⟨x, hx, hflight⟩
      · intro j hj
        rcases hslot j hj with hi | ⟨k, x, rfl, hx, hxfree⟩
        · cases hi
          exact .inr ⟨0, e, rfl, rfl, hfree⟩
        · exact .inr ⟨k + 1, x, by omega, hx, hxfree⟩
      · rintro (hf | ⟨x, hx, hused⟩)
        · exact hfound (.inl hf)
        · rcases List.mem_cons.1 hx with rfl | hx
          · cases hfree.symm.trans hused
          · exact hfound (.inr ⟨x, hx, hused⟩)
    | false =>
      obtain ⟨hnext, hdeliv⟩ :=
        (htimed e List.mem_cons_self hfree).advance width hfree ports
      obtain ⟨hops, hdeliv', hslot, hfound⟩ :=
        ih htail (i + 1) (e.advance width op ports).2 freeExecOp true
      have hneg : ¬ e.free = true := by
        rw [hfree]
        exact Bool.false_ne_true
      rw [advanceLoop, if_neg hneg]
      refine ⟨?_, ?_, ?_, ?_⟩
      · dsimp only
        rw [hops, hnext, nextOps, nextOps, List.map_cons, if_neg hneg]
      · apply (hdeliv.trans hdeliv').congr
        intro p v
        constructor
        · rintro (hflight | ⟨x, hx, hflight⟩)
          · exact ⟨e, List.mem_cons_self, hflight⟩
          · exact ⟨x, List.mem_cons_of_mem e hx, hflight⟩
        · rintro ⟨x, hx, hflight⟩
          rcases List.mem_cons.1 hx with rfl | hx
          · exact .inl hflight
          · exact .inr ⟨x, hx, hflight⟩
      · intro j hj
        rcases hslot j hj with hi | ⟨k, x, rfl, hx, hxfree⟩
        · exact .inl hi
        · exact .inr ⟨k + 1, x, by omega, hx, hxfree⟩
      · intro _
        exact hfound (.inl rfl)

/-- A slot after the clock has advanced is used only if it was so before. -/
theorem getElem?_nextOps {ops : List ExecutingOperation} {j : Nat} {y : ExecutingOperation}
    (hy : (nextOps width op ops)[j]? = some y) :
    ∃ x, ops[j]? = some x ∧ ((x.free = true ∧ y = x) ∨
      (x.free = false ∧ y = x.next width op)) := by
  rw [nextOps, List.getElem?_map] at hy
  obtain ⟨x, hx, rfl⟩ := Option.map_eq_some_iff.1 hy
  refine ⟨x, hx, ?_⟩
  cases hfree : x.free with
  | true => exact .inl ⟨rfl, if_pos rfl⟩
  | false => exact .inr ⟨rfl, if_neg Bool.false_ne_true⟩

theorem advanceClock_spec (width : Nat → Nat) (hok : Ok op e) (ports : Ports) :
    Ok op (e.advanceClock width op ports).1 ∧ (e.advanceClock width op ports).1.Ready ∧
      Delivered ports (e.advanceClock width op ports).2 (InFlight width op e 1) ∧
      (∀ n port value, InFlight width op (e.advanceClock width op ports).1 n port value ↔
        1 ≤ n ∧ InFlight width op e (n + 1) port value) ∧
      (e.advanceClock width op ports).1.execOperationsInitialized =
        e.execOperationsInitialized := by
  obtain ⟨hops, hdeliv, hslot, hfound⟩ := advanceLoop_spec width e.executingOps
    hok.timed 0 ports e.freeExecOp false
  rw [advanceClock, hops]
  -- a used slot comes from a used slot one stage earlier
  have hused {y : ExecutingOperation} {j : Nat}
      (hy : (nextOps width op e.executingOps)[j]? = some y) (hfree : y.free = false) :
      ∃ x, e.executingOps[j]? = some x ∧ x.free = false ∧ y = x.next width op := by
    obtain ⟨x, hx, ⟨hxfree, rfl⟩ | ⟨hxfree, rfl⟩⟩ := getElem?_nextOps hy
    · cases hxfree.symm.trans hfree
    · exact ⟨x, hx, hxfree, rfl⟩
  have hlift {x : ExecutingOperation} {j : Nat} (hx : e.executingOps[j]? = some x) :
      (nextOps width op e.executingOps)[j]? =
        some (if x.free then x else x.next width op) := by
    rw [nextOps, List.getElem?_map, hx]
    rfl
  refine ⟨?_, ?_, hdeliv, ?_, rfl⟩
  · constructor
    · exact (List.length_map _).trans hok.length_eq
    · intro hinit y hy
      obtain ⟨j, hj⟩ := List.mem_iff_getElem?.1 hy
      obtain ⟨x, hx, ⟨-, rfl⟩ | ⟨-, rfl⟩⟩ := getElem?_nextOps hj
      · exact hok.bound hinit y (List.mem_of_getElem? hx)
      · exact (hok.bound hinit x (List.mem_of_getElem? hx)).next
    · intro hinit y hy
      obtain ⟨j, hj⟩ := List.mem_iff_getElem?.1 hy
      obtain ⟨x, hx, ⟨-, rfl⟩ | ⟨hxfree, rfl⟩⟩ := getElem?_nextOps hj
      · exact hok.fresh hinit y (List.mem_of_getElem? hx)
      · cases (hok.fresh hinit x (List.mem_of_getElem? hx)).2.symm.trans hxfree
    · intro y hy hfree
      obtain ⟨j, hj⟩ := List.mem_iff_getElem?.1 hy
      obtain ⟨x, hx, hxfree, rfl⟩ := hused hj hfree
      exact (hok.timed x (List.mem_of_getElem? hx) hxfree).next hfree
    · intro i j y z hy hz hyfree hzfree hstage
      obtain ⟨x, hx, hxfree, rfl⟩ := hused hy hyfree
      obtain ⟨w, hw, hwfree, rfl⟩ := hused hz hzfree
      exact hok.stages_ne i j x w hx hw hxfree hwfree (Nat.succ.inj hstage)
    · intro j hj
      obtain ⟨x, hx, hxfree⟩ : ∃ x, e.executingOps[j]? = some x ∧ x.free = true := by
        rcases hslot j hj with hold | ⟨k, x, rfl, hx, hxfree⟩
        · exact hok.freeExecOp j hold
        · rw [Nat.zero_add]
          exact ⟨x, hx, hxfree⟩
      refine ⟨x, ?_, hxfree⟩
      exact (hlift hx).trans (by rw [if_pos hxfree])
    · intro y hy hfree
      obtain ⟨j, hj⟩ := List.mem_iff_getElem?.1 hy
      obtain ⟨x, hx, hxfree, -⟩ := hused hj hfree
      exact hfound (.inr ⟨x, List.mem_of_getElem? hx, hxfree⟩)
  · intro y hy hfree
    obtain ⟨j, hj⟩ := List.mem_iff_getElem?.1 hy
    obtain ⟨x, -, -, rfl⟩ := hused hj hfree
    exact Nat.succ_pos _
  · intro n port value
    constructor
    · rintro ⟨y, hy, hflight⟩
      obtain ⟨j, hj⟩ := List.mem_iff_getElem?.1 hy
      obtain ⟨x, hx, hxfree, rfl⟩ := hused hj hflight.1
      have hmem := List.mem_of_getElem? hx
      obtain ⟨hn, hold⟩ := ((hok.timed x hmem hxfree).inFlight_next hxfree).1 hflight
      exact ⟨hn, x, hmem, hold⟩
    · rintro ⟨hn, x, hx, hflight⟩
      have hxfree := hflight.1
      obtain ⟨j, hj⟩ := List.mem_iff_getElem?.1 hx
      have hlifted := hlift hj
      rw [hxfree, if_neg Bool.false_ne_true] at hlifted
      exact ⟨_, List.mem_of_getElem? hlifted,
        ((hok.timed x hx hxfree).inFlight_next hxfree).2 ⟨hn, hflight⟩⟩

end MultiLatencyOperationExecutor

end Simulator

end OpenAsip
