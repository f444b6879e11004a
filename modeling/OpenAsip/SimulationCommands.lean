import OpenAsip.SimulationController
import Mathlib.Data.List.Sort

namespace OpenAsip
set_option autoImplicit true

namespace Simulator

inductive SimulationStatus where
  | initializing
  | initialized
  | running
  | stopped
  | finished
deriving DecidableEq, Repr

inductive StopReason where
  | afterStepping
  | afterUntil
  | afterTimeout
  | breakpoint
  | userRequested
  | runtimeError
deriving DecidableEq, Repr

/-- The value of the enumeration, by which a set of reasons is ordered. -/
def StopReason.value : StopReason → Nat
  | afterStepping => 0
  | afterUntil => 1
  | afterTimeout => 2
  | breakpoint => 3
  | userRequested => 4
  | runtimeError => 5

/-- `std::set::insert`. -/
def insertReason (reason : StopReason) (reasons : List StopReason) : List StopReason :=
  if reason ∈ reasons then reasons
  else reasons.orderedInsert (fun a b => a.value ≤ b.value) reason

/-- A `Breakpoint`. Its condition is a script that may throw an exception. -/
structure StopPoint (ρ : Type u) where
  address : Nat
  enabled : Bool
  disabledAfterTriggered : Bool
  deletedAfterTriggered : Bool
  condition : Option (SimulationController ρ → Option Bool)
  ignoreCount : Nat

namespace StopPoint

def isTriggered (p : StopPoint ρ) (c : SimulationController ρ) : Bool :=
  c.machineState.gcuState.programCounter = p.address

/-- The condition of a script that throws an exception is not met. -/
def isConditionOK (p : StopPoint ρ) (c : SimulationController ρ) : Bool :=
  match p.condition with
  | some script => (script c).getD false
  | none => true

/-- The body of the loop of `StopPointManager::handleEvent`, with whether the simulation is to
stop. -/
def handle (c : SimulationController ρ) (p : StopPoint ρ) : StopPoint ρ × Bool :=
  if p.enabled && p.isTriggered c then
    if p.ignoreCount = 0 && p.isConditionOK c then
      ({ p with enabled := p.enabled && !p.disabledAfterTriggered }, true)
    else if p.isConditionOK c then ({ p with ignoreCount := p.ignoreCount - 1 }, false)
    else (p, false)
  else (p, false)

end StopPoint

/-- The stop points are in the order of their handles. -/
structure StopPointManager (ρ : Type u) where
  handleCount : Nat
  stopPoints : List (Nat × StopPoint ρ)
  handles : List Nat
  lastStopCycle : Nat

namespace StopPointManager

def new : StopPointManager ρ := ⟨0, [], [], 0⟩

def add (p : StopPoint ρ) (s : StopPointManager ρ) : StopPointManager ρ :=
  { s with
    handleCount := s.handleCount + 1
    stopPoints := s.stopPoints.orderedInsert (fun a b => a.1 ≤ b.1)
      (s.handleCount + 1, { p with enabled := true })
    handles := s.handles ++ [s.handleCount + 1] }

def findStopPoint (handle : Nat) (s : StopPointManager ρ) : Option (StopPoint ρ) :=
  s.stopPoints.lookup handle

/-- The end of `deleteStopPoint`, once the stop point has been found. -/
def erase (s : StopPointManager ρ) (handle : Nat) : StopPointManager ρ :=
  { s with
    stopPoints := s.stopPoints.filter fun x => x.1 ≠ handle
    handles := s.handles.erase handle }

def deleteStopPoint (handle : Nat) (s : StopPointManager ρ) : Option (StopPointManager ρ) :=
  (s.findStopPoint handle).map fun _ => s.erase handle

/-- The setters of a stop point with a handle throw an exception when there is none. -/
def update (handle : Nat) (f : StopPoint ρ → StopPoint ρ) (s : StopPointManager ρ) :
    Option (StopPointManager ρ) :=
  (s.findStopPoint handle).map fun _ =>
    { s with stopPoints := s.stopPoints.map fun x => if x.1 = handle then (x.1, f x.2) else x }

def enable (handle : Nat) : StopPointManager ρ → Option (StopPointManager ρ) :=
  update handle fun p => { p with enabled := true }

def disable (handle : Nat) : StopPointManager ρ → Option (StopPointManager ρ) :=
  update handle fun p => { p with enabled := false }

def enableOnceAndDelete (handle : Nat) : StopPointManager ρ → Option (StopPointManager ρ) :=
  update handle fun p => { p with enabled := true, deletedAfterTriggered := true }

def enableOnceAndDisable (handle : Nat) : StopPointManager ρ → Option (StopPointManager ρ) :=
  update handle fun p => { p with enabled := true, disabledAfterTriggered := true }

def setIgnore (handle count : Nat) : StopPointManager ρ → Option (StopPointManager ρ) :=
  update handle fun p => { p with ignoreCount := count }

/-- The stop points that have stopped the simulation are deleted after the loop over all of them. -/
def handleEvent (c : SimulationController ρ) (s : StopPointManager ρ) :
    StopPointManager ρ × Bool :=
  let handled := s.stopPoints.map fun x => (x.1, x.2.handle c)
  let stops := handled.filter fun x => x.2.2
  let toBeDeleted := (stops.filter fun x => x.2.1.deletedAfterTriggered).map Prod.fst
  (toBeDeleted.foldl erase { s with
      stopPoints := handled.map fun x => (x.1, x.2.1)
      lastStopCycle := if stops.isEmpty then s.lastStopCycle else c.clockCount },
    !stops.isEmpty)

end StopPointManager

/-- The controller as a debugger sees it. -/
structure Simulation (ρ : Type u) where
  controller : SimulationController ρ
  state : SimulationStatus
  stopRequested : Bool
  stopReasons : List StopReason
  lastExecutedInstruction : Nat
  stopPointManager : StopPointManager ρ

namespace Simulation

def programCounter (s : Simulation ρ) : Nat := s.controller.machineState.gcuState.programCounter

def prepareToStop (reason : StopReason) (s : Simulation ρ) : Simulation ρ :=
  { s with stopRequested := true, stopReasons := insertReason reason s.stopReasons }

/-- The constructor ends with a reset. -/
def new (m : Machine ρ) (others : ρ) : Simulation ρ where
  controller := SimulationController.new m others
  state := .initialized
  stopRequested := false
  stopReasons := []
  lastExecutedInstruction := 0
  stopPointManager := .new

/-- The reasons of the last stop are kept. -/
def reset (m : Machine ρ) (s : Simulation ρ) : Simulation ρ :=
  { s with
    controller := s.controller.reset m
    state := .initialized
    stopRequested := false }

/-- The event of a new instruction, to which the stop points listen. -/
def newInstruction (s : Simulation ρ) : Simulation ρ :=
  let handled := s.stopPointManager.handleEvent s.controller
  let s := { s with stopPointManager := handled.1 }
  if handled.2 then s.prepareToStop .breakpoint else s

/-- What a cycle without a runtime error leaves before anybody is told of it. -/
def executed (c : SimulationController ρ) (s : Simulation ρ) : Simulation ρ :=
  { s with
    controller := c
    lastExecutedInstruction :=
      if s.controller.machineState.finished then s.lastExecutedInstruction else s.programCounter }

/-- `simulateCycle` with what it tells the listeners, and whether there are more instructions to
execute. -/
def simulateCycle (m : Machine ρ) (s : Simulation ρ) : Outcome (Simulation ρ × Bool) :=
  match s.controller.simulateCycle m with
  | .error fault => .error fault
  | .ok (c, true) => .ok ({ s with controller := c }.prepareToStop .runtimeError, false)
  | .ok (c, false) =>
    if c.machineState.finished then
      .ok ({ s.executed c with state := .finished, stopRequested := true }, false)
    else .ok ((s.executed c).newInstruction, true)

/-- What every command starts with. -/
def start (s : Simulation ρ) : Simulation ρ :=
  { s with state := .running, stopRequested := false, stopReasons := [] }

/-- What every command ends with. -/
def finish (s : Simulation ρ) : Simulation ρ :=
  if s.state = .finished then s else { s with state := .stopped }

/-- The loop of `step`, with whether it has counted to its end. -/
def stepLoop (m : Machine ρ) : Nat → Simulation ρ → Outcome (Simulation ρ × Bool)
  | 0, s => .ok (s, true)
  | count + 1, s =>
    if s.stopRequested then .ok (s, false)
    else
      match s.simulateCycle m with
      | .error fault => .error fault
      | .ok (s, _) => stepLoop m count s

/-- The end of `step`. -/
def counted (s : Simulation ρ) (all : Bool) : Simulation ρ :=
  if all then (s.prepareToStop .afterStepping).finish else s.finish

/-- The count is a whole number. -/
def step (m : Machine ρ) (count : Nat) (s : Simulation ρ) : Outcome (Simulation ρ) :=
  if s.state = .stopped ∨ s.state = .initialized then
    (stepLoop m count s.start).map fun x => x.1.counted x.2
  else .error .assertion

def runLoop (m : Machine ρ) : Nat → Simulation ρ → Option (Outcome (Simulation ρ))
  | 0, s => if s.stopRequested then some (.ok s) else none
  | fuel + 1, s =>
    if s.stopRequested then some (.ok s)
    else
      match s.simulateCycle m with
      | .error fault => some (.error fault)
      | .ok (s, _) => runLoop m fuel s

def run (m : Machine ρ) (fuel : Nat) (s : Simulation ρ) : Option (Outcome (Simulation ρ)) :=
  (runLoop m fuel s.start).map (Except.map finish)

def runUntilLoop (m : Machine ρ) (address : Nat) :
    Nat → Simulation ρ → Option (Outcome (Simulation ρ))
  | 0, s => if s.stopRequested then some (.ok s.finish) else none
  | fuel + 1, s =>
    if s.stopRequested then some (.ok s.finish)
    else
      match s.simulateCycle m with
      | .error fault => some (.error fault)
      | .ok (s, _) =>
        if s.state = .finished then some (.ok s)
        else if s.programCounter = address then
          some (.ok { s.prepareToStop .afterUntil with state := .stopped })
        else runUntilLoop m address fuel s

def runUntil (m : Machine ρ) (address fuel : Nat) (s : Simulation ρ) :
    Option (Outcome (Simulation ρ)) :=
  runUntilLoop m address fuel s.start

/-- The inner loop of `next`, which simulates cycles until the procedure is reached again that was
left. -/
def nextRound (m : Machine ρ) (procedureAt : Nat → Outcome π) [DecidableEq π] (started : π) :
    Nat → Simulation ρ → Bool → Option (Outcome (Simulation ρ × Bool))
  | 0, _, _ => none
  | fuel + 1, s, inCalledProcedure =>
    match s.simulateCycle m with
    | .error fault => some (.error fault)
    | .ok (s, false) => some (.ok (s.prepareToStop .afterUntil, inCalledProcedure))
    | .ok (s, true) =>
      match procedureAt s.programCounter with
      | .error fault => some (.error fault)
      | .ok current =>
        if current ≠ started && !s.stopRequested then
          nextRound m procedureAt started fuel s (current ≠ started)
        else some (.ok (s, current ≠ started))

def nextLoop (m : Machine ρ) (procedureAt : Nat → Outcome π) [DecidableEq π] (started : π)
    (fuel : Nat) : Nat → Simulation ρ → Bool → Option (Outcome (Simulation ρ × Bool × Bool))
  | 0, s, inCalledProcedure => some (.ok (s, inCalledProcedure, true))
  | count + 1, s, inCalledProcedure =>
    if s.stopRequested then some (.ok (s, inCalledProcedure, false))
    else
      match nextRound m procedureAt started fuel s inCalledProcedure with
      | none => none
      | some (.error fault) => some (.error fault)
      | some (.ok (s, inCalledProcedure)) =>
        nextLoop m procedureAt started fuel count s inCalledProcedure

/-- Steps that go over calls. -/
def next (m : Machine ρ) (procedureAt : Nat → Outcome π) [DecidableEq π] (count fuel : Nat)
    (s : Simulation ρ) : Option (Outcome (Simulation ρ)) :=
  match procedureAt s.programCounter with
  | .error fault => some (.error fault)
  | .ok started =>
    match nextLoop m procedureAt started fuel count s.start false with
    | none => none
    | some (.error fault) => some (.error fault)
    | some (.ok (s, inCalledProcedure, all)) =>
      some (.ok (s.counted (all && !inCalledProcedure)))

end Simulation

theorem mem_insertReason : r ∈ insertReason reason reasons ↔ r = reason ∨ r ∈ reasons := by
  rw [insertReason]
  split
  · next h =>
    constructor
    · exact .inr
    · rintro (rfl | h')
      · exact h
      · exact h'
  · exact List.mem_orderedInsert _

theorem insertReason_ne_nil : insertReason reason reasons ≠ [] :=
  List.ne_nil_of_mem (mem_insertReason.2 (.inl rfl))

namespace StopPointManager
variable {ρ : Type u} {s s' : StopPointManager ρ} {c : SimulationController ρ} {p q : StopPoint ρ}

/-- The two containers agree, and no handle is given twice. -/
structure Wf (s : StopPointManager ρ) : Prop where
  handles : s.handles = s.stopPoints.map Prod.fst
  sorted : (s.stopPoints.map Prod.fst).Pairwise (· < ·)
  bound : ∀ h ∈ s.stopPoints.map Prod.fst, h ≤ s.handleCount

theorem new_wf : (new : StopPointManager ρ).Wf :=
  ⟨rfl, List.Pairwise.nil, fun _ h => absurd h List.not_mem_nil⟩

theorem orderedInsert_last {l : List (Nat × α)} (hl : ∀ h ∈ l.map Prod.fst, h < k) (a : α) :
    l.orderedInsert (fun x y => x.1 ≤ y.1) (k, a) = l ++ [(k, a)] := by
  induction l with
  | nil => rfl
  | cons x l ih =>
    rw [List.map_cons] at hl
    obtain ⟨hx, hl⟩ := List.forall_mem_cons.1 hl
    rw [List.orderedInsert_cons, if_neg (Nat.not_le.2 hx), ih hl]
    rfl

theorem Wf.stopPoints_add (hs : s.Wf) (p : StopPoint ρ) : (s.add p).stopPoints =
    s.stopPoints ++ [(s.handleCount + 1, { p with enabled := true })] :=
  orderedInsert_last (fun h hh => Nat.lt_succ_of_le (hs.bound h hh)) _

theorem Wf.add (hs : s.Wf) (p : StopPoint ρ) : (s.add p).Wf := by
  have heq := hs.stopPoints_add p
  refine ⟨?_, ?_, fun h hh => ?_⟩
  · rw [heq, List.map_append, ← hs.handles]
    rfl
  · rw [heq, List.map_append]
    apply List.pairwise_append.2 ⟨hs.sorted, List.pairwise_singleton _ _, ?_⟩
    intro h hh k hk
    rw [List.mem_singleton.1 hk]
    exact Nat.lt_succ_of_le (hs.bound h hh)
  · rw [heq, List.map_append, List.mem_append] at hh
    rcases hh with hh | hh
    · exact Nat.le_succ_of_le (hs.bound h hh)
    · rw [List.mem_singleton.1 hh]
      exact Nat.le_refl _

theorem map_fst_filter (l : List (Nat × α)) (f : Nat → Bool) :
    (l.filter fun x => f x.1).map Prod.fst = (l.map Prod.fst).filter f := by
  rw [List.filter_map]
  rfl

theorem Wf.erase (hs : s.Wf) (handle : Nat) : (StopPointManager.erase s handle).Wf := by
  have hfst := map_fst_filter s.stopPoints fun h => h ≠ handle
  have hnodup : s.handles.Nodup := by
    rw [hs.handles]
    exact hs.sorted.imp fun h => Nat.ne_of_lt h
  refine ⟨?_, ?_, fun h hh => ?_⟩
  · change s.handles.erase handle = _
    rw [hnodup.erase_eq_filter, hs.handles]
    refine Eq.trans ?_ hfst.symm
    congr 1
    funext h
    rw [bne, Bool.beq_eq_decide_eq, decide_not]
  · exact hfst ▸ hs.sorted.filter _
  · exact hs.bound h (List.mem_of_mem_filter (hfst ▸ hh))

theorem Wf.foldl_erase (hs : s.Wf) (handles : List Nat) :
    (handles.foldl StopPointManager.erase s).Wf := by
  induction handles generalizing s with
  | nil => exact hs
  | cons h handles ih => exact ih (hs.erase h)

theorem stopPoints_foldl_erase (handles : List Nat) (s : StopPointManager ρ) :
    (handles.foldl erase s).stopPoints = s.stopPoints.filter fun x => x.1 ∉ handles := by
  induction handles generalizing s with
  | nil => simp
  | cons h handles ih =>
    rw [List.foldl_cons, ih, erase, List.filter_filter]
    congr 1
    funext x
    simp [Bool.and_comm]

theorem Wf.of_map (hs : s.Wf) {stopPoints : List (Nat × StopPoint ρ)}
    (h : stopPoints.map Prod.fst = s.stopPoints.map Prod.fst) (cycle : Nat) :
    ({ s with stopPoints := stopPoints, lastStopCycle := cycle } : StopPointManager ρ).Wf :=
  ⟨hs.handles.trans h.symm, by rw [h]; exact hs.sorted, by rw [h]; exact hs.bound⟩

theorem Wf.update (hs : s.Wf) (h : StopPointManager.update handle f s = some s') : s'.Wf := by
  obtain ⟨p, _, rfl⟩ := Option.map_eq_some_iff.1 h
  apply hs.of_map
  rw [List.map_map]
  congr 1
  funext x
  rw [Function.comp]
  split
  · rfl
  · rfl

theorem Wf.deleteStopPoint (hs : s.Wf) (h : StopPointManager.deleteStopPoint handle s = some s') :
    s'.Wf := by
  obtain ⟨p, _, rfl⟩ := Option.map_eq_some_iff.1 h
  exact hs.erase handle

theorem Wf.handleEvent (hs : s.Wf) (c : SimulationController ρ) : (s.handleEvent c).1.Wf := by
  apply Wf.foldl_erase
  apply hs.of_map
  rw [List.map_map, List.map_map]
  rfl

theorem handleEvent_snd (c : SimulationController ρ) (s : StopPointManager ρ) :
    (s.handleEvent c).2 = true ↔ ∃ h p, (h, p) ∈ s.stopPoints ∧ (p.handle c).2 = true := by
  rw [StopPointManager.handleEvent]
  dsimp only
  rw [Bool.not_eq_true', List.isEmpty_eq_false_iff_exists_mem]
  constructor
  · rintro ⟨x, hx⟩
    obtain ⟨hx, hstop⟩ := List.mem_filter.1 hx
    obtain ⟨⟨h, p⟩, hp, rfl⟩ := List.mem_map.1 hx
    exact ⟨h, p, hp, hstop⟩
  · rintro ⟨h, p, hp, hstop⟩
    exact ⟨_, List.mem_filter.2 ⟨List.mem_map_of_mem hp, hstop⟩⟩

theorem Wf.eq_of_mem (hs : s.Wf) (hp : (h, p) ∈ s.stopPoints) (hq : (h, q) ∈ s.stopPoints) :
    p = q := by
  have hnodup : (s.stopPoints.map Prod.fst).Nodup := hs.sorted.imp fun h => Nat.ne_of_lt h
  have heq := List.inj_on_of_nodup_map hnodup hp hq rfl
  exact (Prod.mk.inj heq).2

end StopPointManager

namespace StopPoint

theorem handle_deletedAfterTriggered (p : StopPoint ρ) (c : SimulationController ρ) :
    (p.handle c).1.deletedAfterTriggered = p.deletedAfterTriggered := by
  rw [handle]
  split
  · split
    · rfl
    · split
      · rfl
      · rfl
  · rfl

/-- Whether the stop point of a pair stays after an event, and what it is then. -/
def kept (c : SimulationController ρ) (x : Nat × StopPoint ρ) : Option (Nat × StopPoint ρ) :=
  if (x.2.handle c).2 && x.2.deletedAfterTriggered then none else some (x.1, (x.2.handle c).1)

end StopPoint

namespace StopPointManager
variable {ρ : Type u} {s s' : StopPointManager ρ} {c : SimulationController ρ} {p q : StopPoint ρ}

/-- An event deletes the stop points that stop the simulation and are to be deleted, and no
others. -/
theorem Wf.stopPoints_handleEvent (hs : s.Wf) (c : SimulationController ρ) :
    (s.handleEvent c).1.stopPoints = s.stopPoints.filterMap (StopPoint.kept c) := by
  rw [StopPointManager.handleEvent]
  dsimp only
  rw [stopPoints_foldl_erase]
  dsimp only
  rw [List.map_map, List.filter_map, ← List.filterMap_eq_map, List.filterMap_filter]
  apply List.filterMap_congr
  rintro ⟨h, p⟩ hp
  rw [StopPoint.kept, ← StopPoint.handle_deletedAfterTriggered p c]
  dsimp only [Function.comp]
  have hiff : h ∈ (((s.stopPoints.map fun x => (x.1, x.2.handle c)).filter fun x => x.2.2).filter
      fun x => x.2.1.deletedAfterTriggered).map Prod.fst ↔
      ((p.handle c).2 && (p.handle c).1.deletedAfterTriggered) = true := by
    rw [Bool.and_eq_true]
    constructor
    · intro hdel
      obtain ⟨x, hx, rfl⟩ := List.mem_map.1 hdel
      obtain ⟨hx, hxdel⟩ := List.mem_filter.1 hx
      obtain ⟨hx, hstop⟩ := List.mem_filter.1 hx
      obtain ⟨⟨h', q⟩, hq, rfl⟩ := List.mem_map.1 hx
      cases hs.eq_of_mem hp hq
      exact ⟨hstop, hxdel⟩
    · rintro ⟨hstop, hdel⟩
      apply List.mem_map.2 ⟨(h, p.handle c), ?_, rfl⟩
      have hmem := List.mem_map_of_mem (f := fun x => (x.1, x.2.handle c)) hp
      exact List.mem_filter.2 ⟨List.mem_filter.2 ⟨hmem, hstop⟩, hdel⟩
  by_cases hdel : ((p.handle c).2 && (p.handle c).1.deletedAfterTriggered) = true
  · rw [if_pos hdel, if_neg]
    rw [decide_eq_true_iff, not_not]
    exact hiff.2 hdel
  · rw [if_neg hdel, if_pos]
    exact decide_eq_true fun hmem => hdel (hiff.1 hmem)

end StopPointManager

end Simulator

end OpenAsip
