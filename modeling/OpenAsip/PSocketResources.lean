import Mathlib.Data.List.Nodup
import OpenAsip.Outcomes

namespace OpenAsip
set_option autoImplicit true

namespace Scheduler

/-- What the scheduler asks of a resource of the machine. Cycles are not negative. -/
structure CycleResource (ρ ν : Type) where
  canAssign : ρ → Nat → ν → Bool
  assign : ρ → Nat → ν → ρ
  unassign : ρ → Nat → ν → Outcome ρ

namespace CycleResource
variable {ρ ν : Type} [DecidableEq ν]

inductive Call (ν : Type) where
  | assign (cycle : Nat) (node : ν)
  | unassign (node : ν)

/-- The broker asks the resource before it assigns it, and it remembers which nodes it has assigned
it to. Their cycles are those of the nodes. -/
def step (R : CycleResource ρ ν) (s : ρ × (ν → Option Nat)) : Call ν →
    Outcome (ρ × (ν → Option Nat))
  | .assign cycle node =>
    if s.2 node = none ∧ R.canAssign s.1 cycle node then
      .ok (R.assign s.1 cycle node, Function.update s.2 node (some cycle))
    else .ok s
  | .unassign node =>
    match s.2 node with
    | none => .ok s
    | some cycle => (R.unassign s.1 cycle node).map fun r => (r, Function.update s.2 node none)

def run (R : CycleResource ρ ν) (s : ρ × (ν → Option Nat)) (calls : List (Call ν)) :
    Outcome (ρ × (ν → Option Nat)) :=
  calls.foldlM R.step s

/-- What both calls keep holds after every run, in which nothing is thrown. -/
theorem run_kept {R : CycleResource ρ ν} {P : ρ → (ν → Option Nat) → Prop}
    (hassign : ∀ r placed cycle node, P r placed → placed node = none →
      R.canAssign r cycle node = true →
        P (R.assign r cycle node) (Function.update placed node (some cycle)))
    (hunassign : ∀ r placed cycle node, P r placed → placed node = some cycle →
      ∃ r', R.unassign r cycle node = .ok r' ∧ P r' (Function.update placed node none))
    {s : ρ × (ν → Option Nat)} (hs : P s.1 s.2) (calls : List (Call ν)) :
    ∃ s', R.run s calls = .ok s' ∧ P s'.1 s'.2 := by
  induction calls generalizing s with
  | nil => exact ⟨s, rfl, hs⟩
  | cons call calls ih =>
    have hstep : ∃ s₁, R.step s call = .ok s₁ ∧ P s₁.1 s₁.2 := by
      cases call with
      | assign cycle node =>
        by_cases h : s.2 node = none ∧ R.canAssign s.1 cycle node
        · exact ⟨_, if_pos h, hassign _ _ _ _ hs h.1 h.2⟩
        · exact ⟨s, if_neg h, hs⟩
      | unassign node =>
        cases hplaced : s.2 node with
        | none => exact ⟨s, by rw [step, hplaced], hs⟩
        | some cycle =>
          obtain ⟨r', hr', hinv⟩ := hunassign _ _ _ _ hs hplaced
          refine ⟨(r', Function.update s.2 node none), ?_, hinv⟩
          rw [step, hplaced]
          dsimp only
          rw [hr']
          rfl
    obtain ⟨s₁, hstep, hs₁⟩ := hstep
    obtain ⟨s', hrun, hs'⟩ := ih hs₁
    refine ⟨s', ?_, hs'⟩
    rw [run, List.foldlM_cons, hstep]
    exact hrun

end CycleResource

def instructionIndex (initiationInterval cycle : Nat) : Nat :=
  if initiationInterval ≠ 0 ∧ cycle ≠ 2147483647 then cycle % initiationInterval else cycle

theorem instructionIndex_self (ii cycle : Nat) :
    instructionIndex ii (instructionIndex ii cycle) = instructionIndex ii cycle := by
  by_cases h : ii ≠ 0 ∧ cycle ≠ 2147483647
  · have heq : instructionIndex ii cycle = cycle % ii := if_pos h
    rw [heq, instructionIndex, Nat.mod_mod, ite_self]
  · have heq : instructionIndex ii cycle = cycle := if_neg h
    rw [heq, heq]

inductive Guard where
  | port (port : String) (isInverted : Bool)
  | register (registerFile : String) (registerIndex : Nat) (isInverted : Bool)
deriving DecidableEq

namespace Guard

def isInverted : Guard → Bool
  | .port _ inverted => inverted
  | .register _ _ inverted => inverted

def isOpposite : Guard → Guard → Bool
  | .port p inverted, .port p' inverted' => p = p' && inverted ≠ inverted'
  | .register file index inverted, .register file' index' inverted' =>
    file = file' && index = index' && inverted ≠ inverted'
  | _, _ => false

theorem isOpposite_comm (g g' : Guard) : g.isOpposite g' = g'.isOpposite g := by
  cases g with
  | port => cases g' <;> simp [isOpposite, eq_comm]
  | register => cases g' <;> simp [isOpposite, eq_comm]

end Guard

/-- The unit that a port belongs to. -/
inductive PortUnit where
  | functionUnit (name : String)
  | registerFile (name : String)
  | immediateUnit (name : String)
deriving DecidableEq

structure Port where
  parentUnit : PortUnit
  name : String
deriving DecidableEq

structure SourceTerminal where
  port : Port
  index : Nat
deriving DecidableEq

/-- What the sockets read of a move, with the ports that the brokers have set. A move without a
guard is unconditional. -/
structure SocketMove where
  guard : Option Guard
  source : SourceTerminal

namespace SocketMove

/-- Only one of the two moves is executed. -/
def opposite (move other : SocketMove) : Bool :=
  match move.guard, other.guard with
  | some guard, some guard' => guard.isOpposite guard'
  | _, _ => false

def sameRegister (move other : SocketMove) : Bool :=
  move.source.port.parentUnit = other.source.port.parentUnit &&
    move.source.index = other.source.index

theorem opposite_comm (move other : SocketMove) : move.opposite other = other.opposite move := by
  rw [opposite, opposite]
  cases move.guard with
  | none => cases other.guard <;> rfl
  | some g =>
    cases other.guard with
    | none => rfl
    | some g' => exact g.isOpposite_comm g'

theorem sameRegister_comm (move other : SocketMove) :
    move.sameRegister other = other.sameRegister move := by
  simp [sameRegister, eq_comm]

end SocketMove

structure PSocketResource (ν : Type) where
  initiationInterval : Nat
  resourceRecord : Nat → List ν

namespace PSocketResource
variable {ν : Type} [DecidableEq ν]

def create (initiationInterval : Nat) : PSocketResource ν := ⟨initiationInterval, fun _ => []⟩

def instructionIndex (r : PSocketResource ν) (cycle : Nat) : Nat :=
  Scheduler.instructionIndex r.initiationInterval cycle

def isInUse (r : PSocketResource ν) (cycle : Nat) : Bool :=
  r.resourceRecord (r.instructionIndex cycle) ≠ []

def setRecord (r : PSocketResource ν) (cycle : Nat) (nodes : List ν) : PSocketResource ν :=
  { r with resourceRecord := Function.update r.resourceRecord (r.instructionIndex cycle) nodes }

def assign (r : PSocketResource ν) (cycle : Nat) (node : ν) : PSocketResource ν :=
  r.setRecord cycle ((r.resourceRecord (r.instructionIndex cycle)).insert node)

def unassign (r : PSocketResource ν) (cycle : Nat) (node : ν) : Outcome (PSocketResource ν) :=
  if r.isInUse cycle then
    .ok (r.setRecord cycle ((r.resourceRecord (r.instructionIndex cycle)).erase node))
  else .error (.exception .invalidData)

/-- `InputPSocketResource::canAssign`. -/
def canAssign (moves : ν → SocketMove) (r : PSocketResource ν) (cycle : Nat) (node : ν) : Bool :=
  (r.resourceRecord cycle).all fun other =>
    (moves node).guard ≠ none && (moves other).guard ≠ none && (moves node).opposite (moves other)

/-- The record of a cycle has the nodes that are assigned to it, each once. -/
structure Recorded (r : PSocketResource ν) (placed : ν → Option Nat) : Prop where
  nodup : ∀ cycle, (r.resourceRecord cycle).Nodup
  mem_iff : ∀ cycle node, node ∈ r.resourceRecord cycle ↔
    ∃ c, placed node = some c ∧ r.instructionIndex c = cycle

omit [DecidableEq ν] in
theorem recorded_create (ii : Nat) : (create ii : PSocketResource ν).Recorded fun _ => none := by
  constructor
  · exact fun _ => List.nodup_nil
  · intro cycle node
    simp [create]

omit [DecidableEq ν] in
theorem setRecord_record (r : PSocketResource ν) (cycle cycle' : Nat) (nodes : List ν) :
    (r.setRecord cycle nodes).resourceRecord cycle' =
      if cycle' = r.instructionIndex cycle then nodes else r.resourceRecord cycle' := by
  rw [setRecord]
  exact Function.update_apply _ _ _ _

omit [DecidableEq ν] in
theorem Recorded.notMem {r : PSocketResource ν} {placed : ν → Option Nat} (h : r.Recorded placed)
    {node : ν} (hnode : placed node = none) (cycle : Nat) : node ∉ r.resourceRecord cycle := by
  intro hmem
  obtain ⟨c, hc, _⟩ := (h.mem_iff cycle node).1 hmem
  cases hnode.symm.trans hc

theorem Recorded.assign {r : PSocketResource ν} {placed : ν → Option Nat} (h : r.Recorded placed)
    {node : ν} (hnode : placed node = none) (cycle : Nat) :
    (r.assign cycle node).Recorded (Function.update placed node (some cycle)) := by
  constructor
  · intro cycle'
    rw [PSocketResource.assign, setRecord_record]
    split
    · exact (h.nodup _).insert
    · exact h.nodup _
  · intro cycle' node'
    have hindex : (r.assign cycle node).instructionIndex = r.instructionIndex := rfl
    rw [hindex, PSocketResource.assign, setRecord_record]
    by_cases hself : node' = node
    · subst hself
      rw [Function.update_self]
      split
      · next hcycle => simp [hcycle]
      · next hcycle => simpa [h.notMem hnode cycle', eq_comm] using hcycle
    · rw [Function.update_of_ne hself, ← h.mem_iff]
      split
      · next hcycle => simp [hself, hcycle]
      · rfl

theorem Recorded.unassign {r : PSocketResource ν} {placed : ν → Option Nat} (h : r.Recorded placed)
    {node : ν} {cycle : Nat} (hnode : placed node = some cycle) :
    ∃ r', r.unassign cycle node = .ok r' ∧
      r' = r.setRecord cycle ((r.resourceRecord (r.instructionIndex cycle)).erase node) ∧
      r'.Recorded (Function.update placed node none) := by
  have hmem : node ∈ r.resourceRecord (r.instructionIndex cycle) :=
    (h.mem_iff _ node).2 ⟨cycle, hnode, rfl⟩
  refine ⟨_, if_pos (decide_eq_true (List.ne_nil_of_mem hmem)), rfl, ?_⟩
  constructor
  · intro cycle'
    rw [setRecord_record]
    split
    · exact (h.nodup _).erase _
    · exact h.nodup _
  · intro cycle' node'
    have hindex : (r.setRecord cycle ((r.resourceRecord
      (r.instructionIndex cycle)).erase node)).instructionIndex = r.instructionIndex := rfl
    rw [hindex, setRecord_record]
    by_cases hself : node' = node
    · subst hself
      rw [Function.update_self]
      split
      · simp [(h.nodup _).not_mem_erase]
      · next hcycle =>
        simp only [reduceCtorEq, false_and, exists_false, iff_false]
        intro hmem'
        obtain ⟨c, hc, hc'⟩ := (h.mem_iff cycle' node').1 hmem'
        cases hnode.symm.trans hc
        exact hcycle hc'.symm
    · rw [Function.update_of_ne hself, ← h.mem_iff]
      split
      · next hcycle => rw [List.mem_erase_of_ne hself, hcycle]
      · rfl

/-- An input socket as its broker uses it, which gives it instruction indices. -/
def inputSocket (moves : ν → SocketMove) : CycleResource (PSocketResource ν) ν where
  canAssign r cycle node := r.canAssign moves (r.instructionIndex cycle) node
  assign r cycle node := r.assign (r.instructionIndex cycle) node
  unassign := PSocketResource.unassign

/-- Moves that write through a socket in one instruction exclude one another. -/
structure Separate (moves : ν → SocketMove) (r : PSocketResource ν) (placed : ν → Option Nat) :
    Prop where
  recorded : r.Recorded placed
  opposite : ∀ cycle, ∀ node ∈ r.resourceRecord cycle, ∀ other ∈ r.resourceRecord cycle,
    node ≠ other → (moves node).opposite (moves other) = true

theorem mem_assign {r : PSocketResource ν} {cycle cycle' : Nat} {node other : ν} :
    other ∈ (r.assign cycle node).resourceRecord cycle' ↔
      other ∈ r.resourceRecord cycle' ∨ cycle' = r.instructionIndex cycle ∧ other = node := by
  rw [assign, setRecord_record]
  split
  · next h => simp [h, or_comm]
  · next h => simp [h]

theorem mem_of_unassign {r : PSocketResource ν} {cycle cycle' : Nat} {node other : ν}
    (h : other ∈ (r.setRecord cycle
      ((r.resourceRecord (r.instructionIndex cycle)).erase node)).resourceRecord cycle') :
    other ∈ r.resourceRecord cycle' := by
  rw [setRecord_record] at h
  split at h
  · next hcycle => exact hcycle ▸ List.mem_of_mem_erase h
  · exact h

/-- A relation of the nodes of a record that the new node has with those that are there. -/
theorem pairwise_assign {r : PSocketResource ν} {cycle : Nat} {node : ν} {P : ν → ν → Prop}
    (hsymm : ∀ n n', P n n' → P n' n)
    (h : ∀ cycle, ∀ n ∈ r.resourceRecord cycle, ∀ n' ∈ r.resourceRecord cycle, n ≠ n' → P n n')
    (hnode : ∀ n ∈ r.resourceRecord (r.instructionIndex cycle), P node n) :
    ∀ cycle', ∀ n ∈ (r.assign cycle node).resourceRecord cycle',
      ∀ n' ∈ (r.assign cycle node).resourceRecord cycle', n ≠ n' → P n n' := by
  intro cycle' n hn n' hn' hne
  rw [mem_assign] at hn hn'
  rcases hn with hn | ⟨rfl, rfl⟩
  · rcases hn' with hn' | ⟨rfl, rfl⟩
    · exact h cycle' n hn n' hn' hne
    · exact hsymm _ _ (hnode n hn)
  · rcases hn' with hn' | ⟨_, rfl⟩
    · exact hnode n' hn'
    · exact absurd rfl hne

omit [DecidableEq ν] in
theorem Recorded.mem {r : PSocketResource ν} {placed : ν → Option Nat} (h : r.Recorded placed)
    {node : ν} {cycle : Nat} (hnode : placed node = some cycle) :
    node ∈ r.resourceRecord (r.instructionIndex cycle) :=
  (h.mem_iff _ node).2 ⟨cycle, hnode, rfl⟩

omit [DecidableEq ν] in
theorem instructionIndex_self (r : PSocketResource ν) (cycle : Nat) :
    r.instructionIndex (r.instructionIndex cycle) = r.instructionIndex cycle :=
  Scheduler.instructionIndex_self _ cycle

theorem assign_instructionIndex (r : PSocketResource ν) (cycle : Nat) (node : ν) :
    r.assign (r.instructionIndex cycle) node = r.assign cycle node := by
  rw [assign, assign, setRecord, setRecord, r.instructionIndex_self]

theorem Separate.assign {moves : ν → SocketMove} {r : PSocketResource ν} {placed : ν → Option Nat}
    {cycle : Nat} {node : ν} (h : r.Separate moves placed) (hnode : placed node = none)
    (hcan : (inputSocket moves).canAssign r cycle node = true) :
    ((inputSocket moves).assign r cycle node).Separate moves
      (Function.update placed node (some cycle)) := by
  have heq : (inputSocket moves).assign r cycle node = r.assign cycle node :=
    r.assign_instructionIndex cycle node
  rw [heq]
  constructor
  · exact h.recorded.assign hnode cycle
  · apply pairwise_assign (fun n n' hn => (SocketMove.opposite_comm _ _).trans hn) h.opposite
    intro other hother
    have hall := List.all_eq_true.1 hcan other hother
    exact (Bool.and_eq_true_iff.1 hall).2

theorem Separate.unassign {moves : ν → SocketMove} {r : PSocketResource ν}
    {placed : ν → Option Nat} {cycle : Nat} {node : ν} (h : r.Separate moves placed)
    (hnode : placed node = some cycle) :
    ∃ r', r.unassign cycle node = .ok r' ∧ r'.Separate moves (Function.update placed node none) ∧
      r'.initiationInterval = r.initiationInterval := by
  obtain ⟨r', hr', rfl, hrecorded⟩ := h.recorded.unassign hnode
  refine ⟨_, hr', ⟨hrecorded, ?_⟩, rfl⟩
  intro cycle' n hn n' hn'
  exact h.opposite cycle' n (mem_of_unassign hn) n' (mem_of_unassign hn')

/-- Two moves that write through an input socket in one instruction have opposite guards, after
every run of assignments that the socket has accepted and of unassignments. -/
theorem inputSocket_separate (moves : ν → SocketMove) (ii : Nat)
    (calls : List (CycleResource.Call ν)) :
    ∃ r placed, (inputSocket moves).run (create ii, fun _ => none) calls = .ok (r, placed) ∧
      ∀ n n' c c', placed n = some c → placed n' = some c' →
        Scheduler.instructionIndex ii c = Scheduler.instructionIndex ii c' → n ≠ n' →
          (moves n).opposite (moves n') = true := by
  have hstart : (create ii : PSocketResource ν).Separate moves fun _ => none := by
    constructor
    · exact recorded_create ii
    · intro cycle n hn
      cases hn
  have hkept := CycleResource.run_kept (R := inputSocket moves)
    (P := fun r placed => r.Separate moves placed ∧ r.initiationInterval = ii)
    (fun r placed cycle node h hnode hcan => ⟨h.1.assign hnode hcan, h.2⟩)
    (fun r placed cycle node h hnode => by
      obtain ⟨r', hr', hsep, hii⟩ := h.1.unassign hnode
      exact ⟨r', hr', hsep, hii.trans h.2⟩)
    (s := (create ii, fun _ => none)) ⟨hstart, rfl⟩ calls
  obtain ⟨⟨r, placed⟩, hrun, hsep, hii⟩ := hkept
  refine ⟨r, placed, hrun, fun n n' c c' hn hn' hcycle hne => ?_⟩
  have hmem' := hsep.recorded.mem hn'
  have hindex : r.instructionIndex c = r.instructionIndex c' := by
    rw [instructionIndex, instructionIndex, hii, hcycle]
  rw [← hindex] at hmem'
  exact hsep.opposite _ n (hsep.recorded.mem hn) n' hmem' hne

end PSocketResource

/-- The port of a socket that is read in an instruction, and how many moves read it. -/
structure OutputPSocketResource (ν : Type) where
  socket : PSocketResource ν
  storedPorts : Nat → Option (Port × Nat)

namespace OutputPSocketResource
variable {ν : Type} [DecidableEq ν]

def create (initiationInterval : Nat) : OutputPSocketResource ν :=
  ⟨.create initiationInterval, fun _ => none⟩

def setStored (r : OutputPSocketResource ν) (socket : PSocketResource ν) (cycle : Nat)
    (stored : Option (Port × Nat)) : OutputPSocketResource ν :=
  ⟨socket, Function.update r.storedPorts (r.socket.instructionIndex cycle) stored⟩

def assign (moves : ν → SocketMove) (r : OutputPSocketResource ν) (cycle : Nat) (node : ν) :
    OutputPSocketResource ν :=
  match r.storedPorts (r.socket.instructionIndex cycle) with
  | none =>
    r.setStored (r.socket.assign cycle node) cycle (some ((moves node).source.port, 1))
  | some (port, count) => r.setStored (r.socket.assign cycle node) cycle (some (port, count + 1))

def unassign (r : OutputPSocketResource ν) (cycle : Nat) (node : ν) :
    Outcome (OutputPSocketResource ν) :=
  (r.socket.unassign cycle node).map fun socket =>
    match r.storedPorts (r.socket.instructionIndex cycle) with
    | none => ⟨socket, r.storedPorts⟩
    | some (port, count) =>
      r.setStored socket cycle (if count = 1 then none else some (port, count - 1))

/-- What a register of a register file asks of a move that reads the socket already. -/
def canShare (move other : SocketMove) : Bool :=
  if move.guard = none ∨ other.guard = none then move.sameRegister other
  else move.opposite other || move.sameRegister other

def canAssign (moves : ν → SocketMove) (r : OutputPSocketResource ν) (cycle : Nat) (node : ν) :
    Bool :=
  let stored := r.storedPorts (r.socket.instructionIndex cycle)
  match (moves node).source.port.parentUnit with
  | .functionUnit _ => stored.all fun s => (moves node).source.port = s.1
  | .immediateUnit _ => stored.isNone
  | .registerFile _ =>
    (stored.all fun s => (moves node).source.port.parentUnit = s.1.parentUnit) &&
      (r.socket.resourceRecord cycle).all fun other => canShare (moves node) (moves other)

/-- An output socket as its broker uses it, which gives it instruction indices. -/
def outputSocket (moves : ν → SocketMove) : CycleResource (OutputPSocketResource ν) ν where
  canAssign r cycle node := r.canAssign moves (r.socket.instructionIndex cycle) node
  assign r cycle node := r.assign moves (r.socket.instructionIndex cycle) node
  unassign := OutputPSocketResource.unassign

/-- Two moves can read a socket in one instruction if they read the same port of a function unit, or
the same register, or if only one of them is executed. -/
def Compatible (move other : SocketMove) : Prop :=
  (∃ unit, move.source.port.parentUnit = .functionUnit unit) ∧
      move.source.port = other.source.port ∨
    move.sameRegister other = true ∨ move.opposite other = true

theorem Compatible.symm {move other : SocketMove} (h : Compatible move other) :
    Compatible other move := by
  rcases h with ⟨hunit, hport⟩ | hregister | hopposite
  · exact .inl ⟨hport ▸ hunit, hport.symm⟩
  · exact .inr (.inl ((SocketMove.sameRegister_comm _ _).trans hregister))
  · exact .inr (.inr ((SocketMove.opposite_comm _ _).trans hopposite))

/-- The port that is stored for an instruction is that of one of the moves that have read it. The
moves that read it now are from the same unit, and from the same port if that is a function unit. -/
structure Stores (moves : ν → SocketMove) (nodes : List ν) (stored : Option (Port × Nat)) :
    Prop where
  none_iff : stored = none ↔ nodes = []
  count : ∀ s ∈ stored, s.2 = nodes.length
  unit : ∀ s ∈ stored, ∀ node ∈ nodes, (moves node).source.port.parentUnit = s.1.parentUnit
  port : ∀ s ∈ stored, ∀ node ∈ nodes, ∀ unit, s.1.parentUnit = .functionUnit unit →
    (moves node).source.port = s.1

structure Separate (moves : ν → SocketMove) (r : OutputPSocketResource ν)
    (placed : ν → Option Nat) : Prop where
  recorded : r.socket.Recorded placed
  stores : ∀ cycle, Stores moves (r.socket.resourceRecord cycle) (r.storedPorts cycle)
  compatible : ∀ cycle, ∀ node ∈ r.socket.resourceRecord cycle,
    ∀ other ∈ r.socket.resourceRecord cycle, node ≠ other → Compatible (moves node) (moves other)

variable {moves : ν → SocketMove} {r : OutputPSocketResource ν} {placed : ν → Option Nat}
  {cycle : Nat} {node : ν}

omit [DecidableEq ν] in
/-- What the test of a socket says of the port that is stored. -/
theorem stored_of_canAssign (hcan : r.canAssign moves cycle node = true) {s : Port × Nat}
    (hs : r.storedPorts (r.socket.instructionIndex cycle) = some s) :
    (moves node).source.port.parentUnit = s.1.parentUnit ∧
      ∀ unit, s.1.parentUnit = .functionUnit unit → (moves node).source.port = s.1 := by
  rw [canAssign, hs] at hcan
  split at hcan
  · have hport := of_decide_eq_true hcan
    exact ⟨congrArg Port.parentUnit hport, fun _ _ => hport⟩
  · cases hcan
  · next file hfile =>
    have hunit := of_decide_eq_true (Bool.and_eq_true_iff.1 hcan).1
    refine ⟨hunit, fun unit h => ?_⟩
    cases (hfile.symm.trans hunit).trans h

omit [DecidableEq ν] in
theorem compatible_of_canAssign (h : r.Separate moves placed)
    (hcan : r.canAssign moves (r.socket.instructionIndex cycle) node = true) :
    ∀ other ∈ r.socket.resourceRecord (r.socket.instructionIndex cycle),
      Compatible (moves node) (moves other) := by
  intro other hother
  have hstores := h.stores (r.socket.instructionIndex cycle)
  rw [canAssign, r.socket.instructionIndex_self] at hcan
  cases hstored : r.storedPorts (r.socket.instructionIndex cycle) with
  | none =>
    rw [hstores.none_iff.1 hstored] at hother
    cases hother
  | some s =>
    rw [hstored] at hcan
    split at hcan
    · next unit hunit =>
      have hport := of_decide_eq_true hcan
      refine .inl ⟨⟨unit, hunit⟩, hport.trans ?_⟩
      exact (hstores.port s hstored other hother unit (hport ▸ hunit)).symm
    · cases hcan
    · have hshare := List.all_eq_true.1 (Bool.and_eq_true_iff.1 hcan).2 other hother
      rw [canShare] at hshare
      split at hshare
      · exact .inr (.inl hshare)
      · exact .inr (Or.symm (Bool.or_eq_true_iff.1 hshare))

omit [DecidableEq ν] in
theorem stores_first (moves : ν → SocketMove) (node : ν) :
    Stores moves [node] (some ((moves node).source.port, 1)) := by
  constructor
  · simp
  · simp
  · simp
  · simp

omit [DecidableEq ν] in
theorem Stores.cons {nodes : List ν} {s : Port × Nat} (h : Stores moves nodes (some s))
    (hcan : (moves node).source.port.parentUnit = s.1.parentUnit ∧
      ∀ unit, s.1.parentUnit = .functionUnit unit → (moves node).source.port = s.1) :
    Stores moves (node :: nodes) (some (s.1, s.2 + 1)) := by
  constructor
  · simp
  · simp [h.count s rfl]
  · simpa using ⟨hcan.1, h.unit s rfl⟩
  · rintro _ ⟨⟩ n hn unit hunit
    rcases List.mem_cons.1 hn with rfl | hn
    · exact hcan.2 unit hunit
    · exact h.port s rfl n hn unit hunit

theorem Stores.erase {nodes : List ν} {s : Port × Nat} (h : Stores moves nodes (some s))
    (hnode : node ∈ nodes) :
    Stores moves (nodes.erase node) (if s.2 = 1 then none else some (s.1, s.2 - 1)) := by
  have hcount := h.count s rfl
  have hlength := List.length_erase_of_mem hnode
  split
  · next hone =>
    have hnil : nodes.erase node = [] := by
      apply List.eq_nil_of_length_eq_zero
      rw [hlength, ← hcount, hone]
    rw [hnil]
    constructor
    · simp
    · simp
    · simp
    · simp
  · next hne =>
    have hpos := List.length_pos_of_mem hnode
    constructor
    · simp only [reduceCtorEq, false_iff]
      intro hnil
      rw [hnil, List.length_nil] at hlength
      omega
    · rintro _ ⟨⟩
      rw [hlength, hcount]
    · rintro _ ⟨⟩ n hn
      exact h.unit s rfl n (List.mem_of_mem_erase hn)
    · rintro _ ⟨⟩ n hn
      exact h.port s rfl n (List.mem_of_mem_erase hn)

omit [DecidableEq ν] in
/-- What changes is what is stored for one instruction. -/
theorem stores_setStored {socket : PSocketResource ν} {nodes : List ν}
    {stored : Option (Port × Nat)} (h : r.Separate moves placed)
    (hsocket : socket = r.socket.setRecord cycle nodes) (hstores : Stores moves nodes stored)
    (cycle' : Nat) :
    Stores moves ((r.setStored socket cycle stored).socket.resourceRecord cycle')
      ((r.setStored socket cycle stored).storedPorts cycle') := by
  have hrecord : (r.setStored socket cycle stored).socket.resourceRecord cycle' =
      if cycle' = r.socket.instructionIndex cycle then nodes
      else r.socket.resourceRecord cycle' := by
    rw [setStored, hsocket]
    exact PSocketResource.setRecord_record _ _ _ _
  have hports : (r.setStored socket cycle stored).storedPorts cycle' =
      if cycle' = r.socket.instructionIndex cycle then stored else r.storedPorts cycle' := by
    rw [setStored]
    exact Function.update_apply _ _ _ _
  rw [hrecord, hports]
  split
  · exact hstores
  · exact h.stores cycle'

theorem assign_eq (h : r.Separate moves placed)
    (hcan : r.canAssign moves (r.socket.instructionIndex cycle) node = true) :
    ∃ stored, r.assign moves cycle node =
        r.setStored (r.socket.assign cycle node) cycle (some stored) ∧
      Stores moves (node :: r.socket.resourceRecord (r.socket.instructionIndex cycle))
        (some stored) := by
  have hstores := h.stores (r.socket.instructionIndex cycle)
  rw [assign]
  cases hstored : r.storedPorts (r.socket.instructionIndex cycle) with
  | none =>
    rw [hstores.none_iff.1 hstored]
    exact ⟨_, rfl, stores_first moves node⟩
  | some s =>
    rw [hstored] at hstores
    refine ⟨_, rfl, hstores.cons ?_⟩
    apply stored_of_canAssign hcan
    rw [r.socket.instructionIndex_self, hstored]

theorem assign_instructionIndex (moves : ν → SocketMove) (r : OutputPSocketResource ν)
    (cycle : Nat) (node : ν) :
    r.assign moves (r.socket.instructionIndex cycle) node = r.assign moves cycle node := by
  rw [assign, assign, r.socket.instructionIndex_self, r.socket.assign_instructionIndex]
  simp only [setStored, r.socket.instructionIndex_self]

theorem Separate.assign (h : r.Separate moves placed) (hnode : placed node = none)
    (hcan : (outputSocket moves).canAssign r cycle node = true) :
    ((outputSocket moves).assign r cycle node).Separate moves
        (Function.update placed node (some cycle)) ∧
      ((outputSocket moves).assign r cycle node).socket.initiationInterval =
        r.socket.initiationInterval := by
  obtain ⟨stored, heq, hstores⟩ := assign_eq h hcan
  have hassign : (outputSocket moves).assign r cycle node =
      r.setStored (r.socket.assign cycle node) cycle (some stored) :=
    (r.assign_instructionIndex moves cycle node).trans heq
  rw [hassign]
  refine ⟨?_, rfl⟩
  constructor
  · exact h.recorded.assign hnode cycle
  · apply stores_setStored h ?_ hstores
    rw [PSocketResource.assign, List.insert_of_not_mem (h.recorded.notMem hnode _)]
  · exact PSocketResource.pairwise_assign (fun n n' hn => hn.symm) h.compatible
      (compatible_of_canAssign h hcan)

theorem Separate.unassign (h : r.Separate moves placed) (hnode : placed node = some cycle) :
    ∃ r', r.unassign cycle node = .ok r' ∧ r'.Separate moves (Function.update placed node none) ∧
      r'.socket.initiationInterval = r.socket.initiationInterval := by
  obtain ⟨socket, hsocket, heq, hrecorded⟩ := h.recorded.unassign hnode
  have hmem := h.recorded.mem hnode
  have hstores := h.stores (r.socket.instructionIndex cycle)
  cases hstored : r.storedPorts (r.socket.instructionIndex cycle) with
  | none =>
    rw [hstores.none_iff.1 hstored] at hmem
    cases hmem
  | some s =>
    rw [hstored] at hstores
    refine ⟨r.setStored socket cycle (if s.2 = 1 then none else some (s.1, s.2 - 1)), ?_, ?_, ?_⟩
    · rw [OutputPSocketResource.unassign, hsocket, hstored]
      rfl
    · constructor
      · exact hrecorded
      · exact stores_setStored h heq (hstores.erase hmem)
      · intro cycle' n hn n' hn'
        rw [setStored, heq] at hn hn'
        exact h.compatible cycle' n (PSocketResource.mem_of_unassign hn) n'
          (PSocketResource.mem_of_unassign hn')
    · rw [setStored, heq]
      rfl

/-- Two moves that read through an output socket in one instruction read the same port of a function
unit or the same register, or have opposite guards, after every run of assignments that the socket
has accepted and of unassignments. -/
theorem outputSocket_separate (moves : ν → SocketMove) (ii : Nat)
    (calls : List (CycleResource.Call ν)) :
    ∃ r placed, (outputSocket moves).run (create ii, fun _ => none) calls = .ok (r, placed) ∧
      ∀ n n' c c', placed n = some c → placed n' = some c' →
        Scheduler.instructionIndex ii c = Scheduler.instructionIndex ii c' → n ≠ n' →
          Compatible (moves n) (moves n') := by
  have hstart : (create ii : OutputPSocketResource ν).Separate moves fun _ => none := by
    constructor
    · exact PSocketResource.recorded_create ii
    · intro cycle
      constructor
      · exact ⟨fun _ => rfl, fun _ => rfl⟩
      · intro s hs
        cases hs
      · intro s hs
        cases hs
      · intro s hs
        cases hs
    · intro cycle n hn
      cases hn
  have hkept := CycleResource.run_kept (R := outputSocket moves)
    (P := fun r placed => r.Separate moves placed ∧ r.socket.initiationInterval = ii)
    (fun r placed cycle node h hnode hcan =>
      (h.1.assign hnode hcan).imp_right fun hii => hii.trans h.2)
    (fun r placed cycle node h hnode => by
      obtain ⟨r', hr', hsep, hii⟩ := h.1.unassign hnode
      exact ⟨r', hr', hsep, hii.trans h.2⟩)
    (s := (create ii, fun _ => none)) ⟨hstart, rfl⟩ calls
  obtain ⟨⟨r, placed⟩, hrun, hsep, hii⟩ := hkept
  refine ⟨r, placed, hrun, fun n n' c c' hn hn' hcycle hne => ?_⟩
  have hmem' := hsep.recorded.mem hn'
  have hindex : r.socket.instructionIndex c = r.socket.instructionIndex c' := by
    rw [PSocketResource.instructionIndex, PSocketResource.instructionIndex, hii, hcycle]
  rw [← hindex] at hmem'
  exact hsep.compatible _ n (hsep.recorded.mem hn) n' hmem' hne

end OutputPSocketResource

structure BusResource where
  initiationInterval : Nat
  resourceRecord : Nat → Bool

namespace BusResource
variable {ν : Type} [DecidableEq ν]

def create (initiationInterval : Nat) : BusResource := ⟨initiationInterval, fun _ => false⟩

def isInUse (r : BusResource) (cycle : Nat) : Bool :=
  r.resourceRecord (instructionIndex r.initiationInterval cycle)

def setInUse (r : BusResource) (cycle : Nat) (used : Bool) : BusResource :=
  { r with resourceRecord :=
    Function.update r.resourceRecord (instructionIndex r.initiationInterval cycle) used }

/-- A bus that is in use stays as it is. -/
def assign (r : BusResource) (cycle : Nat) : BusResource :=
  if r.isInUse cycle then r else r.setInUse cycle true

def unassign (r : BusResource) (cycle : Nat) : Outcome BusResource :=
  if r.isInUse cycle then .ok (r.setInUse cycle false) else .error (.exception .general)

/-- A bus as its broker uses it, which gives it instruction indices. -/
def bus : CycleResource BusResource ν where
  canAssign r cycle _ := !r.isInUse (instructionIndex r.initiationInterval cycle)
  assign r cycle _ := r.assign (instructionIndex r.initiationInterval cycle)
  unassign r cycle _ := r.unassign cycle

/-- A bus is in use in the instructions that have a move on it, and no instruction has two. -/
structure Separate (ii : Nat) (r : BusResource) (placed : ν → Option Nat) : Prop where
  interval : r.initiationInterval = ii
  inUse_iff : ∀ index, r.resourceRecord index = true ↔
    ∃ node c, placed node = some c ∧ instructionIndex ii c = index
  unique : ∀ n n' c c', placed n = some c → placed n' = some c' →
    instructionIndex ii c = instructionIndex ii c' → n = n'

variable {ii cycle : Nat} {r : BusResource} {placed : ν → Option Nat} {node : ν}

theorem setInUse_record (r : BusResource) (cycle index : Nat) (used : Bool) :
    (r.setInUse cycle used).resourceRecord index =
      if index = instructionIndex r.initiationInterval cycle then used
      else r.resourceRecord index := by
  rw [setInUse]
  exact Function.update_apply _ _ _ _

theorem Separate.assign (h : r.Separate ii placed) (hnode : placed node = none)
    (hcan : bus.canAssign r cycle node = true) :
    (bus.assign r cycle node).Separate ii (Function.update placed node (some cycle)) := by
  have hfree : r.isInUse (instructionIndex r.initiationInterval cycle) = false :=
    eq_false_of_ne_true fun hused => by
      change (!_) = true at hcan
      rw [hused] at hcan
      cases hcan
  have heq : bus.assign r cycle node = r.setInUse cycle true := by
    change r.assign _ = _
    rw [BusResource.assign, hfree, if_neg Bool.false_ne_true, setInUse, instructionIndex_self]
    rfl
  rw [isInUse, instructionIndex_self, h.interval] at hfree
  have hnone : ∀ n c, placed n = some c → instructionIndex ii c ≠ instructionIndex ii cycle := by
    intro n c hn hc
    have hused := (h.inUse_iff _).2 ⟨n, c, hn, hc⟩
    cases hfree.symm.trans hused
  rw [heq]
  constructor
  · exact h.interval
  · intro index
    rw [setInUse_record, h.interval]
    split
    · next hindex => simpa using ⟨node, cycle, Function.update_self .., hindex.symm⟩
    · next hindex =>
      rw [h.inUse_iff]
      constructor
      · rintro ⟨n, c, hn, hc⟩
        refine ⟨n, c, ?_, hc⟩
        rw [Function.update_of_ne, hn]
        rintro rfl
        cases hnode.symm.trans hn
      · rintro ⟨n, c, hn, hc⟩
        by_cases hself : n = node
        · subst hself
          rw [Function.update_self] at hn
          cases hn
          exact absurd hc.symm hindex
        · rw [Function.update_of_ne hself] at hn
          exact ⟨n, c, hn, hc⟩
  · intro n n' c c' hn hn' hcycle
    by_cases hself : n = node
    · by_cases hself' : n' = node
      · rw [hself, hself']
      · rw [Function.update_of_ne hself'] at hn'
        rw [hself, Function.update_self] at hn
        cases hn
        exact absurd hcycle.symm (hnone n' c' hn')
    · rw [Function.update_of_ne hself] at hn
      by_cases hself' : n' = node
      · rw [hself', Function.update_self] at hn'
        cases hn'
        exact absurd hcycle (hnone n c hn)
      · rw [Function.update_of_ne hself'] at hn'
        exact h.unique n n' c c' hn hn' hcycle

theorem Separate.unassign (h : r.Separate ii placed) (hnode : placed node = some cycle) :
    ∃ r', bus.unassign r cycle node = .ok r' ∧
      r'.Separate ii (Function.update placed node none) := by
  have hused : r.isInUse cycle = true := by
    rw [isInUse, h.interval]
    exact (h.inUse_iff _).2 ⟨node, cycle, hnode, rfl⟩
  refine ⟨r.setInUse cycle false, if_pos hused, ?_⟩
  have hplaced : ∀ n c, Function.update placed node none n = some c ↔
      n ≠ node ∧ placed n = some c := by
    intro n c
    by_cases hself : n = node
    · simp [hself]
    · simp [hself]
  constructor
  · exact h.interval
  · intro index
    rw [setInUse_record, h.interval]
    split
    · next hindex =>
      simp only [Bool.false_eq_true, false_iff]
      rintro ⟨n, c, hn, hc⟩
      obtain ⟨hne, hn⟩ := (hplaced n c).1 hn
      exact hne (h.unique n node c cycle hn hnode (hc.trans hindex))
    · next hindex =>
      rw [h.inUse_iff]
      constructor
      · rintro ⟨n, c, hn, hc⟩
        refine ⟨n, c, (hplaced n c).2 ⟨?_, hn⟩, hc⟩
        rintro rfl
        cases hnode.symm.trans hn
        exact hindex hc.symm
      · rintro ⟨n, c, hn, hc⟩
        exact ⟨n, c, ((hplaced n c).1 hn).2, hc⟩
  · intro n n' c c' hn hn'
    exact h.unique n n' c c' ((hplaced n c).1 hn).2 ((hplaced n' c').1 hn').2

/-- No two moves are on a bus in one instruction, after every run of assignments that the bus has
accepted and of unassignments. -/
theorem bus_separate (ii : Nat) (calls : List (CycleResource.Call ν)) :
    ∃ r placed, (bus (ν := ν)).run (create ii, fun _ => none) calls = .ok (r, placed) ∧
      ∀ n n' c c', placed n = some c → placed n' = some c' →
        instructionIndex ii c = instructionIndex ii c' → n = n' := by
  have hstart : (create ii).Separate ii fun _ : ν => none := by
    constructor
    · rfl
    · simp [create]
    · intro n n' c c' hn
      cases hn
  obtain ⟨⟨r, placed⟩, hrun, hsep⟩ := CycleResource.run_kept (R := bus (ν := ν))
    (P := fun r placed => r.Separate ii placed)
    (fun r placed cycle node h hnode hcan => h.assign hnode hcan)
    (fun r placed cycle node h hnode => h.unassign hnode)
    (s := (create ii, fun _ => none)) hstart calls
  exact ⟨r, placed, hrun, hsep.unique⟩

end BusResource

end Scheduler

end OpenAsip
