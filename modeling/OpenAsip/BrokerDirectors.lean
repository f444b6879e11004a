import Mathlib.Algebra.Order.Group.Int
import Mathlib.Data.List.Nodup
import OpenAsip.Outcomes

namespace OpenAsip
set_option autoImplicit true

namespace Scheduler

/-- What the director reads of a node, which has a move or a long immediate. An assignment replaces
the guard of a move by one of the machine, which may have another latency. -/
structure NodeInfo where
  isMove : Bool
  guardLatency : Nat
  originalGuardLatency : Nat
deriving DecidableEq

/-- What the instructions hold of an assigned node: the move, or the immediate, in its cycle, and
the immediate that is written for a move, if any, in another one. -/
structure Assignment (ν : Type) where
  node : ν
  cycle : Int
  immediateWrite : Option Int
deriving DecidableEq

/-- The director without what belongs to modulo scheduling, and the brokers as far as their
instructions go. -/
structure SimpleBrokerDirector (ν : Type) where
  placed : ν → Option Int
  assignments : List (Assignment ν)
  recorded : ν → Bool
  knownMaxCycle : Int
  knownMinCycle : Int
  moveCounts : Int → Int

/-- What the search over the brokers comes to. A search that fails may give back what the node had
before. A search that succeeds has the cycle that `immediateWriteCycle` answers, -1 if there is
none, and may have written an immediate in it. -/
inductive Search where
  | notFound (keeps : Bool)
  | found (immediateWriteCycle : Int) (inserts : Bool)
deriving DecidableEq

/-- `MoveNode::guardLatency`. -/
def NodeInfo.latency (n : NodeInfo) : Nat := if n.isMove then n.guardLatency else 0

def guardSlack (latency : Nat) : Int := max 0 ((latency : Int) - 1)

namespace SimpleBrokerDirector
variable {ν : Type}

def new (placed : ν → Option Int) : SimpleBrokerDirector ν :=
  ⟨placed, [], fun _ => false, -1, 2 ^ 31 - 1, fun _ => 0⟩

section Instructions
variable (info : ν → NodeInfo) (s : SimpleBrokerDirector ν)

/-- The moves of an instruction. -/
def moves (cycle : Int) : List (Assignment ν) :=
  s.assignments.filter fun a => a.cycle = cycle ∧ (info a.node).isMove

def moveCount (cycle : Int) : Nat := (s.moves info cycle).length

/-- The immediates of nodes and those of moves. -/
def immediateCount (cycle : Int) : Nat :=
  (s.assignments.filter fun a => a.cycle = cycle ∧ ¬ (info a.node).isMove).length +
    (s.assignments.filter fun a => a.immediateWrite = some cycle).length

def isEmptyInstruction (cycle : Int) : Bool :=
  s.moveCount info cycle = 0 ∧ s.immediateCount info cycle = 0

end Instructions

/-- The loop that goes down over empty instructions. -/
def lowerMaxCycle (isEmpty : Int → Bool) (knownMinCycle : Int) : Nat → Int → Int
  | 0, cycle => cycle
  | n + 1, cycle =>
    if knownMinCycle ≤ cycle ∧ isEmpty cycle then
      lowerMaxCycle isEmpty knownMinCycle n (cycle - 1)
    else cycle

/-- The loop that goes up over empty instructions. -/
def raiseMinCycle (isEmpty : Int → Bool) (knownMaxCycle : Int) : Nat → Int → Int
  | 0, cycle => cycle
  | n + 1, cycle =>
    if cycle ≤ knownMaxCycle ∧ isEmpty cycle then
      raiseMinCycle isEmpty knownMaxCycle n (cycle + 1)
    else cycle

variable [DecidableEq ν] (info : ν → NodeInfo)

/-- What the instructions hold without the node. -/
def withoutNode (s : SimpleBrokerDirector ν) (node : ν) : SimpleBrokerDirector ν :=
  { s with assignments := s.assignments.filter fun a => a.node ≠ node }

/-- `AssignmentPlan::setRequest` sets the cycle of the node before the search. -/
def request (s : SimpleBrokerDirector ν) (cycle : Int) (node : ν) : SimpleBrokerDirector ν :=
  { s with
    placed := Function.update s.placed node (some cycle)
    recorded := Function.update s.recorded node (s.recorded node || (info node).isMove) }

/-- The end of `assign`, after an assignment was found. -/
def place (s : SimpleBrokerDirector ν) (cycle : Int) (node : ν) (immediateWriteCycle : Int)
    (inserts : Bool) : SimpleBrokerDirector ν :=
  let slack := guardSlack (info node).latency
  let knownMinCycle :=
    if s.knownMinCycle > cycle - slack then max (cycle - slack) 0 else s.knownMinCycle
  let write := if inserts then some immediateWriteCycle else none
  { s.withoutNode node with
    assignments := (s.withoutNode node).assignments ++ [⟨node, cycle, write⟩]
    knownMaxCycle := if s.knownMaxCycle < cycle then cycle else s.knownMaxCycle
    knownMinCycle :=
      if (info node).isMove ∧ knownMinCycle > immediateWriteCycle ∧ 0 ≤ immediateWriteCycle then
        immediateWriteCycle
      else knownMinCycle
    moveCounts :=
      if (info node).isMove then
        Function.update s.moveCounts cycle (s.moveCounts cycle + 1)
      else s.moveCounts }

/-- The state after the call and the exception that it throws. -/
def assign (s : SimpleBrokerDirector ν) (cycle : Int) (node : ν) (search : Search) :
    SimpleBrokerDirector ν × Option ExceptionClass :=
  if cycle < 0 then (s, some .invalidData)
  else if cycle = 2 ^ 31 - 1 then (s, some .invalidData)
  else if s.placed node ≠ none ∧ s.placed node ≠ some cycle then (s, some .invalidData)
  else
    let s := s.request info cycle node
    match search with
    | .notFound keeps => (if keeps then s else s.withoutNode node, some .general)
    | .found immediateWriteCycle inserts =>
      (s.place info cycle node immediateWriteCycle inserts, none)

/-- The upper bound after the node of the cycle is gone, and the lower one, which is reset with
it. -/
def lowerBound (s : SimpleBrokerDirector ν) (nodeCycle : Int) : SimpleBrokerDirector ν :=
  if nodeCycle = s.knownMaxCycle then
    let knownMaxCycle := lowerMaxCycle (s.isEmptyInstruction info) s.knownMinCycle
      (s.knownMaxCycle - s.knownMinCycle + 1).toNat s.knownMaxCycle
    if knownMaxCycle < s.knownMinCycle then
      { s with knownMinCycle := 2 ^ 31 - 1, knownMaxCycle := -1 }
    else { s with knownMaxCycle := knownMaxCycle }
  else s

/-- The lower bound goes up to the first instruction that is not empty, and from there down to the
guards that are read for the moves in it. -/
def raiseBound (s : SimpleBrokerDirector ν) : SimpleBrokerDirector ν :=
  let cycle := raiseMinCycle (s.isEmptyInstruction info) s.knownMaxCycle
    (s.knownMaxCycle - s.knownMinCycle + 1).toNat s.knownMinCycle
  if cycle ≤ s.knownMaxCycle then
    { s with knownMinCycle := (s.moves info cycle).foldl (fun knownMinCycle a =>
        let slack := guardSlack (info a.node).guardLatency
        if cycle - slack < knownMinCycle then cycle - slack else knownMinCycle) cycle }
  else { s with knownMinCycle := cycle }

/-- A node without a move is refused by `AssignmentPlan::resetAssignments`, which reads its move. A
move without record ends the program. The write cycle is what `immediateWriteCycle` answers if the
source of the move is an immediate register. -/
def unassign (s : SimpleBrokerDirector ν) (node : ν) (immediateWriteCycle : Option Int) :
    Outcome (SimpleBrokerDirector ν × Option ExceptionClass) :=
  match s.placed node with
  | none => .ok (s, some .invalidData)
  | some nodeCycle =>
    let minCycleImmSrc := (info node).isMove ∧ immediateWriteCycle = some s.knownMinCycle
    let s := { s with
      moveCounts := Function.update s.moveCounts nodeCycle (s.moveCounts nodeCycle - 1) }
    if ¬ (info node).isMove then .ok (s, some .notAvailable)
    else if ¬ s.recorded node then .error .assertion
    else
      let s := { s.withoutNode node with
        placed := Function.update s.placed node none
        recorded := Function.update s.recorded node false }
      let s := s.lowerBound info nodeCycle
      let slack := guardSlack (info node).originalGuardLatency
      if s.knownMinCycle = nodeCycle - slack ∨ minCycleImmSrc then .ok (s.raiseBound info, none)
      else .ok (s, none)

inductive Call (ν : Type) where
  | assign (cycle : Int) (node : ν) (search : Search)
  | unassign (node : ν) (immediateWriteCycle : Option Int)

/-- The caller goes on after an exception. -/
def step (s : SimpleBrokerDirector ν) : Call ν → Outcome (SimpleBrokerDirector ν)
  | .assign cycle node search => .ok (s.assign info cycle node search).1
  | .unassign node immediateWriteCycle => do
    let r ← s.unassign info node immediateWriteCycle
    .ok r.1

end SimpleBrokerDirector
end Scheduler

end OpenAsip
