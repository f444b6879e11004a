import Mathlib.Algebra.Order.Ring.Int
import OpenAsip.Outcomes

namespace OpenAsip
set_option autoImplicit true

namespace DDG

inductive DependenceType where
  | unknown
  | raw
  | war
  | waw
  | trigger
deriving DecidableEq, Repr

inductive EdgeReason where
  | register
  | memory
  | fuState
  | operation
  | ra
deriving DecidableEq, Repr

structure DataDependenceEdge where
  edgeReason : EdgeReason
  dependenceType : DependenceType
  data : String
  guardUse : Bool
  tailPseudo : Bool
  headPseudo : Bool
  /-- It is kept in an `unsigned char`. -/
  loopDepth : Fin 256
deriving DecidableEq, Repr

def DataDependenceEdge.isBackEdge (edge : DataDependenceEdge) : Bool := edge.loopDepth ≠ 0

/-- What the loop takes off the latency with an initiation interval. -/
def DataDependenceEdge.distance (edge : DataDependenceEdge) (ii : Nat) : Nat :=
  ii * edge.loopDepth.val

/-- A move with its operations, which are known by their numbers. -/
structure MoveNode where
  sourceOperation : Option Nat
  destinationOperations : List Nat
  guardLatency : Int
deriving DecidableEq, Repr

namespace MoveNode

def isSourceOperation (node : MoveNode) : Bool := node.sourceOperation.isSome

def isDestinationOperation (node : MoveNode) : Bool := !node.destinationOperations.isEmpty

def isRegisterMove (node : MoveNode) : Bool :=
  !node.isSourceOperation && !node.isDestinationOperation

def inSameOperation (node other : MoveNode) : Bool :=
  if other.isRegisterMove || node.isRegisterMove then false
  else
    let others := other.sourceOperation.toList ++ other.destinationOperations
    node.sourceOperation.any (others.contains ·) ||
      node.destinationOperations.any (others.contains ·)

end MoveNode

structure Connection (n : Nat) where
  tail : Fin n
  edge : DataDependenceEdge
  head : Fin n

/-- The cycles of the nodes that are placed. -/
abbrev Placement (n : Nat) := Fin n → Option Int

/-- A graph with its machine, which does not have triggers that invalidate results. -/
structure DataDependenceGraph (n : Nat) where
  delaySlots : Int
  operationLatencies : List (String × Int)
  node : Fin n → MoveNode
  connections : List (Connection n)

/-- A sum of type `int`. -/
def int (x : Int) : Outcome Int :=
  if -2 ^ 31 ≤ x ∧ x < 2 ^ 31 then .ok x else .error .undefined

/-- An `unsigned int` stored into an `int`. -/
def ofUnsigned (x : Int) : Int := x.bmod (2 ^ 32)

/-- The flags of `earliestCycle`. -/
structure EarliestFlags where
  ignoreRegWaRs : Bool := false
  ignoreRegWaWs : Bool := false
  ignoreGuards : Bool := false
  ignoreFuDeps : Bool := false
  ignoreSameOperationEdges : Bool := false
  assumeBypassing : Bool := false

/-- The flags of `latestCycle`. -/
structure LatestFlags where
  ignoreRegAntideps : Bool := false
  ignoreUnscheduledSuccessors : Bool := false
  ignoreGuards : Bool := false
  ignoreFuDeps : Bool := false
  ignoreSameOperationEdges : Bool := false

namespace DataDependenceGraph

variable (g : DataDependenceGraph n)

def inEdges (v : Fin n) : List (Connection n) := g.connections.filter (·.head = v)

def outEdges (v : Fin n) : List (Connection n) := g.connections.filter (·.tail = v)

def getOperationLatency (name : String) : Int := (g.operationLatencies.lookup name).getD 1

/-- What `edgeLatency` starts from. The two nodes may be left out, and only some cases then look
them up. -/
def ownLatency (c : Connection n) (tail head : Option MoveNode) :
    Int × Option MoveNode × Option MoveNode :=
  if c.edge.edgeReason = .operation then
    let head := head.getD (g.node c.head)
    if head.isSourceOperation then
      let tail := tail.getD (g.node c.tail)
      (if tail.inSameOperation head then g.getOperationLatency c.edge.data else 1, some tail,
        some head)
    else (1, tail, some head)
  else (if c.edge.dependenceType = .war then 0 else 1, tail, head)

/-- An invalid guard edge is only reported. -/
def addGuardLatency (edge : DataDependenceEdge) (tail head : Option MoveNode) (latency : Int) :
    Outcome Int :=
  if edge.guardUse then
    match edge.dependenceType with
    | .raw =>
      match head with
      | some head => do
        let more ← int (head.guardLatency - 1)
        int (latency + more)
      | none => .error .undefined
    | .war =>
      match tail with
      | some tail => do
        let less ← int (tail.guardLatency - 1)
        int (latency - less)
      | none => .error .undefined
    | _ => .ok latency
  else .ok latency

def edgeLatency (c : Connection n) (ii : Nat) (tail head : Option MoveNode) : Outcome Int := do
  let own := g.ownLatency c tail head
  let latency ← int (own.1 - if c.edge.headPseudo then g.delaySlots else 0)
  let latency ← int (latency + if c.edge.tailPseudo then g.delaySlots else 0)
  let latency ← addGuardLatency c.edge own.2.1 own.2.2 latency
  let distance ← int (c.edge.distance ii)
  int (latency - distance)

/-- The cycle that the tail of an edge counts for, before the loop distance. It is none if the edge
is skipped. -/
def effTailCycle (flags : EarliestFlags) (edge : DataDependenceEdge) (tail moveNode : MoveNode)
    (tailCycle : Int) : Outcome (Option Int) := do
  let usual := if flags.assumeBypassing then 0 else 1
  if edge.headPseudo then
    let cycle ← int (tailCycle - g.delaySlots)
    .ok (some cycle)
  else if edge.edgeReason = .operation ∧ moveNode.isSourceOperation ∧
      tail.inSameOperation moveNode then
    let cycle ← int (tailCycle + g.getOperationLatency edge.data)
    .ok (some cycle)
  else
    match edge.dependenceType with
    | .waw =>
      if edge.edgeReason = .register ∧ flags.ignoreRegWaWs then .ok none
      else do
        let cycle ← int (tailCycle + 1)
        .ok (some cycle)
    | .war =>
      if edge.edgeReason = .register ∧ flags.ignoreRegWaRs then .ok none
      else do
        let cycle ← int (tailCycle - if edge.guardUse then tail.guardLatency else usual)
        let cycle ← int (cycle + 1)
        .ok (some cycle)
    | _ => do
      let cycle ← int (tailCycle + if edge.guardUse then moveNode.guardLatency else usual)
      .ok (some cycle)

/-- The cycle that the head of an edge counts for. -/
def effHeadCycle (flags : LatestFlags) (edge : DataDependenceEdge) (moveNode head : MoveNode)
    (headCycle : Int) : Outcome (Option Int) := do
  if edge.headPseudo then
    let cycle ← int (headCycle + g.delaySlots)
    .ok (some cycle)
  else
    match edge.dependenceType with
    | .waw =>
      if edge.edgeReason = .register ∧ !edge.tailPseudo ∧ flags.ignoreRegAntideps then .ok none
      else do
        let cycle ← int (headCycle - 1)
        .ok (some cycle)
    | .war =>
      if edge.edgeReason = .register ∧ !edge.tailPseudo ∧ flags.ignoreRegAntideps then .ok none
      else do
        let cycle ← int (headCycle + if edge.guardUse then moveNode.guardLatency else 1)
        let cycle ← int (cycle - 1)
        .ok (some cycle)
    | _ => do
      let latency :=
        if edge.guardUse then head.guardLatency
        else if edge.edgeReason = .operation ∧ moveNode.isDestinationOperation ∧
          head.inSameOperation moveNode then g.getOperationLatency edge.data
        else 1
      let cycle ← int (headCycle - latency)
      .ok (some cycle)

def isFuDep (edge : DataDependenceEdge) : Bool :=
  edge.edgeReason = .fuState || edge.edgeReason = .memory

variable (cycle : Placement n)

/-- One edge of the loop of `earliestCycle`. -/
def earliestStep (flags : EarliestFlags) (ii : Nat) (v : Fin n) (minCycle : Int)
    (c : Connection n) : Outcome Int :=
  let edge := c.edge
  let tail := g.node c.tail
  let moveNode := g.node v
  if flags.ignoreGuards && edge.guardUse then .ok minCycle
  else if flags.ignoreFuDeps && isFuDep edge then .ok minCycle
  else if flags.ignoreSameOperationEdges && edge.edgeReason = .operation then .ok minCycle
  else if c.tail = v then .ok minCycle
  else if flags.ignoreSameOperationEdges && !edge.isBackEdge && moveNode.isSourceOperation &&
      tail.isDestinationOperation &&
      moveNode.sourceOperation = tail.destinationOperations.head? then .ok minCycle
  else
    match cycle c.tail with
    | none => .ok minCycle
    | some tailCycle => do
      match ← g.effTailCycle flags edge tail moveNode tailCycle with
      | none => .ok minCycle
      | some eff =>
        if ii = 0 ∧ edge.loopDepth ≠ 0 then .error .assertion
        else .ok (max (ofUnsigned (eff - edge.distance ii)) minCycle)

def earliestCycle (flags : EarliestFlags) (ii : Nat) (v : Fin n) : Outcome Int :=
  (g.inEdges v).foldlM (g.earliestStep cycle flags ii v) 0

/-- One edge of the loop of `latestCycle`. It is none if the function returns -1 there. -/
def latestStep (flags : LatestFlags) (ii : Nat) (v : Fin n) (maxCycle : Int)
    (c : Connection n) : Outcome (Option Int) :=
  let edge := c.edge
  let head := g.node c.head
  let moveNode := g.node v
  if flags.ignoreGuards && edge.guardUse then .ok (some maxCycle)
  else if flags.ignoreFuDeps && isFuDep edge then .ok (some maxCycle)
  else if flags.ignoreSameOperationEdges && edge.edgeReason = .operation then .ok (some maxCycle)
  else if c.head = v then .ok (some maxCycle)
  else
    match cycle c.head with
    | none =>
      if !edge.isBackEdge && !flags.ignoreUnscheduledSuccessors then .ok none
      else .ok (some maxCycle)
    | some headCycle => do
      match ← g.effHeadCycle flags edge moveNode head headCycle with
      | none => .ok (some maxCycle)
      | some eff =>
        if ii = 0 ∧ edge.loopDepth ≠ 0 then .error .assertion
        else .ok (some (min (ofUnsigned (eff + edge.distance ii)) maxCycle))

def latestLoop (flags : LatestFlags) (ii : Nat) (v : Fin n) :
    List (Connection n) → Int → Outcome Int
  | [], maxCycle => .ok maxCycle
  | c :: l, maxCycle => do
    match ← g.latestStep cycle flags ii v maxCycle c with
    | some maxCycle => latestLoop flags ii v l maxCycle
    | none => .ok (-1)

def latestCycle (flags : LatestFlags) (ii : Nat) (v : Fin n) : Outcome Int :=
  g.latestLoop cycle flags ii v (g.outEdges v) (2 ^ 31 - 1)

end DataDependenceGraph

end DDG

end OpenAsip
