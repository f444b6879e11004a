import OpenAsip.BoostGraphs
import OpenAsip.Containers

namespace OpenAsip
set_option autoImplicit true

/-- The longest paths that a graph has calculated. It has calculated none without a height, which is
then −1 in the source. -/
structure PathLengths (ν : Type) where
  height : Option Nat
  sourceDistances : StdMap ν Nat
  loopingSourceDistances : StdMap ν Nat
  sinkDistances : StdMap ν Nat
  loopingSinkDistances : StdMap ν Nat

inductive PathEnd where
  | source
  | sink
deriving DecidableEq

/-- A node that waits in a priority queue. -/
structure PathLengthHelper (ν : Type) where
  node : ν
  len : Nat
  sd : Nat
  looping : Bool

/-- What does not change in a graph: its edges, the flag of its constructor, the order of its sets
of nodes, and the two algorithms of `boost` that it calls. -/
structure GraphSetup (ν ε : Type) where
  isBackEdge : ε → Bool
  edgeWeight : ε → ν → Nat
  allowLoopEdges : Bool
  comparator : ν → ν → Bool
  topologicalSort : BoostGraph ν ε → Option (List Nat)
  johnsonAllPairsShortestPaths : BoostGraph ν ε → List (List Bool)

/-- Where `calculateSourceDistances` is. The queues are in the order of the descriptors. -/
structure SourceSearch (ν : Type) where
  lengths : PathLengths ν
  queue : List (Nat × Nat)
  loopingQueue : List (Nat × Nat)

namespace PathLengths
variable {ν : Type} [DecidableEq ν]

def empty : PathLengths ν := ⟨none, [], [], [], []⟩

def raiseHeight (t : PathLengths ν) (len : Nat) : PathLengths ν :=
  { t with height := some (max (t.height.getD 0) len) }

/-- A table of distances, through a back edge or without one. -/
def distances (t : PathLengths ν) : PathEnd → Bool → StdMap ν Nat
  | .source, false => t.sourceDistances
  | .source, true => t.loopingSourceDistances
  | .sink, false => t.sinkDistances
  | .sink, true => t.loopingSinkDistances

def setDistances (t : PathLengths ν) (m : StdMap ν Nat) : PathEnd → Bool → PathLengths ν
  | .source, false => { t with sourceDistances := m }
  | .source, true => { t with loopingSourceDistances := m }
  | .sink, false => { t with sinkDistances := m }
  | .sink, true => { t with loopingSinkDistances := m }

def find (t : PathLengths ν) (side : PathEnd) (looping : Bool) (n : ν) : Option Nat :=
  (t.distances side looping).lookup n

def store (t : PathLengths ν) (side : PathEnd) (looping : Bool) (n : ν) (len : Nat) :
    PathLengths ν :=
  t.setDistances ((t.distances side looping).store n len) side looping

/-- `operator[]`, which stores a zero for a node that is not there. -/
def touch (t : PathLengths ν) (side : PathEnd) (looping : Bool) (n : ν) : PathLengths ν :=
  t.setDistances ((t.distances side looping).insert n 0) side looping

def distance (t : PathLengths ν) (side : PathEnd) (looping : Bool) (n : ν) : Nat :=
  (t.find side looping n).getD 0

/-- What `addNode` stores once there are lengths. -/
def addNode (t : PathLengths ν) (n : ν) : PathLengths ν :=
  if t.height.isSome then
    let t := (t.store .source false n 0).store .sink false n 0
    (t.store .source true n 0).store .sink true n 0
  else t

def eraseNode (t : PathLengths ν) (n : ν) : PathLengths ν :=
  if t.height.isSome then
    { t with
      sourceDistances := t.sourceDistances.eraseKey n
      sinkDistances := t.sinkDistances.eraseKey n
      loopingSourceDistances := t.loopingSourceDistances.eraseKey n
      loopingSinkDistances := t.loopingSinkDistances.eraseKey n }
  else t

/-- Whether a length is missing or shorter. -/
def isShorter (l : Option Nat) (len : Nat) : Bool :=
  match l with
  | some l => l < len
  | none => true

end PathLengths

namespace SourceSearch

/-- A node goes into a queue, or has its length there made longer. -/
def enqueue (nd len : Nat) : List (Nat × Nat) → List (Nat × Nat)
  | [] => [(nd, len)]
  | (nd', len') :: queue =>
    if nd < nd' then (nd, len) :: (nd', len') :: queue
    else if nd = nd' then (nd, max len' len) :: queue
    else (nd', len') :: enqueue nd len queue

def queueOf {ν : Type} (s : SourceSearch ν) (looping : Bool) : List (Nat × Nat) :=
  if looping then s.loopingQueue else s.queue

def setQueue {ν : Type} (s : SourceSearch ν) (looping : Bool) (queue : List (Nat × Nat)) :
    SourceSearch ν :=
  if looping then { s with loopingQueue := queue } else { s with queue := queue }

end SourceSearch

namespace BoostGraph
variable {ν ε : Type} [DecidableEq ν] [DecidableEq ε]

/-- The edges into a place with their tails. -/
def inEnds (g : BoostGraph ν ε) (nd : Nat) : List (ε × Nat × ν) :=
  g.edges.filterMap fun x =>
    if x.2.2 = nd then g.vertices[x.2.1]?.map fun tail => (x.1, x.2.1, tail) else none

/-- The edges out of a place with their heads. -/
def outEnds (g : BoostGraph ν ε) (nd : Nat) : List (ε × Nat × ν) :=
  g.edges.filterMap fun x =>
    if x.2.1 = nd then g.vertices[x.2.2]?.map fun head => (x.1, x.2.2, head) else none

variable (S : GraphSetup ν ε)

/-- The body of the loops of `calculateSourceDistances` over the edges out of a node. The second one
goes on from the paths through a back edge, follows no other one and leaves the height. -/
def visitOutEdge (len : Nat) (looping : Bool) (s : SourceSearch ν) (x : ε × Nat × ν) :
    SourceSearch ν :=
  if looping && S.isBackEdge x.1 then s
  else
    let destLen := len + S.edgeWeight x.1 x.2.2
    let lengths := if looping then s.lengths else s.lengths.raiseHeight destLen
    let loop := looping || S.isBackEdge x.1
    if PathLengths.isShorter (lengths.find .source loop x.2.2) destLen then
      { s with lengths := lengths.store .source loop x.2.2 destLen }.setQueue loop
        (SourceSearch.enqueue x.2.1 destLen (s.queueOf loop))
    else { s with lengths := lengths }

/-- A loop of `calculateSourceDistances` over one of its queues. -/
def followSources (g : BoostGraph ν ε) (looping : Bool) :
    Nat → SourceSearch ν → Option (SourceSearch ν)
  | 0, s => if (s.queueOf looping).isEmpty then some s else none
  | fuel + 1, s =>
    match s.queueOf looping with
    | [] => some s
    | (nd, len) :: queue =>
      followSources g looping fuel ((g.outEnds nd).foldl
        (visitOutEdge S len looping) (s.setQueue looping queue))

def hasForwardInEdge (g : BoostGraph ν ε) (nd : Nat) : Bool :=
  (g.inEnds nd).any fun x => !S.isBackEdge x.1

def hasForwardOutEdge (g : BoostGraph ν ε) (nd : Nat) : Bool :=
  (g.outEnds nd).any fun x => !S.isBackEdge x.1

/-- The sources go into the queue. -/
def startSource (g : BoostGraph ν ε) (len : Nat) (s : SourceSearch ν) (n : ν × Nat) :
    SourceSearch ν :=
  if hasForwardInEdge S g n.2 then s
  else { s with
    lengths := s.lengths.store .source false n.1 len
    queue := SourceSearch.enqueue n.2 len s.queue }

/-- Where the search starts: at one node, or at all sources. -/
def startSources (g : BoostGraph ν ε) (startingNode : Option ν) (startingLength : Nat)
    (looping : Bool) (t : PathLengths ν) : Option (SourceSearch ν) :=
  match startingNode with
  | some n => (g.descriptor n).map fun nd =>
      SourceSearch.setQueue ⟨t.store .source looping n startingLength, [], []⟩ looping
        [(nd, startingLength)]
  | none => some (g.vertices.zipIdx.foldl (startSource S g startingLength) ⟨t, [], []⟩)

def calculateSourceDistances (g : BoostGraph ν ε) (fuel : Nat) (startingNode : Option ν)
    (startingLength : Nat) (looping : Bool) (t : PathLengths ν) : Option (PathLengths ν) := do
  let s ← startSources S g startingNode startingLength looping (t.raiseHeight startingLength)
  let s ← followSources S g false fuel s
  let s ← followSources S g true fuel s
  some s.lengths

/-- The body of the loop of `calculateSinkDistance` over the edges into a node. -/
def visitInEdge (node : ν) (len : Nat) (looping : Bool)
    (acc : PathLengths ν × List (PathLengthHelper ν)) (x : ε × Nat × ν) :
    PathLengths ν × List (PathLengthHelper ν) :=
  if looping && S.isBackEdge x.1 then acc
  else
    let sdLen := len + S.edgeWeight x.1 node
    let loop := looping || S.isBackEdge x.1
    let t := acc.1.raiseHeight sdLen
    if PathLengths.isShorter (t.find .sink loop x.2.2) sdLen then
      let t := (t.store .sink loop x.2.2 sdLen).touch .source false x.2.2
      (t, acc.2 ++ [⟨x.2.2, sdLen, t.distance .source false x.2.2, loop⟩])
    else (t, acc.2)

/-- The order in which `std::priority_queue` gives out its elements. The standard leaves open in what
order equal ones come. -/
def byPriority (queue : List (PathLengthHelper ν)) : List (PathLengthHelper ν) :=
  queue.insertionSort fun a b => b.sd ≤ a.sd

/-- The recursion goes on as long as paths get longer. The limit is an assertion of the source. -/
def calculateSinkDistance (g : BoostGraph ν ε) :
    Nat → ν → Nat → Bool → PathLengths ν → Option (PathLengths ν)
  | 0, _, _, _, _ => none
  | fuel + 1, node, len, looping, t =>
    if 26000 < len then none
    else if len < t.distance .sink looping node then some t
    else do
      let nd ← g.descriptor node
      let next := (g.inEnds nd).foldl (visitInEdge S node len looping)
        ((t.store .sink looping node len).raiseHeight len, [])
      (byPriority next.2).foldlM (fun t helper =>
        calculateSinkDistance g fuel helper.node helper.len helper.looping t) next.1

/-- The body of the loop of `calculatePathLengthsFast` over the edges into a node. -/
def visitInEdgeFast (node : ν) (len : Nat) (t : PathLengths ν) (x : ε × Nat × ν) :
    PathLengths ν :=
  let sdLen := len + S.edgeWeight x.1 node
  if PathLengths.isShorter (t.find .sink false x.2.2) sdLen then
    (t.store .sink false x.2.2 sdLen).raiseHeight sdLen
  else t

/-- The nodes come in the order of `boost::topological_sort`. -/
def calculatePathLengthsFast (g : BoostGraph ν ε) (sortedNodes : List Nat) (t : PathLengths ν) :
    PathLengths ν :=
  sortedNodes.foldl (fun t nd =>
    match g.vertices[nd]? with
    | some node =>
      (g.inEnds nd).foldl (visitInEdgeFast S node (t.distance .sink false node))
        (t.touch .sink false node)
    | none => t) t

/-- The sinks go into the queue. -/
def startSink (g : BoostGraph ν ε) (acc : PathLengths ν × List (PathLengthHelper ν))
    (n : ν × Nat) : PathLengths ν × List (PathLengthHelper ν) :=
  if hasForwardOutEdge S g n.2 then acc
  else
    let t := acc.1.touch .source false n.1
    (t, acc.2 ++ [⟨n.1, 0, t.distance .source false n.1, false⟩])

/-- The sink distances of a graph that may have cycles. -/
def calculateSinkDistances (g : BoostGraph ν ε) (fuel : Nat) (t : PathLengths ν) :
    Option (PathLengths ν) :=
  let start := g.vertices.zipIdx.reverse.foldl (startSink S g) (t, [])
  (byPriority start.2).foldlM (fun t helper =>
    calculateSinkDistance S g fuel helper.node 0 false t) start.1

def calculatePathLengths (g : BoostGraph ν ε) (fuel : Nat) (t : PathLengths ν) :
    Option (PathLengths ν) := do
  let t ← calculateSourceDistances S g fuel none 0 false t
  if S.allowLoopEdges then calculateSinkDistances S g fuel t
  else (S.topologicalSort g).map fun sortedNodes => calculatePathLengthsFast S g sortedNodes t

/-- A call that is made under a condition. -/
def callIf {α : Type} (c : Bool) (call : α → Option α) (a : α) : Option α :=
  if c then call a else some a

def calculatePathLengthsOnConnect (g : BoostGraph ν ε) (fuel : Nat) (nTail nHead : ν) (e : ε)
    (t : PathLengths ν) : Option (PathLengths ν) :=
  if t.height.isNone then some t
  else do
    let eWeight := S.edgeWeight e nHead
    let loopingHead := (t.find .sink true nHead).isSome
    let loopingTail := (t.find .source true nTail).isSome
    let head := (t.find .sink false nHead).isSome
    let tail := (t.find .source false nTail).isSome
    let t ← callIf (loopingHead && !S.isBackEdge e) (fun t =>
      calculateSinkDistance S g fuel nTail (t.distance .sink true nHead + eWeight) true t) t
    let t := if head then t else t.store .sink false nHead 0
    let t ← calculateSinkDistance S g fuel nTail
      (t.distance .sink false nHead + eWeight) (S.isBackEdge e) t
    let t ← callIf (loopingTail && !S.isBackEdge e) (fun t =>
      calculateSourceDistances S g fuel (some nHead)
        (t.distance .source true nTail + eWeight) true t) t
    let t := if tail then t else t.store .source false nTail 0
    calculateSourceDistances S g fuel (some nHead)
      (t.distance .source false nTail + eWeight) (S.isBackEdge e) t

end BoostGraph

end OpenAsip
