import OpenAsip.GraphSearch
import OpenAsip.PathLengths

namespace OpenAsip
set_option autoImplicit true

/-- A graph with the paths that it has calculated. The table of `findAllPaths` tells of every two
descriptors whether there is a path. -/
structure PathGraph (ν ε : Type) where
  graph : BoostGraph ν ε
  lengths : PathLengths ν
  pathCache : Option (List (List Bool))

namespace BoostGraph
variable {ν ε : Type} [DecidableEq ν] [DecidableEq ε]

/-- The edges that lead from a place towards the sinks, or against them towards the sources. -/
def endsAhead (g : BoostGraph ν ε) : PathEnd → Nat → List (ε × Nat × ν)
  | .sink => g.outEnds
  | .source => g.inEnds

def endsBehind (g : BoostGraph ν ε) : PathEnd → Nat → List (ε × Nat × ν)
  | .sink => g.inEnds
  | .source => g.outEnds

variable (S : GraphSetup ν ε)

def weightAhead (side : PathEnd) (n : ν) (x : ε × Nat × ν) : Nat :=
  match side with
  | .sink => S.edgeWeight x.1 x.2.2
  | .source => S.edgeWeight x.1 n

/-- The body of the loops that look for the longest path that is left, and for the longest one
through a back edge. -/
def lookAhead (side : PathEnd) (n : ν) (acc : PathLengths ν × Nat × Nat) (x : ε × Nat × ν) :
    PathLengths ν × Nat × Nat :=
  let t := acc.1.touch side false x.2.2
  let eWeight := weightAhead S side n x
  let len := t.distance side false x.2.2 + eWeight
  if S.isBackEdge x.1 then (t, acc.2.1, max acc.2.2 len)
  else
    (t, max acc.2.1 len,
      match t.find side true x.2.2 with
      | some l => max acc.2.2 (l + eWeight)
      | none => acc.2.2)

/-- The common body of `sinkDistDecreased` and of `sourceDistDecreased`. -/
def distDecreased (g : BoostGraph ν ε) (side : PathEnd) :
    Nat → ν → PathLengths ν → Option (PathLengths ν)
  | 0, _, _ => none
  | fuel + 1, n, t =>
    if t.height.isNone then some t
    else do
      let oldLSD := t.distance side true n
      let t := t.touch side false n
      let oldSD := t.distance side false n
      let nd ← g.descriptor n
      let next := (g.endsAhead side nd).foldl (lookAhead S side n) (t, 0, 0)
      let sd := next.2.1
      let loopingSD := next.2.2
      if sd < oldSD || loopingSD < oldLSD then
        let t := next.1.store side false n sd
        let t := if loopingSD < oldLSD then t.store side true n loopingSD else t
        (g.endsBehind side nd).foldlM (fun t x =>
          if !S.isBackEdge x.1 || sd < oldSD then distDecreased g side fuel x.2.2 t
          else some t) t
      else some next.1

def sinkDistDecreased (g : BoostGraph ν ε) (fuel : Nat) (n : ν) (t : PathLengths ν) :
    Option (PathLengths ν) :=
  distDecreased S g .sink fuel n t

def sourceDistDecreased (g : BoostGraph ν ε) (fuel : Nat) (n : ν) (t : PathLengths ν) :
    Option (PathLengths ν) :=
  distDecreased S g .source fuel n t

/-- `std::set::insert` for each of the nodes. -/
def nodeSet (l : List ν) : List ν :=
  l.foldl (fun s n =>
    if n ∈ s then s else s.orderedInsert (fun a b => S.comparator a b = true) n) []

def successors (g : BoostGraph ν ε) (n : ν) : Option (List ν) :=
  (g.descriptor n).map fun nd => nodeSet S ((g.outEnds nd).map fun x => x.2.2)

def predecessors (g : BoostGraph ν ε) (n : ν) : Option (List ν) :=
  (g.descriptor n).map fun nd => nodeSet S ((g.inEnds nd).map fun x => x.2.2)

/-- The heads of the edges out of a node that are not back edges. -/
def forwardHeads (g : BoostGraph ν ε) (n : ν) : List ν :=
  match g.descriptor n with
  | some nd => ((g.outEnds nd).filter fun x => !S.isBackEdge x.1).map fun x => x.2.2
  | none => []

/-- The heads of the edges that `detectIllegalCycles` follows. -/
def edgeHeads (g : BoostGraph ν ε) (n : ν) : List ν :=
  ((g.outEdges n).filter fun e => !S.isBackEdge e).filterMap g.headNode

/-- A search for every node, which ends when it finds the node itself. -/
def detectIllegalCycles (g : BoostGraph ν ε) (fuel : Nat) : Option Bool :=
  g.vertices.anyM fun n => (GraphSearch.search (fun a b => S.comparator a b = true)
    (g.edgeHeads S) (fun s _ => some (true, s)) n fuel [n] [n] ()).map Prod.fst

/-- The graph of `replaceNodeWithLastNode` just before the last vertex goes, with the last node and
the place of the node that it replaces. -/
def withLastMoved (g : BoostGraph ν ε) (dest : ν) : Option (BoostGraph ν ε × ν × Nat) := do
  let nd ← g.descriptor dest
  let g := (g.clearDescriptorCache (g.inEdges dest ++ g.outEdges dest)).clearVertex nd
  let lastNode ← g.vertices.getLast?
  some (if dest = lastNode then g else g.moveLast nd lastNode, lastNode, nd)

end BoostGraph

namespace PathLengths
variable {ν : Type} [DecidableEq ν]

/-- Whether the edges that `disconnectNodes` has removed were on a longest path. -/
def wasLongest (t : PathLengths ν) (side : PathEnd) (near far : ν) (maxW maxwLoop : Nat) :
    PathLengths ν × Bool :=
  let t := (t.touch side false near).touch side false far
  if t.distance side false near + maxW = t.distance side false far then (t, true)
  else if (t.distances side true).isEmpty then (t, false)
  else
    let t := (t.touch side true near).touch side true far
    (t, t.distance side true near + maxW = t.distance side true far ||
      t.distance side false near + maxwLoop = t.distance side true far)

/-- What a round of `maxSinkDistance` finds. -/
def readSinkDistance (t : PathLengths ν) (n : ν) : Option Nat :=
  match t.find .sink true n, t.find .sink false n with
  | some l, some k => some (if k < l then l else k)
  | some l, none => some l
  | none, k => k

/-- What a round of `maxSourceDistance` finds. -/
def readSourceDistance (t : PathLengths ν) (n : ν) : Option Nat :=
  (t.find .source true n).or (t.find .source false n)

end PathLengths

namespace PathGraph
open BoostGraph
variable {ν ε : Type} [DecidableEq ν] [DecidableEq ε] (S : GraphSetup ν ε) (fuel : Nat)

/-- A graph without nodes. The copy constructor takes the height of the other graph over. -/
def empty (hasParent : Bool) (height : Option Nat) : PathGraph ν ε :=
  ⟨{ BoostGraph.empty with hasParent := hasParent }, ⟨height, [], [], [], []⟩, none⟩

def addNode (n : ν) (p : PathGraph ν ε) : PathGraph ν ε :=
  { p with graph := p.graph.addNode n, lengths := p.lengths.addNode n }

/-- `boost::add_edge`, after which the lengths are brought up to date. -/
def addEdge (nTail nHead : ν) (e : ε) (p : PathGraph ν ε) : Option (PathGraph ν ε) := do
  let td ← p.graph.descriptor nTail
  let hd ← p.graph.descriptor nHead
  let g := p.graph.addEdge e (td, hd)
  let t ← calculatePathLengthsOnConnect S g fuel nTail nHead e p.lengths
  some { p with graph := g, lengths := t }

def connectNodes (creatingSG : Bool) (nTail nHead : ν) (e : ε) (p : PathGraph ν ε) :
    Option (PathGraph ν ε) :=
  if !p.graph.hasNode nTail || !p.graph.hasNode nHead then
    if p.graph.hasParent then some p else none
  else do
    let td ← p.graph.descriptor nTail
    let hd ← p.graph.descriptor nHead
    if p.graph.connects td hd e then none
    else if S.allowLoopEdges || !S.isBackEdge e then
      if !S.isBackEdge e && td = hd && creatingSG then none else p.addEdge S fuel nTail nHead e
    else some p

def removeEdge (e : ε) (p : PathGraph ν ε) : PathGraph ν ε :=
  if p.graph.hasEdge e then
    { p with graph := (p.graph.eraseEdge e).forgetEdge e, pathCache := none }
  else p

def dropEdge (e : ε) (p : PathGraph ν ε) : Option (PathGraph ν ε) :=
  if p.graph.hasEdge e then some { p with graph := (p.graph.eraseEdge e).forgetEdge e } else none

/-- The weights that the loop of `disconnectNodes` keeps: both are compared with the first. -/
def maxWeights (nHead : ν) (es : List ε) : Nat × Nat :=
  es.foldl (fun w e =>
    if S.isBackEdge e then (w.1, max (S.edgeWeight e nHead) w.1)
    else (max (S.edgeWeight e nHead) w.1, w.2)) (0, 0)

def disconnectNodes (nTail nHead : ν) (p : PathGraph ν ε) : Option (PathGraph ν ε) := do
  let td ← p.graph.descriptor nTail
  let hd ← p.graph.descriptor nHead
  let es := (p.graph.edges.filter fun x => x.2 = (td, hd)).map Prod.fst
  let w := maxWeights S nHead es
  let p := es.foldl (fun p e => p.removeEdge e) p
  if p.lengths.height.isNone then some p
  else do
    let bySource := p.lengths.wasLongest .source nTail nHead w.1 w.2
    let t ← callIf bySource.2 (sourceDistDecreased S p.graph fuel nTail) bySource.1
    let bySink := if (t.distances .sink false).isEmpty then (t, false)
      else t.wasLongest .sink nHead nTail w.1 w.2
    let t ← callIf bySink.2 (sinkDistDecreased S p.graph fuel nHead) bySink.1
    some { p with
      lengths := t, pathCache := if bySource.2 || bySink.2 then none else p.pathCache }

/-- `boost::remove_edge`, after which the lengths are brought up to date. -/
def takeEdge (oldTail oldHead : ν) (e : ε) (p : PathGraph ν ε) : Option (PathGraph ν ε) := do
  let g := p.graph.eraseEdge e
  let t ← sourceDistDecreased S g fuel oldHead p.lengths
  let t ← sinkDistDecreased S g fuel oldTail t
  some { p with graph := g, lengths := t }

def forgetEdge (e : ε) (p : PathGraph ν ε) : PathGraph ν ε :=
  { p with graph := p.graph.forgetEdge e }

/-- The body of the loop of `moveInEdges`. -/
def moveToHead (source destination : ν) (p : PathGraph ν ε) (e : ε) : Option (PathGraph ν ε) := do
  let tail ← p.graph.tailNode e
  let p ← p.takeEdge S fuel tail source e
  let p := p.forgetEdge e
  callIf (p.graph.hasNode destination) (addEdge S fuel tail destination e) p

/-- The body of the loop of `moveOutEdges`. -/
def moveToTail (source destination : ν) (p : PathGraph ν ε) (e : ε) : Option (PathGraph ν ε) := do
  let head ← p.graph.headNode e
  let p ← p.takeEdge S fuel source head e
  let p := p.forgetEdge e
  callIf (p.graph.hasNode destination) (addEdge S fuel destination head e) p

def moveInEdges (source destination : ν) (p : PathGraph ν ε) : Option (PathGraph ν ε) :=
  if !p.graph.hasNode source then if p.graph.hasNode destination then none else some p
  else (p.graph.inEdges source).foldlM (moveToHead S fuel source destination) p

def moveOutEdges (source destination : ν) (p : PathGraph ν ε) : Option (PathGraph ν ε) :=
  if !p.graph.hasNode source then if p.graph.hasNode destination then none else some p
  else (p.graph.outEdges source).foldlM (moveToTail S fuel source destination) p

def moveInEdge (originalHeadNode newHeadNode : ν) (edge : ε) (tail : ν) (p : PathGraph ν ε) :
    Option (PathGraph ν ε) :=
  if p.graph.hasNode tail && p.graph.hasEdge edge then do
    let hasDestination := p.graph.hasNode newHeadNode
    let p ← callIf (p.graph.hasNode originalHeadNode) (takeEdge S fuel tail originalHeadNode edge) p
    callIf hasDestination (addEdge S fuel tail newHeadNode edge) p
  else some p

def moveOutEdge (originalTailNode newTailNode : ν) (edge : ε) (head : ν) (p : PathGraph ν ε) :
    Option (PathGraph ν ε) :=
  if p.graph.hasNode head && p.graph.hasEdge edge then do
    let hasDestination := p.graph.hasNode newTailNode
    let p ← callIf (p.graph.hasNode originalTailNode) (takeEdge S fuel originalTailNode head edge) p
    callIf hasDestination (addEdge S fuel newTailNode head edge) p
  else some p

def replaceNodeWithLastNode (dest : ν) (p : PathGraph ν ε) : Option (PathGraph ν ε) := do
  let succs ← successors S p.graph dest
  let preds ← predecessors S p.graph dest
  let (g, lastNode, nd) ← (p.graph.cacheNode dest).withLastMoved dest
  let t ← succs.foldlM (fun t n => sourceDistDecreased S g fuel n t) (p.lengths.eraseNode dest)
  let t ← preds.foldlM (fun t n => sinkDistDecreased S g fuel n t) t
  some { p with graph := g.removeLast dest lastNode nd, lengths := t }

def removeNode (nodeToRemove : ν) (p : PathGraph ν ε) : Option (PathGraph ν ε) :=
  if p.graph.hasNode nodeToRemove then p.replaceNodeWithLastNode S fuel nodeToRemove
  else if p.graph.hasParent then some p else none

def dropNode (nodeToDrop : ν) (p : PathGraph ν ε) : Option (PathGraph ν ε) :=
  if p.graph.hasNode nodeToDrop then p.replaceNodeWithLastNode S fuel nodeToDrop else some p

def height (p : PathGraph ν ε) : Option (Nat × PathGraph ν ε) :=
  match p.lengths.height with
  | some h => some (h, p)
  | none => do
    let t ← calculatePathLengths S p.graph fuel p.lengths
    let h ← t.height
    some (h, { p with lengths := t })

/-- The second round that finds nothing ends with an assertion that fails. -/
def maxSinkDistance (n : ν) (p : PathGraph ν ε) : Option (Int × PathGraph ν ε) :=
  if !p.graph.hasNode n then some (-1, p)
  else
    match p.lengths.readSinkDistance n with
    | some l => some (l, p)
    | none => do
      let t ← calculatePathLengths S p.graph fuel p.lengths
      let l ← t.readSinkDistance n
      some (l, { p with lengths := t })

def maxSourceDistance (n : ν) (p : PathGraph ν ε) : Option (Int × PathGraph ν ε) :=
  if !p.graph.hasNode n then some (-1, p)
  else
    match p.lengths.readSourceDistance n with
    | some l => some (l, p)
    | none => do
      let t ← calculateSourceDistances S p.graph fuel none 0 false p.lengths
      let l ← t.readSourceDistance n
      some (l, { p with lengths := t })

def findAllPaths (p : PathGraph ν ε) : PathGraph ν ε :=
  { p with pathCache := some (S.johnsonAllPairsShortestPaths p.graph) }

/-- The sink distance that `hasPath` compares. Without a height it does not matter. -/
def sinkDistanceFor (n : ν) (without : Int) (p : PathGraph ν ε) : Option (Int × PathGraph ν ε) :=
  if p.lengths.height.isSome then p.maxSinkDistance S fuel n else some (without, p)

/-- Whether `hasPath` goes on from a node. -/
def isWorth (dstSinkDist : Int) (p : PathGraph ν ε) (n : ν) : Option (Bool × PathGraph ν ε) := do
  let (sd, p) ← p.sinkDistanceFor S fuel n dstSinkDist
  if dstSinkDist ≤ sd then (p.graph.descriptor n).map fun _ => (true, p)
  else some (false, p)

def hasPath (src dest : ν) (p : PathGraph ν ε) : Option (Bool × PathGraph ν ε) :=
  if src = dest then some (true, p)
  else
    match p.pathCache with
    | some table => do
      let sd ← p.graph.descriptor src
      let dd ← p.graph.descriptor dest
      let row ← table[sd]?
      let path ← row[dd]?
      some (path, p)
    | none => do
      let (dstSinkDist, p) ← p.sinkDistanceFor S fuel dest (-1)
      GraphSearch.search (fun a b => S.comparator a b = true) (p.graph.forwardHeads S)
        (isWorth S fuel dstSinkDist) dest fuel [src] [] p

end PathGraph

end OpenAsip
