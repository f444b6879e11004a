import OpenAsip.BoostGraphs

namespace OpenAsip
set_option autoImplicit true

namespace BoostGraph
open ViewTree
variable {ν ε : Type} [DecidableEq ν] [DecidableEq ε]

/-! What an update does in one graph of the tree. It goes on to the other graphs from a graph that
it changes. -/

def connectNodes (nTail nHead : ν) (e : ε) (g : BoostGraph ν ε) : Visit (BoostGraph ν ε) :=
  if !g.hasNode nTail || !g.hasNode nHead then
    if g.hasParent then .leave else .fail
  else
    match g.descriptor nTail, g.descriptor nHead with
    | some td, some hd => if g.connects td hd e then .fail else .change (g.addEdge e (td, hd))
    | _, _ => .fail

def removeEdge (e : ε) (g : BoostGraph ν ε) : Visit (BoostGraph ν ε) :=
  if g.hasEdge e then .change ((g.eraseEdge e).forgetEdge e) else .leave

def removeNode (nodeToRemove : ν) (g : BoostGraph ν ε) : Visit (BoostGraph ν ε) :=
  if g.hasNode nodeToRemove then
    match g.replaceNodeWithLastNode nodeToRemove with
    | some g' => .change g'
    | none => .fail
  else if g.hasParent then .leave else .fail

def dropNode (nodeToDrop : ν) (g : BoostGraph ν ε) : Visit (BoostGraph ν ε) :=
  if g.hasNode nodeToDrop then
    match g.replaceNodeWithLastNode nodeToDrop with
    | some g' => .change g'
    | none => .fail
  else .leave

/-- The body of `moveInEdge` and of `moveOutEdge`: the edge is taken out of a graph that has the
node which it leaves, and put into one that has the node which it gets. -/
def moveEdge (originalNode newNode fixedNode : ν) (edge : ε)
    (ends : BoostGraph ν ε → Option (Nat × Nat)) (g : BoostGraph ν ε) : Visit (BoostGraph ν ε) :=
  if g.hasNode fixedNode && g.hasEdge edge then
    let g' := if g.hasNode originalNode then g.eraseEdge edge else g
    if g.hasNode newNode then
      match ends g' with
      | some ends => .change (g'.addEdge edge ends)
      | none => .fail
    else if g.hasNode originalNode then .change g' else .leave
  else .leave

def moveInEdge (originalHeadNode newHeadNode : ν) (edge : ε) (tail : ν) :
    BoostGraph ν ε → Visit (BoostGraph ν ε) :=
  moveEdge originalHeadNode newHeadNode tail edge fun g => do
    some (← g.descriptor tail, ← g.descriptor newHeadNode)

def moveOutEdge (originalTailNode newTailNode : ν) (edge : ε) (head : ν) :
    BoostGraph ν ε → Visit (BoostGraph ν ε) :=
  moveEdge originalTailNode newTailNode head edge fun g => do
    some (← g.descriptor newTailNode, ← g.descriptor head)

/-- The body of `moveInEdges` and of `moveOutEdges`. -/
def moveEdges (source destination : ν)
    (newEnds : Option Nat → BoostGraph ν ε → ε → Option (Nat × Nat))
    (edges : BoostGraph ν ε → ν → List ε) (g : BoostGraph ν ε) : Visit (BoostGraph ν ε) :=
  if !g.hasNode source then
    if g.hasNode destination then .fail else .leave
  else
    let nd := if g.hasNode destination then g.descriptor destination else none
    .change (g.reconnectAll (newEnds nd) (edges g source))

def moveInEdges (source destination : ν) : BoostGraph ν ε → Visit (BoostGraph ν ε) :=
  moveEdges source destination endsTo inEdges

def moveOutEdges (source destination : ν) : BoostGraph ν ε → Visit (BoostGraph ν ε) :=
  moveEdges source destination endsFrom outEdges

/-- The calls on a graph of the tree. The other end of an edge that is moved may be given. A lookup
changes what the graph has stored. -/
inductive Call (ν ε : Type) where
  | addNode (node : ν)
  | connectNodes (nTail nHead : ν) (e : ε)
  | removeEdge (e : ε)
  | removeNode (node : ν)
  | dropNode (nodeToDrop : ν)
  | moveInEdge (originalHeadNode newHeadNode : ν) (edge : ε) (tail : Option ν)
  | moveOutEdge (originalTailNode newTailNode : ν) (edge : ε) (head : Option ν)
  | moveInEdges (source destination : ν)
  | moveOutEdges (source destination : ν)
  | constructSubGraph (nodes : List ν)
  | findNode (node : ν)
  | findEdge (e : ε)

/-- The graph where `moveInEdge` and `moveOutEdge` start, which is the parent of a subgraph. -/
def rootGraph (path : List Nat) (t : ViewTree (BoostGraph ν ε)) : Option (BoostGraph ν ε) :=
  (get? path t).bind fun _ => (get? path.dropLast t).map view

/-- A call on the graph at the path, unless it throws. A node is not added to the subgraphs of a
graph, but to its parent. -/
def step (isBackEdge : ε → Bool) (path : List Nat) (t : ViewTree (BoostGraph ν ε)) :
    Call ν ε → Option (ViewTree (BoostGraph ν ε))
  | .addNode n => along (·.addNode n) path t
  | .connectNodes nTail nHead e => (upFrom (·.connectNodes nTail nHead e) path t).map Prod.fst
  | .removeEdge e => (upFrom (·.removeEdge e) path t).map Prod.fst
  | .removeNode n => (upFrom (·.removeNode n) path t).map Prod.fst
  | .dropNode n => modify (down (·.dropNode n)) path t
  | .moveInEdge originalHeadNode newHeadNode edge tail => do
    let rg ← rootGraph path t
    let tail ← tail.or (rg.tailNode edge)
    modify (down (·.moveInEdge originalHeadNode newHeadNode edge tail)) path.dropLast t
  | .moveOutEdge originalTailNode newTailNode edge head => do
    let rg ← rootGraph path t
    let head ← head.or (rg.headNode edge)
    modify (down (·.moveOutEdge originalTailNode newTailNode edge head)) path.dropLast t
  | .moveInEdges source destination =>
    (upFrom (·.moveInEdges source destination) path t).map Prod.fst
  | .moveOutEdges source destination =>
    (upFrom (·.moveOutEdges source destination) path t).map Prod.fst
  | .constructSubGraph nodes =>
    modify (fun t => (t.view.subGraph isBackEdge nodes).map fun sub =>
      .node t.view (t.parts ++ [.node sub []])) path t
  | .findNode n => modify (fun t => some (.node (t.view.cacheNode n) t.parts)) path t
  | .findEdge e => modify (fun t => some (.node (t.view.cacheEdge e) t.parts)) path t

end BoostGraph

end OpenAsip
