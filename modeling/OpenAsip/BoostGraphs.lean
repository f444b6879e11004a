import OpenAsip.ViewTrees
import Mathlib.Logic.Function.Basic

namespace OpenAsip
set_option autoImplicit true

/-- A graph of `boost` with what has been looked up in it. The descriptor of a node is its place in
`vertices`, that of an edge is the edge with its two ends. -/
structure BoostGraph (ν ε : Type) where
  hasParent : Bool
  vertices : List ν
  edges : List (ε × Nat × Nat)
  nodeDescriptors : ν → Option Nat
  edgeDescriptors : ε → Option (Nat × Nat)

namespace BoostGraph
variable {ν ε : Type} [DecidableEq ν] [DecidableEq ε]

def empty : BoostGraph ν ε := ⟨false, [], [], fun _ => none, fun _ => none⟩

def hasNode (g : BoostGraph ν ε) (n : ν) : Bool :=
  (g.nodeDescriptors n).isSome || n ∈ g.vertices

def descriptor (g : BoostGraph ν ε) (n : ν) : Option Nat :=
  match g.nodeDescriptors n with
  | some nd => some nd
  | none => g.vertices.idxOf? n

def hasEdge (g : BoostGraph ν ε) (e : ε) : Bool :=
  (g.edgeDescriptors e).isSome || g.edges.any fun x => x.1 = e

def edgeDescriptor (g : BoostGraph ν ε) (e : ε) : Option (Nat × Nat) :=
  match g.edgeDescriptors e with
  | some ed => some ed
  | none => (g.edges.find? fun x => x.1 = e).map Prod.snd

/-- `hasEdge` for an edge between two nodes. -/
def connects (g : BoostGraph ν ε) (td hd : Nat) (e : ε) : Bool := (e, td, hd) ∈ g.edges

def tailNode (g : BoostGraph ν ε) (e : ε) : Option ν :=
  (g.edgeDescriptor e).bind fun ed => g.vertices[ed.1]?

def headNode (g : BoostGraph ν ε) (e : ε) : Option ν :=
  (g.edgeDescriptor e).bind fun ed => g.vertices[ed.2]?

def inEdges (g : BoostGraph ν ε) (n : ν) : List ε :=
  (g.edges.filter fun x => some x.2.2 = g.descriptor n).map Prod.fst

def outEdges (g : BoostGraph ν ε) (n : ν) : List ε :=
  (g.edges.filter fun x => some x.2.1 = g.descriptor n).map Prod.fst

/-- What looking for a node stores. -/
def cacheNode (g : BoostGraph ν ε) (n : ν) : BoostGraph ν ε :=
  { g with nodeDescriptors := Function.update g.nodeDescriptors n (g.descriptor n) }

/-- What looking for an edge stores. -/
def cacheEdge (g : BoostGraph ν ε) (e : ε) : BoostGraph ν ε :=
  { g with edgeDescriptors := Function.update g.edgeDescriptors e (g.edgeDescriptor e) }

def addNode (g : BoostGraph ν ε) (n : ν) : BoostGraph ν ε :=
  { g with
    vertices := g.vertices ++ [n]
    nodeDescriptors := Function.update g.nodeDescriptors n (some g.vertices.length) }

/-- `boost::add_edge` with the descriptor that it returns. -/
def addEdge (g : BoostGraph ν ε) (e : ε) (ends : Nat × Nat) : BoostGraph ν ε :=
  { g with
    edges := g.edges ++ [(e, ends)]
    edgeDescriptors := Function.update g.edgeDescriptors e (some ends) }

/-- `boost::remove_edge` of the descriptor of the edge, which looking for it stores. -/
def eraseEdge (g : BoostGraph ν ε) (e : ε) : BoostGraph ν ε :=
  { g.cacheEdge e with edges := g.edges.filter fun x => some x.2 ≠ g.edgeDescriptor e ∨ x.1 ≠ e }

def forgetEdge (g : BoostGraph ν ε) (e : ε) : BoostGraph ν ε :=
  { g with edgeDescriptors := Function.update g.edgeDescriptors e none }

/-- A body of the loops that move edges: the edge is taken out and put back between its new ends, if
it has any. -/
def reconnect (g : BoostGraph ν ε) (e : ε) (ends : Option (Nat × Nat)) : BoostGraph ν ε :=
  match ends with
  | some ends => ((g.eraseEdge e).forgetEdge e).addEdge e ends
  | none => (g.eraseEdge e).forgetEdge e

/-- The loops that move edges. -/
def reconnectAll (newEnds : BoostGraph ν ε → ε → Option (Nat × Nat)) (es : List ε)
    (g : BoostGraph ν ε) : BoostGraph ν ε :=
  es.foldl (fun g e => g.reconnect e (newEnds g e)) g

/-- The ends of an edge that is moved to another head. -/
def endsTo (head : Option Nat) (g : BoostGraph ν ε) (e : ε) : Option (Nat × Nat) := do
  let tail ← g.tailNode e
  let td ← g.descriptor tail
  let hd ← head
  some (td, hd)

/-- The ends of an edge that is moved to another tail. -/
def endsFrom (tail : Option Nat) (g : BoostGraph ν ε) (e : ε) : Option (Nat × Nat) := do
  let td ← tail
  let head ← g.headNode e
  let hd ← g.descriptor head
  some (td, hd)

/-- `boost::clear_vertex`. -/
def clearVertex (g : BoostGraph ν ε) (nd : Nat) : BoostGraph ν ε :=
  { g with edges := g.edges.filter fun x => x.2.1 ≠ nd ∧ x.2.2 ≠ nd }

def clearDescriptorCache (g : BoostGraph ν ε) (es : List ε) : BoostGraph ν ε :=
  { g with edgeDescriptors := fun e => if e ∈ es then none else g.edgeDescriptors e }

/-- The edges of the last node are moved to the place of the node that goes. -/
def moveLast (g : BoostGraph ν ε) (nd : Nat) (lastNode : ν) : BoostGraph ν ε :=
  let g := g.reconnectAll (endsTo (some nd)) (g.inEdges lastNode)
  let g := g.reconnectAll (endsFrom (some nd)) (g.outEdges lastNode)
  { g with
    vertices := g.vertices.set nd lastNode
    nodeDescriptors := Function.update g.nodeDescriptors lastNode (some nd) }

/-- The last vertex has the highest descriptor, so that no other one changes when it is removed. -/
def removeLast (g : BoostGraph ν ε) (dest lastNode : ν) (nd : Nat) : BoostGraph ν ε :=
  let nodeDescriptors := Function.update g.nodeDescriptors lastNode (some nd)
  { g with
    vertices := g.vertices.dropLast
    nodeDescriptors := Function.update nodeDescriptors dest none }

def replaceNodeWithLastNode (g : BoostGraph ν ε) (dest : ν) : Option (BoostGraph ν ε) := do
  let nd ← g.descriptor dest
  let g := (g.clearDescriptorCache (g.inEdges dest ++ g.outEdges dest)).clearVertex nd
  let lastNode ← g.vertices.getLast?
  let g := if dest = lastNode then g else g.moveLast nd lastNode
  some (g.removeLast dest lastNode nd)

/-- `connectNodes` in a graph that `constructSubGraph` fills. -/
def connectCreating (isBackEdge : ε → Bool) (g : BoostGraph ν ε) (nTail nHead : ν) (e : ε) :
    Option (BoostGraph ν ε) := do
  let td ← g.descriptor nTail
  let hd ← g.descriptor nHead
  if g.connects td hd e then none
  else if !isBackEdge e && td = hd then none
  else some (g.addEdge e (td, hd))

/-- The body of the loops of `constructSubGraph` over the edges of the nodes. -/
def connectInside (isBackEdge : ε → Bool) (g : BoostGraph ν ε) (nodes : List ν)
    (sub : BoostGraph ν ε) (gn : ν) (e : ε) : Option (BoostGraph ν ε) := do
  let head ← g.headNode e
  if head ∈ nodes then sub.connectCreating isBackEdge gn head e else some sub

/-- What `constructSubGraph` puts into the new graph: the nodes, and the edges between them. -/
def subGraph (isBackEdge : ε → Bool) (g : BoostGraph ν ε) (nodes : List ν) :
    Option (BoostGraph ν ε) :=
  let outEdges := nodes.flatMap fun gn => (g.outEdges gn).map fun e => (gn, e)
  if nodes.all fun gn => (g.descriptor gn).isSome then
    outEdges.foldlM (fun sub x => g.connectInside isBackEdge nodes sub x.1 x.2)
      { nodes.foldl addNode empty with hasParent := true }
  else none

end BoostGraph

end OpenAsip
