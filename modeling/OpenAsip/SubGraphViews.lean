import OpenAsip.SubGraphs
import OpenAsip.BoostGraphEdges
import Mathlib.Data.Set.Insert

namespace OpenAsip
set_option autoImplicit true

open ViewTree BoostGraph

/-- A graph with parts that some of its nodes induce, which have such parts again. The ends of an
edge tell where it is, also in a part. -/
structure Views (ν ε : Type) where
  joins : ε → ν → ν → Prop
  nodes : ViewTree (Set ν)

namespace Views
variable {ν ε : Type}

def start : Views ν ε := ⟨fun _ _ _ => False, .node ∅ []⟩

/-- The graph at the path has the node. -/
def Has (s : Views ν ε) (path : List Nat) (n : ν) : Prop :=
  ∃ t, get? path s.nodes = some t ∧ n ∈ t.view

def Every (s : Views ν ε) (P : Set ν → Prop) : Prop :=
  ∀ path t, get? path s.nodes = some t → P t.view

/-- What a call means. The edges of one graph are those of all others that have their ends. -/
def next (s : Views ν ε) (path : List Nat) : Call ν ε → Views ν ε
  | .addNode n => { s with nodes := (along (insert n) path s.nodes).getD s.nodes }
  | .connectNodes nTail nHead e =>
    { s with joins := fun e' u v => s.joins e' u v ∨
        (s.Has path nTail ∧ s.Has path nHead) ∧ e' = e ∧ u = nTail ∧ v = nHead }
  | .removeEdge e =>
    { s with joins := fun e' u v => s.joins e' u v ∧ ¬(e' = e ∧ s.Has path u ∧ s.Has path v) }
  | .removeNode n =>
    ⟨fun e u v => s.joins e u v ∧ (s.Has path n → u ≠ n ∧ v ≠ n),
      map (fun N => {m ∈ N | s.Has path n → m ≠ n}) s.nodes⟩
  | .dropNode n =>
    let dropped := modify (fun t => some (map (fun N => {m ∈ N | m ≠ n}) t)) path s.nodes
    { s with nodes := dropped.getD s.nodes }
  | .moveInEdge originalHeadNode newHeadNode e _ =>
    { s with joins := fun e' u v => s.joins e' u v ∧ e' ≠ e ∨
        e' = e ∧ s.joins e u originalHeadNode ∧ v = newHeadNode }
  | .moveOutEdge originalTailNode newTailNode e _ =>
    { s with joins := fun e' u v => s.joins e' u v ∧ e' ≠ e ∨
        e' = e ∧ s.joins e originalTailNode v ∧ u = newTailNode }
  | .moveInEdges source destination =>
    { s with joins := fun e u v => s.joins e u v ∧ (s.Has path source → v ≠ source) ∨
        s.Has path source ∧ s.joins e u source ∧ v = destination ∧ destination ∈ s.nodes.view }
  | .moveOutEdges source destination =>
    { s with joins := fun e u v => s.joins e u v ∧ (s.Has path source → u ≠ source) ∨
        s.Has path source ∧ s.joins e source v ∧ u = destination ∧ destination ∈ s.nodes.view }
  | .constructSubGraph nodes =>
    let constructed := modify (fun t =>
      some (.node t.view (t.parts ++ [.node {n | n ∈ nodes} []]))) path s.nodes
    { s with nodes := constructed.getD s.nodes }
  | .findNode _ => s
  | .findEdge _ => s

/-- The calls that keep what the graphs show the same. One edge is moved in the root graph, where it
has to be at the node, and every graph that has its other end has both nodes or none of them. All
edges of a node are moved to a node that only graphs with the first one have. -/
def Safe (isBackEdge : ε → Bool) (s : Views ν ε) (path : List Nat) : Call ν ε → Prop
  | .addNode n => n ∉ s.nodes.view
  | .connectNodes nTail nHead e => (path = [] → nTail ∈ s.nodes.view ∧ nHead ∈ s.nodes.view) ∧
    (s.Has path nTail → s.Has path nHead → ∀ u v, ¬s.joins e u v)
  | .removeEdge _ => True
  | .removeNode n => path = [] → n ∈ s.nodes.view
  | .dropNode _ => path ≠ []
  | .moveInEdge originalHeadNode newHeadNode e tail => path.length ≤ 1 ∧
    ∃ n, s.joins e n originalHeadNode ∧ (tail = none ∨ tail = some n) ∧
      s.Every fun N => n ∈ N → (originalHeadNode ∈ N ↔ newHeadNode ∈ N)
  | .moveOutEdge originalTailNode newTailNode e head => path.length ≤ 1 ∧
    ∃ n, s.joins e originalTailNode n ∧ (head = none ∨ head = some n) ∧
      s.Every fun N => n ∈ N → (originalTailNode ∈ N ↔ newTailNode ∈ N)
  | .moveInEdges source destination | .moveOutEdges source destination =>
    (s.Has path destination → s.Has path source) ∧
      (s.Has path source → s.Every fun N => destination ∈ N → source ∈ N)
  | .constructSubGraph nodes => nodes.Nodup ∧ (∀ n ∈ nodes, s.Has path n) ∧
    ∀ e n, s.joins e n n → n ∈ nodes → isBackEdge e
  | .findNode _ | .findEdge _ => True

/-- Every call is made on a graph of the tree, and keeps what the graphs show the same. -/
def SafeCalls (isBackEdge : ε → Bool) : Views ν ε → List (List Nat × Call ν ε) → Prop
  | _, [] => True
  | s, (path, call) :: calls => (∃ t, get? path s.nodes = some t) ∧ s.Safe isBackEdge path call ∧
    SafeCalls isBackEdge (s.next path call) calls

def after : Views ν ε → List (List Nat × Call ν ε) → Views ν ε
  | s, [] => s
  | s, (path, call) :: calls => (s.next path call).after calls

end Views

namespace BoostGraph
variable {ν ε : Type} [DecidableEq ν] [DecidableEq ε]

/-- The graph is the one that the nodes induce, and says so. -/
structure Answers (g : BoostGraph ν ε) (J : ε → ν → ν → Prop) (N : Set ν) : Prop where
  edges : (g.edges.map Prod.fst).Nodup
  joins : g.Joins e u v ↔ J e u v ∧ u ∈ N ∧ v ∈ N
  hasNode : g.hasNode n ↔ n ∈ N
  hasEdge : g.hasEdge e ↔ ∃ u v, J e u v ∧ u ∈ N ∧ v ∈ N
  tailNode : g.tailNode e = some u ↔ ∃ v, J e u v ∧ u ∈ N ∧ v ∈ N
  headNode : g.headNode e = some v ↔ ∃ u, J e u v ∧ u ∈ N ∧ v ∈ N
  inEdges : e ∈ g.inEdges v ↔ ∃ u, J e u v ∧ u ∈ N ∧ v ∈ N
  outEdges : e ∈ g.outEdges u ↔ ∃ v, J e u v ∧ u ∈ N ∧ v ∈ N

/-- The tree after some calls, of which none throws. -/
def steps (isBackEdge : ε → Bool) :
    ViewTree (BoostGraph ν ε) → List (List Nat × Call ν ε) → Option (ViewTree (BoostGraph ν ε))
  | t, [] => some t
  | t, (path, call) :: calls => (step isBackEdge path t call).bind fun t' =>
    steps isBackEdge t' calls

end BoostGraph

end OpenAsip
