import OpenAsip.PathQueries

namespace OpenAsip
set_option autoImplicit true

namespace PathGraph
open PathLengths BoostGraph
variable {ν ε : Type} [DecidableEq ν] [DecidableEq ε]

/-- What is called on one graph, also when a change in its parent or in a subgraph gets to it. -/
inductive Call (ν ε : Type) where
  | addNode (node : ν)
  | connectNodes (creatingSG : Bool) (nTail nHead : ν) (e : ε)
  | removeEdge (e : ε)
  | dropEdge (e : ε)
  | disconnectNodes (nTail nHead : ν)
  | moveInEdges (source destination : ν)
  | moveOutEdges (source destination : ν)
  | moveInEdge (originalHeadNode newHeadNode : ν) (edge : ε) (tail : ν)
  | moveOutEdge (originalTailNode newTailNode : ν) (edge : ε) (head : ν)
  | removeNode (nodeToRemove : ν)
  | dropNode (nodeToDrop : ν)
  | height
  | maxSinkDistance (node : ν)
  | maxSourceDistance (node : ν)
  | findAllPaths
  | hasPath (src dest : ν)
  | findNode (node : ν)
  | findEdge (e : ε)

/-- The graph after a call that returns. -/
def call (S : GraphSetup ν ε) (fuel : Nat) (p : PathGraph ν ε) :
    Call ν ε → Option (PathGraph ν ε)
  | .addNode n => some (p.addNode n)
  | .connectNodes creatingSG nTail nHead e => p.connectNodes S fuel creatingSG nTail nHead e
  | .removeEdge e => some (p.removeEdge e)
  | .dropEdge e => p.dropEdge e
  | .disconnectNodes nTail nHead => p.disconnectNodes S fuel nTail nHead
  | .moveInEdges source destination => p.moveInEdges S fuel source destination
  | .moveOutEdges source destination => p.moveOutEdges S fuel source destination
  | .moveInEdge originalHeadNode newHeadNode edge tail =>
    p.moveInEdge S fuel originalHeadNode newHeadNode edge tail
  | .moveOutEdge originalTailNode newTailNode edge head =>
    p.moveOutEdge S fuel originalTailNode newTailNode edge head
  | .removeNode n => p.removeNode S fuel n
  | .dropNode n => p.dropNode S fuel n
  | .height => (p.height S fuel).map Prod.snd
  | .maxSinkDistance n => (p.maxSinkDistance S fuel n).map Prod.snd
  | .maxSourceDistance n => (p.maxSourceDistance S fuel n).map Prod.snd
  | .findAllPaths => some (p.findAllPaths S)
  | .hasPath src dest => (p.hasPath S fuel src dest).map Prod.snd
  | .findNode n => some { p with graph := p.graph.cacheNode n }
  | .findEdge e => some { p with graph := p.graph.cacheEdge e }

/-- What a caller keeps to: nodes and edges that are added are new, an edge that is moved by itself
is moved from where it is to a node of the graph, lengths are calculated where every path ends, and
source distances are not the first ones that are asked for. -/
def Allowed (S : GraphSetup ν ε) (p : PathGraph ν ε) : Call ν ε → Prop
  | .addNode n => n ∉ p.graph.nodes
  | .connectNodes _ _ _ e => ∀ u v, ¬p.graph.Joins e u v
  | .moveInEdge originalHeadNode newHeadNode edge tail => p.graph.hasEdge edge →
    p.graph.Joins edge tail originalHeadNode ∧ newHeadNode ∈ p.graph.nodes
  | .moveOutEdge originalTailNode newTailNode edge head => p.graph.hasEdge edge →
    p.graph.Joins edge originalTailNode head ∧ newTailNode ∈ p.graph.nodes
  | .height | .maxSinkDistance _ => p.lengths.height = none → Calculable S p.graph
  | .maxSourceDistance _ => p.lengths.height ≠ none
  | _ => True

def Step (S : GraphSetup ν ε) (p p' : PathGraph ν ε) : Prop :=
  ∃ c fuel, Allowed S p c ∧ p.call S fuel c = some p'

variable {S : GraphSetup ν ε} {fuel : Nat} {p p' : PathGraph ν ε}

omit [DecidableEq ε] in
theorem Right.calculated (hp : Right S p) (hheight : p.lengths.height = none)
    (hcalc : Calculable S p.graph) (h : calculatePathLengths S p.graph fuel p.lengths = some t) :
    Right S { p with lengths := t } where
  wf := hp.wf
  loops := hp.loops
  sinks := calculatePathLengths_right hp.wf hcalc hp.loops
    (find_eq_none_of_bounded hp.sinks.bounded hheight) h

omit [DecidableEq ε] in
theorem Right.height (hp : Right S p) (hcalc : p.lengths.height = none → Calculable S p.graph)
    (h : p.height S fuel = some (k, p')) : Right S p' := by
  rw [PathGraph.height] at h
  split at h
  · cases h
    exact hp
  · next hheight =>
    obtain ⟨t, ht, h⟩ := Option.bind_eq_some_iff.1 h
    obtain ⟨k', _, h⟩ := Option.bind_eq_some_iff.1 h
    cases h
    exact hp.calculated hheight (hcalc hheight) ht

omit [DecidableEq ε] in
theorem Right.maxSinkDistance (hp : Right S p)
    (hcalc : p.lengths.height = none → Calculable S p.graph)
    (h : p.maxSinkDistance S fuel n = some (d, p')) : Right S p' := by
  by_cases hn : n ∈ p.graph.nodes
  · by_cases hheight : p.lengths.height = none
    · rw [PathGraph.maxSinkDistance] at h
      split at h
      · cases h
        exact hp
      · split at h
        · cases h
          exact hp
        · obtain ⟨t, ht, h⟩ := Option.bind_eq_some_iff.1 h
          obtain ⟨k', _, h⟩ := Option.bind_eq_some_iff.1 h
          cases h
          exact hp.calculated hheight (hcalc hheight) ht
    · rw [hp.maxSinkDistance_eq hheight hn] at h
      cases h
      exact hp
  · rw [hp.maxSinkDistance_missing hn] at h
    cases h
    exact hp

omit [DecidableEq ε] in
theorem Right.maxSourceDistance (hp : Right S p) (hheight : p.lengths.height ≠ none)
    (h : p.maxSourceDistance S fuel n = some (d, p')) : Right S p' := by
  rw [PathGraph.maxSourceDistance] at h
  split at h
  · cases h
    exact hp
  · split at h
    · cases h
      exact hp
    · obtain ⟨t, ht, h⟩ := Option.bind_eq_some_iff.1 h
      obtain ⟨k', _, h⟩ := Option.bind_eq_some_iff.1 h
      cases h
      exact ⟨hp.wf, hp.sinks.of_keepsSinks (keepsSinks_calculateSourceDistances ht).1
        fun hnone => absurd hnone hheight, hp.loops⟩

omit [DecidableEq ε] in
theorem Right.sinkDistanceFor_state (hp : Right S p)
    (h : p.sinkDistanceFor S fuel n without = some (d, p')) : p' = p := by
  rw [sinkDistanceFor] at h
  split at h
  · next hsome =>
    by_cases hn : n ∈ p.graph.nodes
    · rw [hp.maxSinkDistance_eq (Option.isSome_iff_ne_none.1 hsome) hn] at h
      cases h
      rfl
    · rw [hp.maxSinkDistance_missing hn] at h
      cases h
      rfl
  · cases h
    rfl

omit [DecidableEq ε] in
/-- Looking for a path calculates nothing. -/
theorem Right.hasPath_state (hp : Right S p) (h : p.hasPath S fuel src dest = some (path, p')) :
    p' = p := by
  rw [hasPath] at h
  split at h
  · cases h
    rfl
  · split at h
    · obtain ⟨sd, _, h⟩ := Option.bind_eq_some_iff.1 h
      obtain ⟨dd, _, h⟩ := Option.bind_eq_some_iff.1 h
      obtain ⟨row, _, h⟩ := Option.bind_eq_some_iff.1 h
      obtain ⟨b, _, h⟩ := Option.bind_eq_some_iff.1 h
      cases h
      rfl
    · obtain ⟨⟨dst, p₁⟩, h₁, h⟩ := Option.bind_eq_some_iff.1 h
      cases hp.sinkDistanceFor_state h₁
      apply GraphSearch.search_state _ h
      intro n b p₂ hworth
      rw [isWorth] at hworth
      obtain ⟨⟨sd, p₃⟩, h₃, hworth⟩ := Option.bind_eq_some_iff.1 hworth
      cases hp.sinkDistanceFor_state h₃
      dsimp only at hworth
      split at hworth
      · obtain ⟨nd, _, heq⟩ := Option.map_eq_some_iff.1 hworth
        cases heq
        rfl
      · cases hworth
        rfl

omit [DecidableEq ε] in
theorem Right.of_graph (hp : Right S p) (hwf : g.Wf) (hv : g.vertices = p.graph.vertices)
    (he : g.edges = p.graph.edges) : Right S { p with graph := g } := by
  have hjoins : ∀ e u v, g.Joins e u v → p.graph.Joins e u v := by
    intro e u v h
    rwa [Joins, hv, he] at h
  refine ⟨hwf, ?_, fun hl e u v he => hp.loops hl e u v (hjoins e u v he)⟩
  have hnodes : g.nodes = p.graph.nodes := by rw [nodes, nodes, hv]
  exact hp.sinks.restrict hjoins hnodes.subset (fun _ _ _ => rfl) rfl hp.sinks.bounded

/-- Every call that a caller may make keeps the lengths right. -/
theorem Right.step (hp : Right S p) (h : Step S p p') : Right S p' := by
  obtain ⟨c, fuel, hallowed, h⟩ := h
  cases c with
  | addNode n =>
    cases h
    exact hp.addNode hallowed
  | connectNodes creatingSG nTail nHead e => exact hp.connectNodes hallowed h
  | removeEdge e =>
    cases h
    exact hp.removeEdge e
  | dropEdge e => exact hp.dropEdge h
  | disconnectNodes nTail nHead => exact hp.disconnectNodes h
  | moveInEdges source destination => exact hp.moveInEdges h
  | moveOutEdges source destination => exact hp.moveOutEdges h
  | moveInEdge originalHeadNode newHeadNode edge tail => exact hp.moveInEdge hallowed h
  | moveOutEdge originalTailNode newTailNode edge head => exact hp.moveOutEdge hallowed h
  | removeNode n => exact hp.removeNode h
  | dropNode n => exact hp.dropNode h
  | height =>
    obtain ⟨⟨k, p₁⟩, h₁, rfl⟩ := Option.map_eq_some_iff.1 h
    exact hp.height hallowed h₁
  | maxSinkDistance n =>
    obtain ⟨⟨d, p₁⟩, h₁, rfl⟩ := Option.map_eq_some_iff.1 h
    exact hp.maxSinkDistance hallowed h₁
  | maxSourceDistance n =>
    obtain ⟨⟨d, p₁⟩, h₁, rfl⟩ := Option.map_eq_some_iff.1 h
    exact hp.maxSourceDistance hallowed h₁
  | findAllPaths =>
    cases h
    exact ⟨hp.wf, hp.sinks, hp.loops⟩
  | hasPath src dest =>
    obtain ⟨⟨path, p₁⟩, h₁, rfl⟩ := Option.map_eq_some_iff.1 h
    exact hp.hasPath_state h₁ ▸ hp
  | findNode n =>
    cases h
    exact hp.of_graph hp.wf.cacheNode rfl rfl
  | findEdge e =>
    cases h
    exact hp.of_graph hp.wf.cacheEdge rfl rfl

theorem Right.steps (hp : Right S p) (h : Relation.ReflTransGen (Step S) p p') : Right S p' := by
  induction h with
  | refl => exact hp
  | tail _ hstep ih => exact ih.step hstep

end PathGraph

end OpenAsip
