import OpenAsip.BoostGraphMoves
import OpenAsip.SinkDistanceStarts

namespace OpenAsip
set_option autoImplicit true

namespace PathLengths
variable {ν : Type} [DecidableEq ν] {t : PathLengths ν} {b : Bool} {n m : ν}

theorem height_addNode : (t.addNode n).height = t.height := by
  rw [addNode]
  split
  · simp only [height_store]
  · rfl

theorem find_addNode (hm : m ≠ n) : (t.addNode n).find .sink b m = t.find .sink b m := by
  rw [addNode]
  split
  · simp only [find_store, hm, and_false, if_false]
  · rfl

theorem find_addNode_self (h : t.height ≠ none) : (t.addNode n).find .sink b n = some 0 := by
  rw [addNode, if_pos (Option.isSome_iff_ne_none.2 h)]
  cases b <;> simp [find_store]

theorem height_eraseNode : (t.eraseNode n).height = t.height := by
  rw [eraseNode]
  split
  · rfl
  · rfl

theorem find_eraseNode (hm : m ≠ n) : (t.eraseNode n).find .sink b m = t.find .sink b m := by
  rw [eraseNode]
  split
  · cases b
    · exact StdMap.lookup_eraseKey_ne _ hm
    · exact StdMap.lookup_eraseKey_ne _ hm
  · rfl

theorem find_eraseNode_self (h : t.height ≠ none) : (t.eraseNode n).find .sink b n = none := by
  rw [eraseNode, if_pos (Option.isSome_iff_ne_none.2 h)]
  cases b
  · exact StdMap.lookup_eraseKey_self _
  · exact StdMap.lookup_eraseKey_self _

end PathLengths

namespace PathGraph
open PathLengths BoostGraph
variable {ν ε : Type} [DecidableEq ν] [DecidableEq ε] {S : GraphSetup ν ε} {fuel : Nat}
  {p p' : PathGraph ν ε} {t t' : PathLengths ν} {hasParent : Bool} {height : Option Nat}

/-- The graph is well formed, has back edges only if it may, and its sink distances are right if it
has any. -/
structure Right (S : GraphSetup ν ε) (p : PathGraph ν ε) : Prop where
  wf : p.graph.Wf
  sinks : SinksRight S p.graph p.lengths
  loops : S.allowLoopEdges = false → ∀ e u v, p.graph.Joins e u v → S.isBackEdge e = false

omit [DecidableEq ν] [DecidableEq ε] in
theorem wf_empty : (empty hasParent height : PathGraph ν ε).graph.Wf := by
  refine ⟨List.nodup_nil, fun h => absurd h List.not_mem_nil, List.nodup_nil, ?_, ?_⟩
  · intro n nd h
    cases h
  · intro e ed h
    cases h

omit [DecidableEq ε] in
theorem right_empty : Right S (empty hasParent height) where
  wf := wf_empty
  loops _ _ _ _ he := absurd he.left List.not_mem_nil
  sinks := by
    refine ⟨fun e u v he => ?_, fun _ n hn => absurd hn List.not_mem_nil, fun b n l hl => ?_⟩
    · exact absurd he.left List.not_mem_nil
    · cases b <;> cases hl

omit [DecidableEq ε] in
theorem Right.addNode (hp : Right S p) (hn : n ∉ p.graph.nodes) : Right S (p.addNode n) where
  wf := hp.wf.addNode hn
  loops hl e u v he := hp.loops hl e u v (hp.wf.joins_addNode.1 he)
  sinks := by
    have hne : ∀ m ∈ p.graph.nodes, m ≠ n := fun m hm heq => hn (heq ▸ hm)
    refine ⟨fun e u v he b l hl hpos => .inr ?_, fun hheight m hm => ?_, fun b m l hl => ?_⟩
    · have he' : p.graph.Joins e u v := hp.wf.joins_addNode.1 he
      have hl' : p.lengths.find .sink b v = some l := by
        rw [← find_addNode (hne v he'.right)]
        exact hl
      obtain ⟨k, hk, hle⟩ := hp.sinks.settled.atLeast he' hl' hpos
      exact ⟨k, (find_addNode (hne u he'.left)).trans hk, hle⟩
    · have hheight' : p.lengths.height ≠ none := by
        rwa [PathGraph.addNode, height_addNode] at hheight
      rw [PathGraph.addNode, nodes_addNode] at hm
      change (p.lengths.addNode n).find .sink false m ≠ none
      rcases hm with rfl | hm
      · rw [find_addNode_self hheight']
        exact Option.some_ne_none 0
      · rw [find_addNode (hne m hm)]
        exact hp.sinks.listed hheight' m hm
    · change (p.lengths.addNode n).find .sink b m = some l at hl
      change ∃ h, (p.lengths.addNode n).height = some h ∧ l ≤ h
      rw [height_addNode]
      by_cases hm : m = n
      · subst hm
        cases hheight : p.lengths.height with
        | none =>
          rw [PathLengths.addNode, hheight, Option.isSome_none, if_neg (by simp),
            find_eq_none_of_bounded hp.sinks.bounded hheight] at hl
          cases hl
        | some k =>
          rw [find_addNode_self (by simp [hheight])] at hl
          cases hl
          exact ⟨k, rfl, Nat.zero_le k⟩
      · rw [find_addNode hm] at hl
        exact hp.sinks.bounded b m l hl

theorem Right.removed (hp : Right S p) (e : ε) :
    Right S { p with graph := (p.graph.eraseEdge e).forgetEdge e } where
  wf := hp.wf.forgetEdge
  loops hl e' u v he := hp.loops hl e' u v (hp.wf.joins_forgetEdge.1 he).2
  sinks := hp.sinks.restrict (fun _ _ _ he => (hp.wf.joins_forgetEdge.1 he).2)
    (fun _ hn => hn) (fun _ _ _ => rfl) rfl hp.sinks.bounded

theorem Right.removeEdge (hp : Right S p) (e : ε) : Right S (p.removeEdge e) := by
  rw [PathGraph.removeEdge]
  split
  · exact ⟨(hp.removed e).wf, (hp.removed e).sinks, (hp.removed e).loops⟩
  · exact hp

theorem Right.dropEdge (hp : Right S p) (h : p.dropEdge e = some p') : Right S p' := by
  rw [PathGraph.dropEdge] at h
  split at h
  · cases h
    exact hp.removed e
  · cases h

/-- An edge that is put between two nodes of a graph whose distances are right. -/
theorem right_addEdge {q : PathGraph ν ε} (hwf : q.graph.Wf) (he : ∀ ed, (e, ed) ∉ q.graph.edges)
    (hsinks : SinksRight S q.graph q.lengths)
    (hloops : S.allowLoopEdges = false → S.isBackEdge e = false ∧
      ∀ e u v, q.graph.Joins e u v → S.isBackEdge e = false)
    (h : q.addEdge S fuel nTail nHead e = some p') :
    Right S p' ∧ p'.graph.nodes = q.graph.nodes ∧ p'.pathCache = q.pathCache ∧
      ∀ e' u v, p'.graph.Joins e' u v ↔
        q.graph.Joins e' u v ∨ e' = e ∧ u = nTail ∧ v = nHead := by
  rw [addEdge] at h
  obtain ⟨td, htd, h⟩ := Option.bind_eq_some_iff.1 h
  obtain ⟨hd, hhd, h⟩ := Option.bind_eq_some_iff.1 h
  obtain ⟨t', ht', h⟩ := Option.bind_eq_some_iff.1 h
  cases h
  have hu := hwf.descriptor_eq_some_iff.1 htd
  have hv := hwf.descriptor_eq_some_iff.1 hhd
  have hwf' : (q.graph.addEdge e (td, hd)).Wf :=
    hwf.addEdge he ⟨(List.getElem?_eq_some_iff.1 hu).1, (List.getElem?_eq_some_iff.1 hv).1⟩
  have hjoins : ∀ e' u v, (q.graph.addEdge e (td, hd)).Joins e' u v ↔
      q.graph.Joins e' u v ∨ e' = e ∧ u = nTail ∧ v = nHead := fun _ _ _ => joins_addEdge hu hv
  have hs := hsinks.connect hwf'.placed ⟨td, hwf'.isAt hu⟩ (List.mem_of_getElem? hv) rfl
    (fun e' u v he' => (hjoins e' u v).1 he') ht'
  refine ⟨⟨hwf', hs.1, fun hl e' u v he' => ?_⟩, rfl, rfl, hjoins⟩
  rcases (hjoins e' u v).1 he' with h | ⟨rfl, _, _⟩
  · exact (hloops hl).2 e' u v h
  · exact (hloops hl).1

theorem Right.connectNodes (hp : Right S p) (he : ∀ u v, ¬p.graph.Joins e u v)
    (h : p.connectNodes S fuel creatingSG nTail nHead e = some p') : Right S p' := by
  rw [PathGraph.connectNodes] at h
  split at h
  · split at h
    · cases h
      exact hp
    · cases h
  · obtain ⟨td, _, h⟩ := Option.bind_eq_some_iff.1 h
    obtain ⟨hd, _, h⟩ := Option.bind_eq_some_iff.1 h
    split at h
    · cases h
    · split at h
      · next hallow =>
        split at h
        · cases h
        · apply (right_addEdge hp.wf _ hp.sinks _ h).1
          · intro ed hed
            obtain ⟨u, v, huv⟩ := hp.wf.exists_joins hed
            exact he u v huv
          · intro hl
            refine ⟨?_, hp.loops hl⟩
            rwa [hl, Bool.false_or, Bool.not_eq_true'] at hallow
      · cases h
        exact hp

theorem placed_eraseEdge {g : BoostGraph ν ε} (hg : g.Wf) (e : ε) : (g.eraseEdge e).Placed := by
  intro e' td hd h
  exact hg.placed e' td hd (hg.mem_eraseEdge.1 h).2

/-- What taking an edge out leaves, but for the edge that has to be forgotten. -/
structure Taken (S : GraphSetup ν ε) (e : ε) (p p' : PathGraph ν ε) : Prop where
  graph : p'.graph = p.graph.eraseEdge e
  cache : p'.pathCache = p.pathCache
  sinks : SinksRight S p'.graph p'.lengths

theorem Right.takeEdge (hp : Right S p) (htail : oldTail ∈ p.graph.nodes)
    (h : p.takeEdge S fuel oldTail oldHead e = some p') : Taken S e p p' := by
  rw [PathGraph.takeEdge] at h
  obtain ⟨t₁, h₁, h⟩ := Option.bind_eq_some_iff.1 h
  obtain ⟨t₂, h₂, h⟩ := Option.bind_eq_some_iff.1 h
  cases h
  have hs : SinksRight S (p.graph.eraseEdge e) p.lengths :=
    (hp.removed e).sinks.restrict (fun _ _ _ he => he) (fun _ hn => hn) (fun _ _ _ => rfl) rfl
      hp.sinks.bounded
  have hs₁ := hs.of_same (sameSinks_sourceDistDecreased h₁)
  obtain ⟨i, hi⟩ := List.getElem?_of_mem htail
  have hat : (p.graph.eraseEdge e).IsAt oldTail i := hp.wf.isAt hi
  exact ⟨rfl, rfl, (hs₁.sinkDistDecreased (placed_eraseEdge hp.wf e) ⟨i, hat⟩ h₂).1⟩

/-- An edge that has been taken out is forgotten. -/
theorem Right.forgetEdge (hp : Right S p) (ht : Taken S e p p') : Right S (p'.forgetEdge e) where
  wf := by
    rw [PathGraph.forgetEdge, ht.graph]
    exact hp.wf.forgetEdge
  sinks := ht.sinks.restrict (fun _ _ _ he => he) (fun _ hn => hn) (fun _ _ _ => rfl) rfl
    ht.sinks.bounded
  loops hl e' u v he := by
    rw [PathGraph.forgetEdge, ht.graph] at he
    exact hp.loops hl e' u v (hp.wf.joins_forgetEdge.1 he).2

theorem Right.joins_forgetEdge (hp : Right S p) (ht : Taken S e p p') :
    (p'.forgetEdge e).graph.Joins e' u v ↔ e' ≠ e ∧ p.graph.Joins e' u v := by
  rw [PathGraph.forgetEdge, ht.graph]
  exact hp.wf.joins_forgetEdge

/-- An edge that is put back between two nodes. -/
theorem Right.reconnect (hp : Right S p) (ht : Taken S e p p') (he : p.graph.Joins e u v)
    (h : callIf c (addEdge S fuel nTail nHead e) (p'.forgetEdge e) = some p'') :
    Right S p'' ∧ p''.graph.nodes = p.graph.nodes := by
  have hf := hp.forgetEdge ht
  have hnodes : (p'.forgetEdge e).graph.nodes = p.graph.nodes := by
    rw [PathGraph.forgetEdge, ht.graph]
    rfl
  rw [callIf] at h
  split at h
  · have hnew : ∀ ed, (e, ed) ∉ (p'.forgetEdge e).graph.edges := by
      intro ed hed
      obtain ⟨u, v, huv⟩ := hf.wf.exists_joins hed
      exact ((hp.joins_forgetEdge ht).1 huv).1 rfl
    have hloops : S.allowLoopEdges = false → S.isBackEdge e = false ∧
        ∀ e u v, (p'.forgetEdge e).graph.Joins e u v → S.isBackEdge e = false :=
      fun hl => ⟨hp.loops hl e u v he, hf.loops hl⟩
    obtain ⟨hr, hnodes', _⟩ := right_addEdge hf.wf hnew hf.sinks hloops h
    exact ⟨hr, hnodes'.trans hnodes⟩
  · cases h
    exact ⟨hf, hnodes⟩

omit [DecidableEq ε] in
/-- The loops that move the edges of a node, which stays in the graph. -/
theorem Right.foldlM_move {step : PathGraph ν ε → ε → Option (PathGraph ν ε)} {es : List ε}
    (hstep : ∀ q e q', Right S q → n ∈ q.graph.nodes → step q e = some q' →
      Right S q' ∧ q'.graph.nodes = q.graph.nodes)
    (hp : Right S p) (hn : n ∈ p.graph.nodes) (h : es.foldlM step p = some p') :
    Right S p' ∧ p'.graph.nodes = p.graph.nodes := by
  apply Option.foldlM_invariant (fun q => Right S q ∧ q.graph.nodes = p.graph.nodes) _
    ⟨hp, rfl⟩ h
  rintro e _ q q' ⟨hq, hnodes⟩ hmove
  obtain ⟨hr, hnodes'⟩ := hstep q e q' hq (hnodes ▸ hn) hmove
  exact ⟨hr, hnodes'.trans hnodes⟩

theorem Right.moveInEdges (hp : Right S p)
    (h : p.moveInEdges S fuel source destination = some p') : Right S p' := by
  rw [PathGraph.moveInEdges] at h
  split at h
  · split at h
    · cases h
    · cases h
      exact hp
  · next hsource =>
    rw [Bool.not_eq_true, Bool.not_eq_false'] at hsource
    refine (Right.foldlM_move ?_ hp (hp.wf.hasNode_iff.1 hsource) h).1
    intro q e q' hq _ hmove
    rw [moveToHead] at hmove
    obtain ⟨tail, htail, hmove⟩ := Option.bind_eq_some_iff.1 hmove
    obtain ⟨q₁, h₁, hmove⟩ := Option.bind_eq_some_iff.1 hmove
    obtain ⟨v, htv⟩ := hq.wf.tailNode_eq_some_iff.1 htail
    exact hq.reconnect (hq.takeEdge htv.left h₁) htv hmove

theorem Right.moveOutEdges (hp : Right S p)
    (h : p.moveOutEdges S fuel source destination = some p') : Right S p' := by
  rw [PathGraph.moveOutEdges] at h
  split at h
  · split at h
    · cases h
    · cases h
      exact hp
  · next hsource =>
    rw [Bool.not_eq_true, Bool.not_eq_false'] at hsource
    refine (Right.foldlM_move ?_ hp (hp.wf.hasNode_iff.1 hsource) h).1
    intro q e q' hq hn hmove
    rw [moveToTail] at hmove
    obtain ⟨head, hhead, hmove⟩ := Option.bind_eq_some_iff.1 hmove
    obtain ⟨q₁, h₁, hmove⟩ := Option.bind_eq_some_iff.1 hmove
    obtain ⟨u, huh⟩ := hq.wf.headNode_eq_some_iff.1 hhead
    exact hq.reconnect (hq.takeEdge hn h₁) huh hmove

/-- An edge that is moved without being forgotten is found at its new place. -/
theorem addEdge_of_taken (ht : Taken S e p p') :
    p'.addEdge S fuel nTail nHead e = (p'.forgetEdge e).addEdge S fuel nTail nHead e := by
  have hadd : ∀ ends, p'.graph.addEdge e ends = (p'.graph.forgetEdge e).addEdge e ends := by
    intro ends
    rw [ht.graph]
    simp [BoostGraph.addEdge, BoostGraph.forgetEdge]
  rw [addEdge, addEdge]
  simp only [hadd]
  rfl

/-- An edge of the graph that is moved to a node of the graph. -/
theorem Right.moveEdge (hp : Right S p) (he : p.graph.Joins e u v)
    (htail : oldTail ∈ p.graph.nodes)
    (h : (p.takeEdge S fuel oldTail oldHead e).bind (addEdge S fuel nTail nHead e) = some p') :
    Right S p' := by
  obtain ⟨q, hq, h⟩ := Option.bind_eq_some_iff.1 h
  have ht := hp.takeEdge htail hq
  rw [addEdge_of_taken ht] at h
  exact (hp.reconnect ht he (c := true) h).1

theorem Right.moveInEdge (hp : Right S p)
    (hedge : p.graph.hasEdge edge → p.graph.Joins edge tail originalHeadNode ∧
      newHeadNode ∈ p.graph.nodes)
    (h : p.moveInEdge S fuel originalHeadNode newHeadNode edge tail = some p') : Right S p' := by
  rw [PathGraph.moveInEdge] at h
  split at h
  · next hhas =>
    rw [Bool.and_eq_true] at hhas
    obtain ⟨hjoins, hnew⟩ := hedge hhas.2
    rw [hp.wf.hasNode_iff.2 hjoins.right, hp.wf.hasNode_iff.2 hnew] at h
    exact hp.moveEdge hjoins hjoins.left h
  · cases h
    exact hp

theorem Right.moveOutEdge (hp : Right S p)
    (hedge : p.graph.hasEdge edge → p.graph.Joins edge originalTailNode head ∧
      newTailNode ∈ p.graph.nodes)
    (h : p.moveOutEdge S fuel originalTailNode newTailNode edge head = some p') : Right S p' := by
  rw [PathGraph.moveOutEdge] at h
  split at h
  · next hhas =>
    rw [Bool.and_eq_true] at hhas
    obtain ⟨hjoins, hnew⟩ := hedge hhas.2
    rw [hp.wf.hasNode_iff.2 hjoins.left, hp.wf.hasNode_iff.2 hnew] at h
    exact hp.moveEdge hjoins hjoins.left h
  · cases h
    exact hp

end PathGraph

end OpenAsip
