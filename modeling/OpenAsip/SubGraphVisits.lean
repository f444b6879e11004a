import OpenAsip.SubGraphUpdates

namespace OpenAsip
set_option autoImplicit true

namespace BoostGraph
open ViewTree
variable {ν ε : Type} [DecidableEq ν] [DecidableEq ε]

section
variable {J J' : ε → ν → ν → Prop} {g : BoostGraph ν ε} {e : ε} {n u v : ν}

omit [DecidableEq ν] in
theorem Shows.hasEdge_iff (hg : Shows J g) :
    g.hasEdge e ↔ ∃ u v, J e u v ∧ u ∈ g.nodes ∧ v ∈ g.nodes := by
  simp only [hg.wf.hasEdge_iff, hg.joins]

theorem Wf.connectNodes_leave (hg : g.Wf) (hnode : ¬(u ∈ g.nodes ∧ v ∈ g.nodes))
    (hparent : g.hasParent = true) : connectNodes u v e g = .leave := by
  have hmissing : (!g.hasNode u || !g.hasNode v) = true := by
    rw [← Bool.not_and, Bool.not_eq_true', Bool.eq_false_iff, ne_eq, Bool.and_eq_true,
      hg.hasNode_iff, hg.hasNode_iff]
    exact hnode
  rw [connectNodes, if_pos hmissing, if_pos hparent]

/-- An edge that is nowhere is put into all graphs that have its ends. The root graph has them. -/
theorem connectNodes_update (nTail nHead : ν) (he : ∀ u v, ¬J e u v) :
    Update (connectNodes nTail nHead e) (fun N => nTail ∈ N ∧ nHead ∈ N) id J
      (fun e' u v => J e' u v ∨ e' = e ∧ u = nTail ∧ v = nHead)
      (fun g => g.hasParent = true ∨ nTail ∈ g.nodes ∧ nHead ∈ g.nodes) where
  mono _ _ h hA := ⟨h hA.1, h hA.2⟩
  image _ _ h := h
  same _ _ := rfl
  joins g _ _ hA e' u v hu hv := by
    constructor
    · rintro (h | ⟨_, rfl, rfl⟩)
      · exact h
      · exact absurd ⟨hu, hv⟩ hA
    · exact .inl
  leave g hg hC hA := hg.wf.connectNodes_leave hA (hC.resolve_right hA)
  change g hg _ hA := by
    obtain ⟨td, htd⟩ := hg.wf.exists_descriptor hA.1
    obtain ⟨hd, hhd⟩ := hg.wf.exists_descriptor hA.2
    have hu := hg.wf.descriptor_eq_some_iff.1 htd
    have hv := hg.wf.descriptor_eq_some_iff.1 hhd
    have hnone : ∀ ed, (e, ed) ∉ g.edges := by
      intro ed h
      obtain ⟨u, v, hj⟩ := hg.wf.exists_joins h
      exact he u v ((hg.joins e u v).1 hj).1
    have hnode : (!g.hasNode nTail || !g.hasNode nHead) = false := by
      rw [hg.wf.hasNode_iff.2 hA.1, hg.wf.hasNode_iff.2 hA.2]
      rfl
    have hconnects : g.connects td hd e = false := decide_eq_false (hnone _)
    refine ⟨g.addEdge e (td, hd), ?_, ⟨hg.wf.addEdge hnone ?_, ?_⟩, rfl, rfl⟩
    · simp [connectNodes, hnode, htd, hhd, hconnects]
    · exact ⟨(List.getElem?_eq_some_iff.1 hu).1, (List.getElem?_eq_some_iff.1 hv).1⟩
    · intro e' u' v'
      rw [joins_addEdge hu hv, hg.joins]
      constructor
      · rintro (⟨h, hu', hv'⟩ | ⟨rfl, rfl, rfl⟩)
        · exact ⟨.inl h, hu', hv'⟩
        · exact ⟨.inr ⟨rfl, rfl, rfl⟩, hA.1, hA.2⟩
      · rintro ⟨h | h, hu', hv'⟩
        · exact .inl ⟨h, hu', hv'⟩
        · exact .inr h

omit [DecidableEq ν] in
theorem removeEdge_update (J : ε → ν → ν → Prop) (e : ε) :
    Update (removeEdge e) (fun N => ∃ u v, J e u v ∧ u ∈ N ∧ v ∈ N) id J
      (fun e' u v => J e' u v ∧ e' ≠ e) (fun _ : BoostGraph ν ε => True) where
  mono _ _ h := by
    rintro ⟨u, v, hJ, hu, hv⟩
    exact ⟨u, v, hJ, h hu, h hv⟩
  image _ _ h := h
  same _ _ := rfl
  joins g _ _ hA e' u v hu hv := by
    constructor
    · exact And.left
    · intro hJ
      refine ⟨hJ, ?_⟩
      rintro rfl
      exact hA ⟨u, v, hJ, hu, hv⟩
  leave g hg _ hA := by rw [removeEdge, if_neg (mt hg.hasEdge_iff.1 hA)]
  change g hg _ hA := by
    refine ⟨_, by rw [removeEdge, if_pos (hg.hasEdge_iff.2 hA)], ⟨hg.wf.forgetEdge, ?_⟩, rfl, rfl⟩
    intro e' u v
    rw [hg.wf.joins_forgetEdge, hg.joins]
    constructor
    · rintro ⟨hne, hJ, h⟩
      exact ⟨⟨hJ, hne⟩, h⟩
    · rintro ⟨⟨hJ, hne⟩, h⟩
      exact ⟨hne, hJ, h⟩

theorem Shows.replaced (hg : Shows J g) (hn : n ∈ g.nodes) :
    ∃ g', g.replaceNodeWithLastNode n = some g' ∧ Shows (fun e u v => J e u v ∧ u ≠ n ∧ v ≠ n) g' ∧
      g'.nodes = {m ∈ g.nodes | m ≠ n} ∧ g'.hasParent = g.hasParent := by
  obtain ⟨g', hsome, hwf, hparent, hnodes, hjoins⟩ := hg.wf.exists_replaced hn
  refine ⟨g', hsome, ⟨hwf, ?_⟩, hnodes, hparent⟩
  intro e u v
  rw [hjoins, hg.joins, hnodes]
  constructor
  · rintro ⟨⟨hJ, hu, hv⟩, hne, hne'⟩
    exact ⟨⟨hJ, hne, hne'⟩, ⟨hu, hne⟩, hv, hne'⟩
  · rintro ⟨⟨hJ, hne, hne'⟩, hu, hv⟩
    exact ⟨⟨hJ, hu.1, hv.1⟩, hne, hne'⟩

/-- Every graph that has the node loses it with its edges. -/
theorem removeNode_update (J : ε → ν → ν → Prop) (n : ν) :
    Update (removeNode n) (fun N => n ∈ N) (fun N => {m ∈ N | m ≠ n}) J
      (fun e u v => J e u v ∧ u ≠ n ∧ v ≠ n)
      (fun g : BoostGraph ν ε => g.hasParent = true ∨ n ∈ g.nodes) where
  mono _ _ h hA := h hA
  image _ _ h _ hm := ⟨h hm.1, hm.2⟩
  same N hA := by
    ext m
    exact ⟨And.left, fun hm => ⟨hm, fun heq => hA (heq ▸ hm)⟩⟩
  joins g _ _ hA e u v hu hv :=
    ⟨And.left, fun h => ⟨h, fun heq => hA (heq ▸ hu), fun heq => hA (heq ▸ hv)⟩⟩
  leave g hg hC hA := by
    rw [removeNode, if_neg (mt hg.wf.hasNode_iff.1 hA), if_pos (hC.resolve_right hA)]
  change g hg _ hA := by
    obtain ⟨g', hsome, h⟩ := hg.replaced hA
    exact ⟨g', by rw [removeNode, if_pos (hg.wf.hasNode_iff.2 hA), hsome], h⟩

/-- The edges stay where they are in the graphs that keep the node. -/
theorem dropNode_update (J : ε → ν → ν → Prop) (n : ν) :
    Update (dropNode n) (fun N => n ∈ N) (fun N => {m ∈ N | m ≠ n}) J J
      (fun _ : BoostGraph ν ε => True) where
  mono _ _ h hA := h hA
  image _ _ h _ hm := ⟨h hm.1, hm.2⟩
  same N hA := by
    ext m
    exact ⟨And.left, fun hm => ⟨hm, fun heq => hA (heq ▸ hm)⟩⟩
  joins _ _ _ _ _ _ _ _ _ := Iff.rfl
  leave g hg _ hA := by rw [dropNode, if_neg (mt hg.wf.hasNode_iff.1 hA)]
  change g hg _ hA := by
    obtain ⟨g', hsome, hg', hnodes, hparent⟩ := hg.replaced hA
    refine ⟨g', by rw [dropNode, if_pos (hg.wf.hasNode_iff.2 hA), hsome], ⟨hg'.wf, ?_⟩, hnodes,
      hparent⟩
    intro e u v
    rw [hg'.joins, hnodes]
    constructor
    · rintro ⟨⟨hJ, _⟩, h⟩
      exact ⟨hJ, h⟩
    · rintro ⟨hJ, hu, hv⟩
      exact ⟨⟨hJ, hu.2, hv.2⟩, hu, hv⟩

/-- An edge is moved from two ends to two others, where a graph that has the end that is the same
has both nodes or none of them. -/
theorem moveEdge_update {originalNode newNode fixedNode t h t' h' : ν}
    {ends : BoostGraph ν ε → Option (Nat × Nat)} (hJ : ∀ u v, J e u v ↔ u = t ∧ v = h)
    (hold : ∀ N : Set ν, fixedNode ∈ N ∧ originalNode ∈ N ↔ t ∈ N ∧ h ∈ N)
    (hnew : ∀ N : Set ν, fixedNode ∈ N ∧ newNode ∈ N ↔ t' ∈ N ∧ h' ∈ N)
    (hends : ∀ g : BoostGraph ν ε, g.Wf → t' ∈ g.nodes → h' ∈ g.nodes →
      ∃ td hd, ends (g.eraseEdge e) = some (td, hd) ∧ g.vertices[td]? = some t' ∧
        g.vertices[hd]? = some h') :
    Update (moveEdge originalNode newNode fixedNode e ends)
      (fun N => fixedNode ∈ N ∧ originalNode ∈ N) id J
      (fun e' u v => J e' u v ∧ e' ≠ e ∨ e' = e ∧ u = t' ∧ v = h')
      (fun g => fixedNode ∈ g.nodes → (originalNode ∈ g.nodes ↔ newNode ∈ g.nodes)) where
  mono _ _ h hA := ⟨h hA.1, h hA.2⟩
  image _ _ h := h
  same _ _ := rfl
  joins g _ hC hA e' u v hu hv := by
    constructor
    · rintro (hJ' | ⟨_, rfl, rfl⟩)
      · exact hJ'.1
      · obtain ⟨hfixed, hn⟩ := (hnew g.nodes).2 ⟨hu, hv⟩
        exact absurd ⟨hfixed, (hC hfixed).2 hn⟩ hA
    · intro hJ'
      refine .inl ⟨hJ', ?_⟩
      rintro rfl
      obtain ⟨rfl, rfl⟩ := (hJ u v).1 hJ'
      exact hA ((hold g.nodes).2 ⟨hu, hv⟩)
  leave g hg _ hA := by
    have hedge : ¬g.hasEdge e := by
      rw [hg.hasEdge_iff]
      rintro ⟨u, v, hJ', hu, hv⟩
      obtain ⟨rfl, rfl⟩ := (hJ u v).1 hJ'
      exact hA ((hold g.nodes).2 ⟨hu, hv⟩)
    rw [moveEdge, if_neg (by simp [hedge])]
  change g hg hC hA := by
    have hn : newNode ∈ g.nodes := (hC hA.1).1 hA.2
    obtain ⟨ht, hh⟩ := (hold g.nodes).1 hA
    obtain ⟨ht', hh'⟩ := (hnew g.nodes).1 ⟨hA.1, hn⟩
    obtain ⟨td, hd, hsome, htd, hhd⟩ := hends g hg.wf ht' hh'
    have hedge : g.hasEdge e := hg.hasEdge_iff.2 ⟨t, h, (hJ t h).2 ⟨rfl, rfl⟩, ht, hh⟩
    have hvisit : moveEdge originalNode newNode fixedNode e ends g =
        .change (g.reconnect e (some (td, hd))) := by
      simp [moveEdge, hedge, hg.wf.hasNode_iff.2 hA.1, hg.wf.hasNode_iff.2 hA.2,
        hg.wf.hasNode_iff.2 hn, hsome, addEdge_eraseEdge]
    refine ⟨_, hvisit, ⟨hg.wf.reconnect ?_, ?_⟩, rfl, rfl⟩
    · rintro _ ⟨⟩
      exact ⟨(List.getElem?_eq_some_iff.1 htd).1, (List.getElem?_eq_some_iff.1 hhd).1⟩
    · intro e' u v
      have hjoins : (g.reconnect e (some (td, hd))).Joins e' u v ↔
          ((g.eraseEdge e).forgetEdge e).Joins e' u v ∨ e' = e ∧ u = t' ∧ v = h' :=
        joins_addEdge htd hhd
      rw [hjoins, hg.wf.joins_forgetEdge, hg.joins]
      constructor
      · rintro (⟨hne, hJ', hu, hv⟩ | ⟨rfl, rfl, rfl⟩)
        · exact ⟨.inl ⟨hJ', hne⟩, hu, hv⟩
        · exact ⟨.inr ⟨rfl, rfl, rfl⟩, ht', hh'⟩
      · rintro ⟨⟨hJ', hne⟩ | h, hu, hv⟩
        · exact .inl ⟨hne, hJ', hu, hv⟩
        · exact .inr h

theorem moveInEdge_update {originalHeadNode newHeadNode tail : ν}
    (hJ : ∀ u v, J e u v ↔ u = tail ∧ v = originalHeadNode) :
    Update (moveInEdge originalHeadNode newHeadNode e tail)
      (fun N => tail ∈ N ∧ originalHeadNode ∈ N) id J
      (fun e' u v => J e' u v ∧ e' ≠ e ∨ e' = e ∧ u = tail ∧ v = newHeadNode)
      (fun g => tail ∈ g.nodes → (originalHeadNode ∈ g.nodes ↔ newHeadNode ∈ g.nodes)) := by
  apply moveEdge_update hJ (fun _ => Iff.rfl) (fun _ => Iff.rfl)
  intro g hg ht hh
  obtain ⟨td, htd⟩ := hg.exists_descriptor ht
  obtain ⟨hd, hhd⟩ := hg.exists_descriptor hh
  refine ⟨td, hd, ?_, hg.descriptor_eq_some_iff.1 htd, hg.descriptor_eq_some_iff.1 hhd⟩
  change (do some (← g.descriptor tail, ← g.descriptor newHeadNode)) = _
  rw [htd, hhd]
  rfl

theorem moveOutEdge_update {originalTailNode newTailNode head : ν}
    (hJ : ∀ u v, J e u v ↔ u = originalTailNode ∧ v = head) :
    Update (moveOutEdge originalTailNode newTailNode e head)
      (fun N => head ∈ N ∧ originalTailNode ∈ N) id J
      (fun e' u v => J e' u v ∧ e' ≠ e ∨ e' = e ∧ u = newTailNode ∧ v = head)
      (fun g => head ∈ g.nodes → (originalTailNode ∈ g.nodes ↔ newTailNode ∈ g.nodes)) := by
  apply moveEdge_update hJ (fun _ => and_comm) (fun _ => and_comm)
  intro g hg ht hh
  obtain ⟨td, htd⟩ := hg.exists_descriptor ht
  obtain ⟨hd, hhd⟩ := hg.exists_descriptor hh
  refine ⟨td, hd, ?_, hg.descriptor_eq_some_iff.1 htd, hg.descriptor_eq_some_iff.1 hhd⟩
  change (do some (← g.descriptor newTailNode, ← g.descriptor head)) = _
  rw [htd, hhd]
  rfl

/-- What the loop over the edges of a node makes of a graph that has the node. -/
theorem moveEdges_update {source destination : ν}
    {newEnds : Option Nat → BoostGraph ν ε → ε → Option (Nat × Nat)}
    {edges : BoostGraph ν ε → ν → List ε} {C : BoostGraph ν ε → Prop}
    (hC : ∀ g : BoostGraph ν ε, C g → destination ∈ g.nodes → source ∈ g.nodes)
    (hjoins : ∀ g : BoostGraph ν ε, C g → source ∉ g.nodes → ∀ e u v, u ∈ g.nodes → v ∈ g.nodes →
      (J' e u v ↔ J e u v))
    (hloop : ∀ g nd, Shows J g → C g → source ∈ g.nodes →
      (∀ i, nd = some i ↔ g.vertices[i]? = some destination) →
      (g.reconnectAll (newEnds nd) (edges g source)).Wf ∧
        ∀ e u v, (g.reconnectAll (newEnds nd) (edges g source)).Joins e u v ↔
          J' e u v ∧ u ∈ g.nodes ∧ v ∈ g.nodes) :
    Update (moveEdges source destination newEnds edges) (fun N => source ∈ N) id J J' C where
  mono _ _ h hA := h hA
  image _ _ h := h
  same _ _ := rfl
  joins g _ hCg hA := hjoins g hCg hA
  leave g hg hCg hA := by
    have hsource : (!g.hasNode source) = true := by
      rw [Bool.not_eq_true', Bool.eq_false_iff]
      exact mt hg.wf.hasNode_iff.1 hA
    rw [moveEdges, if_pos hsource,
      if_neg (mt hg.wf.hasNode_iff.1 fun hd => hA (hC g hCg hd))]
  change g hg hCg hA := by
    have hnd : ∀ i, (if g.hasNode destination then g.descriptor destination else none) = some i ↔
        g.vertices[i]? = some destination := by
      intro i
      split
      · exact hg.wf.descriptor_eq_some_iff
      · next hd =>
        constructor
        · intro h
          cases h
        · intro h
          exact absurd (hg.wf.hasNode_iff.2 (List.mem_of_getElem? h)) hd
    obtain ⟨hwf, hj⟩ := hloop g _ hg hCg hA hnd
    obtain ⟨es, eds, heq⟩ := reconnectAll_eq
      (newEnds (if g.hasNode destination then g.descriptor destination else none))
      (edges g source) g
    have hnodes : (g.reconnectAll (newEnds (if g.hasNode destination then
        g.descriptor destination else none)) (edges g source)).nodes = g.nodes := by
      rw [heq]
      rfl
    refine ⟨_, ?_, ⟨hwf, ?_⟩, hnodes, by rw [heq]⟩
    · rw [moveEdges, if_neg (by simp [hg.wf.hasNode_iff.2 hA])]
    · rw [hnodes]
      exact hj

/-- The edges are removed where there is no new head, which the root graph has if any graph has
it. -/
theorem moveInEdges_update (J : ε → ν → ν → Prop) (source destination : ν) (H : Prop) :
    Update (moveInEdges source destination) (fun N => source ∈ N) id J
      (fun e u v => J e u v ∧ v ≠ source ∨ J e u source ∧ v = destination ∧ H)
      (fun g : BoostGraph ν ε => (destination ∈ g.nodes → source ∈ g.nodes) ∧
        (destination ∈ g.nodes → H)) := by
  apply moveEdges_update fun g hC => hC.1
  · intro g hC hA e u v _ hv
    constructor
    · rintro (⟨h, _⟩ | ⟨_, rfl, _⟩)
      · exact h
      · exact absurd (hC.1 hv) hA
    · exact fun h => .inl ⟨h, fun heq => hA (heq ▸ hv)⟩
  · intro g nd hg hC hA hnd
    obtain ⟨hwf, _, _⟩ := hg.wf.reconnectAll_in source nd
      fun i h => (List.getElem?_eq_some_iff.1 ((hnd i).1 h)).1
    refine ⟨hwf, fun e u v => ?_⟩
    rw [hg.wf.joins_reconnectAll_in source hnd, hg.joins, hg.joins]
    constructor
    · rintro (⟨⟨h, hu, hv⟩, hne⟩ | ⟨⟨h, hu, _⟩, rfl, hd⟩)
      · exact ⟨.inl ⟨h, hne⟩, hu, hv⟩
      · exact ⟨.inr ⟨h, rfl, hC.2 hd⟩, hu, hd⟩
    · rintro ⟨⟨h, hne⟩ | ⟨h, rfl, _⟩, hu, hv⟩
      · exact .inl ⟨⟨h, hu, hv⟩, hne⟩
      · exact .inr ⟨⟨h, hu, hA⟩, rfl, hv⟩

theorem moveOutEdges_update (J : ε → ν → ν → Prop) (source destination : ν) (H : Prop) :
    Update (moveOutEdges source destination) (fun N => source ∈ N) id J
      (fun e u v => J e u v ∧ u ≠ source ∨ J e source v ∧ u = destination ∧ H)
      (fun g : BoostGraph ν ε => (destination ∈ g.nodes → source ∈ g.nodes) ∧
        (destination ∈ g.nodes → H)) := by
  apply moveEdges_update fun g hC => hC.1
  · intro g hC hA e u v hu _
    constructor
    · rintro (⟨h, _⟩ | ⟨_, rfl, _⟩)
      · exact h
      · exact absurd (hC.1 hu) hA
    · exact fun h => .inl ⟨h, fun heq => hA (heq ▸ hu)⟩
  · intro g nd hg hC hA hnd
    obtain ⟨hwf, _, _⟩ := hg.wf.reconnectAll_out source nd
      fun i h => (List.getElem?_eq_some_iff.1 ((hnd i).1 h)).1
    refine ⟨hwf, fun e u v => ?_⟩
    rw [hg.wf.joins_reconnectAll_out source hnd, hg.joins, hg.joins]
    constructor
    · rintro (⟨⟨h, hu, hv⟩, hne⟩ | ⟨⟨h, _, hv⟩, rfl, hd⟩)
      · exact ⟨.inl ⟨h, hne⟩, hu, hv⟩
      · exact ⟨.inr ⟨h, rfl, hC.2 hd⟩, hd, hv⟩
    · rintro ⟨⟨h, hne⟩ | ⟨h, rfl, _⟩, hu, hv⟩
      · exact .inl ⟨⟨h, hu, hv⟩, hne⟩
      · exact .inr ⟨⟨h, hA, hv⟩, rfl, hu⟩

end

end BoostGraph

end OpenAsip
