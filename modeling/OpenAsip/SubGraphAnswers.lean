import OpenAsip.SubGraphRuns

namespace OpenAsip
set_option autoImplicit true

namespace BoostGraph
open ViewTree
variable {ν ε : Type} [DecidableEq ν] [DecidableEq ε]

section
variable {t c : ViewTree (BoostGraph ν ε)} {s : Views ν ε} {path : List Nat} {n : ν}
  {J : ε → ν → ν → Prop} {g : BoostGraph ν ε} {isBackEdge : ε → Bool}

omit [DecidableEq ε] in
theorem Shows.addNode (hg : Shows J g) (hn : n ∉ g.nodes) (hJ : ∀ e u v, J e u v → u ≠ n ∧ v ≠ n) :
    Shows J (g.addNode n) := by
  refine ⟨hg.wf.addNode hn, fun e u v => ?_⟩
  rw [hg.wf.joins_addNode, hg.joins, nodes_addNode]
  constructor
  · rintro ⟨hj, hu, hv⟩
    exact ⟨hj, .inr hu, .inr hv⟩
  · rintro ⟨hj, hu, hv⟩
    obtain ⟨hu', hv'⟩ := hJ e u v hj
    exact ⟨hj, hu.resolve_left hu', hv.resolve_left hv'⟩

omit [DecidableEq ε] in
theorem Sim.addNode (hs : Sim t s) (hc : get? path t = some c) (hn : n ∉ s.nodes.view) :
    ∃ t', along (·.addNode n) path t = some t' ∧ Sim t' (s.next path (.addNode n)) := by
  obtain ⟨t', ht'⟩ := exists_along (g := fun g => g.addNode n) hc
  have hJ : ∀ e u v, s.joins e u v → u ≠ n ∧ v ≠ n := by
    intro e u v h
    obtain ⟨hu, hv⟩ := hs.ends e u v h
    exact ⟨fun heq => hn (heq ▸ hu), fun heq => hn (heq ▸ hv)⟩
  have hnew := hs.nested.and (C := fun g => n ∉ g.nodes)
    fun path c hc hmem => hn (hs.subset_root hc hmem)
  obtain ⟨hnested, hview⟩ := hnew.along (fun g hg => hg.1) (fun g hg => hg.1.addNode hg.2 hJ)
    (fun g h _ _ hsub => ⟨by
      rw [nodes_addNode]
      exact hsub.1.trans (Set.subset_insert n _), hsub.2⟩)
    (fun g h _ _ hsub => ⟨by
      rw [nodes_addNode, nodes_addNode]
      exact Set.insert_subset_insert hsub.1, hsub.2⟩) ht'
  have hnext : s.next path (.addNode n) = ⟨s.joins, map BoostGraph.nodes t'⟩ := by
    have hmap := map_of_along (g := BoostGraph.nodes) (ψ := insert n) (fun _ => nodes_addNode) ht'
    rw [hs.nodes] at hmap
    simp only [Views.next, hmap, Option.getD_some]
  refine ⟨t', ht', ?_⟩
  rw [hnext]
  refine ⟨rfl, hnested, ?_⟩
  intro e u v h
  obtain ⟨hu, hv⟩ := hs.ends e u v h
  rw [view_map, hview, nodes_addNode, hs.root]
  exact ⟨.inr hu, .inr hv⟩

theorem Sim.constructSubGraph (hs : Sim t s) (hc : get? path t = some c) {nodes : List ν}
    (hnodup : nodes.Nodup) (hmem : ∀ n ∈ nodes, s.Has path n)
    (hback : ∀ e n, s.joins e n n → n ∈ nodes → isBackEdge e) :
    ∃ t', step isBackEdge path t (.constructSubGraph nodes) = some t' ∧
      Sim t' (s.next path (.constructSubGraph nodes)) := by
  have hn := hs.nested.get? hc
  simp only [hs.has_iff hc] at hmem
  obtain ⟨sub, hsub, hwf, hparent, hnodes, hjoins⟩ := hn.view.wf.exists_subGraph hnodup hmem
    fun e n hj => hback e n ((hn.view.joins e n n).1 hj).1
  have hshows : Shows s.joins sub := by
    refine ⟨hwf, fun e u v => ?_⟩
    rw [hjoins, hn.view.joins, hnodes]
    constructor
    · rintro ⟨⟨hj, _⟩, h⟩
      exact ⟨hj, h⟩
    · rintro ⟨hj, hu, hv⟩
      exact ⟨⟨hj, hmem u hu, hmem v hv⟩, hu, hv⟩
  have hsubset : sub.nodes ⊆ c.view.nodes := by
    rw [hnodes]
    exact hmem
  have hF : ((c.view.subGraph isBackEdge nodes).map fun sub =>
      ViewTree.node c.view (c.parts ++ [.node sub []])) =
        some (.node c.view (c.parts ++ [.node sub []])) := by rw [hsub, Option.map_some]
  obtain ⟨t', hmod, hnested, _⟩ := hs.nested.modify
    (F := fun t => (t.view.subGraph isBackEdge nodes).map fun sub =>
      .node t.view (t.parts ++ [.node sub []])) hc hF
    (hn.addPart (.single hshows) ⟨hsubset, hparent⟩) fun _ h => h
  refine ⟨t', hmod, ?_⟩
  have hmap : modify (fun t => some (.node t.view (t.parts ++ [.node {n | n ∈ nodes} []]))) path
      s.nodes = some (map BoostGraph.nodes t') := by
    rw [← hs.nodes, modify_map (F := fun t => (t.view.subGraph isBackEdge nodes).map fun sub =>
      .node t.view (t.parts ++ [.node sub []])) hc hF (by simp [hnodes]), hmod, Option.map_some]
  have hnext : s.next path (.constructSubGraph nodes) = ⟨s.joins, map BoostGraph.nodes t'⟩ := by
    simp only [Views.next, hmap, Option.getD_some]
  have hview : t'.view = t.view := by
    cases path with
    | nil =>
      cases hc
      cases hF.symm.trans hmod
      rfl
    | cons i path => exact view_of_modify hmod
  rw [hnext]
  refine ⟨rfl, hnested, ?_⟩
  simp only [view_map, hview, hs.root]
  exact hs.ends

omit [DecidableEq ν] [DecidableEq ε] in
/-- What a lookup stores changes nothing that is seen. -/
theorem Sim.lookup {look : BoostGraph ν ε → BoostGraph ν ε} (hs : Sim t s)
    (hc : get? path t = some c) (hwf : ∀ g, g.Wf → (look g).Wf)
    (hedges : ∀ g, (look g).edges = g.edges) (hvertices : ∀ g, (look g).vertices = g.vertices)
    (hparent : ∀ g, (look g).hasParent = g.hasParent) :
    ∃ t', modify (fun t => some (.node (look t.view) t.parts)) path t = some t' ∧ Sim t' s := by
  have hnodes : ∀ g, (look g).nodes = g.nodes := by
    intro g
    rw [BoostGraph.nodes, hvertices, BoostGraph.nodes]
  have hjoins : ∀ g e u v, (look g).Joins e u v ↔ g.Joins e u v := by
    intro g e u v
    rw [Joins, hedges, hvertices, Joins]
  have hn := hs.nested.get? hc
  have hshows : Shows s.joins (look c.view) := by
    refine ⟨hwf _ hn.view.wf, fun e u v => ?_⟩
    rw [hjoins, hnodes, hn.view.joins]
  have hsub : ∀ h, Sub h c.view → Sub h (look c.view) := by
    intro h hsub
    exact ⟨(hnodes c.view).symm ▸ hsub.1, hsub.2⟩
  obtain ⟨t', hmod, hnested, _⟩ := hs.nested.modify
    (F := fun t => some (.node (look t.view) t.parts)) hc rfl (hn.setView hshows hsub) (by
      intro g hsub
      rw [Sub, view_node, hnodes, hparent]
      exact hsub)
  refine ⟨t', hmod, ?_, hnested, hs.ends⟩
  have hsame : some (map BoostGraph.nodes c) =
      some (map BoostGraph.nodes (.node (look c.view) c.parts)) := by
    cases c with
    | node g ts => simp [hnodes, parts]
  have hmap := modify_map (F := fun t => some (.node (look t.view) t.parts)) hc rfl hsame
  rw [hmod, Option.map_some, modify_some (by rw [get?_map, hc, Option.map_some]), hs.nodes] at hmap
  exact (Option.some.inj hmap).symm

/-- A safe call does what it means. -/
theorem Sim.step (hs : Sim t s) (hN : get? path s.nodes = some N) {call : Call ν ε}
    (hsafe : s.Safe isBackEdge path call) :
    ∃ t', BoostGraph.step isBackEdge path t call = some t' ∧ Sim t' (s.next path call) := by
  obtain ⟨c, hc⟩ := hs.exists_get? hN
  cases call with
  | addNode n => exact hs.addNode hc hsafe
  | connectNodes nTail nHead e => exact hs.connectNodes hc hsafe.1 hsafe.2
  | removeEdge e => exact hs.removeEdge hc e
  | removeNode n => exact hs.removeNode hc hsafe
  | dropNode n => exact hs.dropNode hc hsafe n
  | moveInEdge old new e tail =>
    obtain ⟨hp, n, hj, htail, hboth⟩ := hsafe
    exact hs.moveInEdge hc hp hj htail hboth
  | moveOutEdge old new e head =>
    obtain ⟨hp, n, hj, hhead, hboth⟩ := hsafe
    exact hs.moveOutEdge hc hp hj hhead hboth
  | moveInEdges source destination => exact hs.moveInEdges hc hsafe.1 hsafe.2
  | moveOutEdges source destination => exact hs.moveOutEdges hc hsafe.1 hsafe.2
  | constructSubGraph nodes => exact hs.constructSubGraph hc hsafe.1 hsafe.2.1 hsafe.2.2
  | findNode n =>
    exact hs.lookup hc (fun _ hg => hg.cacheNode) (fun _ => rfl) (fun _ => rfl) fun _ => rfl
  | findEdge e =>
    exact hs.lookup hc (fun _ hg => hg.cacheEdge) (fun _ => rfl) (fun _ => rfl) fun _ => rfl

theorem Sim.steps (hs : Sim t s) {calls : List (List Nat × Call ν ε)}
    (hsafe : s.SafeCalls isBackEdge calls) :
    ∃ t', BoostGraph.steps isBackEdge t calls = some t' ∧ Sim t' (s.after calls) := by
  induction calls generalizing t s with
  | nil => exact ⟨t, rfl, hs⟩
  | cons call calls ih =>
    obtain ⟨path, call⟩ := call
    obtain ⟨⟨N, hN⟩, hcall, hsafe⟩ := hsafe
    obtain ⟨t₁, ht₁, hs₁⟩ := hs.step hN hcall
    obtain ⟨t', ht', hs'⟩ := ih hs₁ hsafe
    exact ⟨t', by rw [BoostGraph.steps, ht₁, Option.bind_some, ht'], hs'⟩

omit [DecidableEq ν] [DecidableEq ε] in
theorem Sim.start : Sim (.node empty [] : ViewTree (BoostGraph ν ε)) Views.start := by
  refine ⟨?_, .single ⟨?_, ?_⟩, fun _ _ _ h => nomatch h⟩
  · rw [map_node]
    exact congrArg (ViewTree.node · []) (Set.eq_empty_of_forall_notMem fun _ h => nomatch h)
  · exact ⟨List.nodup_nil, fun h => (nomatch h), List.nodup_nil, fun h => (nomatch h),
      fun h => (nomatch h)⟩
  · intro e u v
    constructor
    · rintro ⟨td, hd, h, _⟩
      cases h
    · rintro ⟨h, _⟩
      cases h

theorem Shows.answers (hg : Shows J g) : g.Answers J g.nodes where
  edges := hg.wf.edgesNodup
  joins := hg.joins _ _ _
  hasNode := hg.wf.hasNode_iff
  hasEdge := hg.hasEdge_iff
  tailNode := hg.wf.tailNode_eq_some_iff.trans (exists_congr fun _ => hg.joins _ _ _)
  headNode := hg.wf.headNode_eq_some_iff.trans (exists_congr fun _ => hg.joins _ _ _)
  inEdges := hg.wf.mem_inEdges_iff.trans (exists_congr fun _ => hg.joins _ _ _)
  outEdges := hg.wf.mem_outEdges_iff.trans (exists_congr fun _ => hg.joins _ _ _)

/-- After any safe calls every graph of the tree is the one that its nodes induce in the root
graph. -/
theorem steps_answers {calls : List (List Nat × Call ν ε)}
    (hsafe : Views.start.SafeCalls isBackEdge calls) :
    ∃ t, BoostGraph.steps isBackEdge (.node empty []) calls = some t ∧
      ∀ path c, get? path t = some c → ∃ N, get? path (Views.start.after calls).nodes = some N ∧
        c.view.Answers (Views.start.after calls).joins N.view := by
  obtain ⟨t, ht, hs⟩ := Sim.start.steps hsafe
  refine ⟨t, ht, fun path c hc => ?_⟩
  refine ⟨map BoostGraph.nodes c, ?_, ?_⟩
  · rw [← hs.nodes, get?_map, hc, Option.map_some]
  · rw [view_map]
    exact (hs.nested.get? hc).view.answers

/-- The edge is moved in the subgraph as well, before the swap that removes its tail. -/
theorem steps_answers_moveInEdge :
    ∃ t, BoostGraph.steps (fun _ : Nat => false) (.node (empty : BoostGraph Nat Nat) [])
        [([], .addNode 0), ([], .addNode 1), ([], .addNode 2), ([], .connectNodes 0 1 0),
          ([], .constructSubGraph [0, 1, 2]), ([0], .moveInEdge 1 2 0 none),
          ([0], .removeNode 0)] = some t ∧
      ∀ path c, get? path t = some c → ∃ N,
        get? path (Views.start.after [([], .addNode 0), ([], .addNode 1), ([], .addNode 2),
          ([], .connectNodes 0 1 0), ([], .constructSubGraph [0, 1, 2]),
          ([0], .moveInEdge 1 2 0 none), ([0], .removeNode 0)]).nodes = some N ∧
        c.view.Answers (Views.start.after [([], .addNode 0), ([], .addNode 1), ([], .addNode 2),
          ([], .connectNodes 0 1 0), ([], .constructSubGraph [0, 1, 2]),
          ([0], .moveInEdge 1 2 0 none), ([0], .removeNode 0)]).joins N.view := by
  apply steps_answers
  refine ⟨⟨_, rfl⟩, ?_, ⟨_, rfl⟩, ?_, ⟨_, rfl⟩, ?_, ⟨_, rfl⟩, ?_, ⟨_, rfl⟩, ?_, ⟨_, rfl⟩, ?_,
    ⟨_, rfl⟩, ?_, trivial⟩
  · exact fun h => nomatch h
  · rintro (h | h)
    · cases h
    · cases h
  · rintro (h | h | h)
    · cases h
    · cases h
    · cases h
  · refine ⟨fun _ => ⟨?_, ?_⟩, ?_⟩
    · exact .inr (.inr (.inl rfl))
    · exact .inr (.inl rfl)
    · exact fun _ _ _ _ h => nomatch h
  · refine ⟨by decide, ?_, ?_⟩
    · intro n hn
      refine ⟨_, rfl, ?_⟩
      simp only [List.mem_cons, List.not_mem_nil, or_false] at hn
      rcases hn with rfl | rfl | rfl
      · exact .inr (.inr (.inl rfl))
      · exact .inr (.inl rfl)
      · exact .inl rfl
    · rintro e n (h | ⟨_, _, rfl, h⟩) _
      · cases h
      · cases h
  · refine ⟨Nat.le_refl 1, 0, .inr ⟨⟨⟨_, rfl, ?_⟩, _, rfl, ?_⟩, rfl, rfl, rfl⟩, .inl rfl, ?_⟩
    · exact .inr (.inr (.inl rfl))
    · exact .inr (.inl rfl)
    · intro path t ht _
      rcases path with _ | ⟨_ | i, _ | ⟨j, path⟩⟩ <;> cases ht
      · exact ⟨fun _ => .inl rfl, fun _ => .inr (.inl rfl)⟩
      · exact ⟨fun _ => by simp, fun _ => by simp⟩
  · exact fun h => nomatch h

/-- A subgraph that has the old head but not the new one keeps what it stored about the edge. -/
theorem not_steps_answers :
    ¬∀ (calls : List (List Nat × Call Nat Nat)) t,
      BoostGraph.steps (fun _ => false) (.node empty []) calls = some t →
      ∀ path c, get? path t = some c → ∃ N, get? path (Views.start.after calls).nodes = some N ∧
        c.view.Answers (Views.start.after calls).joins N.view := by
  intro h
  obtain ⟨N, hN, hans⟩ := h [([], .addNode 0), ([], .addNode 1), ([], .addNode 2),
    ([], .connectNodes 0 1 0), ([], .constructSubGraph [0, 1]), ([], .moveInEdge 1 2 0 none)]
    _ rfl [0] _ rfl
  cases hN
  obtain ⟨u, v, hj, _, hv⟩ := (hans.hasEdge (e := 0)).1 rfl
  rcases hj with ⟨_, hne⟩ | ⟨_, _, rfl⟩
  · exact hne rfl
  · revert hv
    simp

end

end BoostGraph

end OpenAsip
