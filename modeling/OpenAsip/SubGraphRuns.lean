import OpenAsip.SubGraphSimulation

namespace OpenAsip
set_option autoImplicit true

namespace BoostGraph
open ViewTree
variable {ν ε : Type} [DecidableEq ν] [DecidableEq ε]

section
variable {t c : ViewTree (BoostGraph ν ε)} {s : Views ν ε} {path : List Nat} {n u v : ν} {e : ε}

theorem Sim.connectNodes (hs : Sim t s) (hc : get? path t = some c)
    (hroot : path = [] → u ∈ s.nodes.view ∧ v ∈ s.nodes.view)
    (hnew : s.Has path u → s.Has path v → ∀ u v, ¬s.joins e u v) :
    ∃ t', (upFrom (connectNodes u v e) path t).map Prod.fst = some t' ∧
      Sim t' (s.next path (.connectNodes u v e)) := by
  by_cases hA : u ∈ c.view.nodes ∧ v ∈ c.view.nodes
  · have he := hnew ((hs.has_iff hc).2 hA.1) ((hs.has_iff hc).2 hA.2)
    have hmem : u ∈ s.nodes.view ∧ v ∈ s.nodes.view :=
      ⟨hs.subset_root hc hA.1, hs.subset_root hc hA.2⟩
    have hC : ∀ path c, get? path t = some c →
        c.view.hasParent = true ∨ u ∈ c.view.nodes ∧ v ∈ c.view.nodes := by
      intro path c hc
      by_cases hp : path = []
      · subst hp
        cases hc
        rw [hs.root]
        exact .inr hmem
      · exact .inl (hs.hasParent hc hp)
    obtain ⟨t', hup, _, ht'⟩ := (connectNodes_update u v he).upFrom hs.nested hc (hC path c hc)
      fun _ => hC
    obtain ⟨hnested, hnodes⟩ := ht' hA
    have hsim : Sim t' ⟨fun e' u' v' => s.joins e' u' v' ∨ e' = e ∧ u' = u ∧ v' = v, s.nodes⟩ := by
      refine ⟨hnodes.trans hs.nodes, hnested, ?_⟩
      rintro e' u' v' (h | ⟨rfl, rfl, rfl⟩)
      · exact hs.ends e' u' v' h
      · exact hmem
    refine ⟨t', hup, hsim.congr rfl fun e' u' v' => ?_⟩
    simp [Views.next, hs.has_iff hc, hA.1, hA.2]
  · have hp : path ≠ [] := by
      rintro rfl
      cases hc
      rw [hs.root] at hA
      exact hA (hroot rfl)
    have hl := (hs.nested.get? hc).view.wf.connectNodes_leave (e := e) hA (hs.hasParent hc hp)
    refine ⟨t, by rw [upFrom_of_leave hc hl, Option.map_some], hs.congr rfl fun e' u' v' => ?_⟩
    simp [Views.next, hs.has_iff hc, hA]

omit [DecidableEq ν] in
theorem Sim.removeEdge (hs : Sim t s) (hc : get? path t = some c) (e : ε) :
    ∃ t', (upFrom (removeEdge e) path t).map Prod.fst = some t' ∧
      Sim t' (s.next path (.removeEdge e)) := by
  obtain ⟨t', hup, hsame, ht'⟩ := (removeEdge_update s.joins e).upFrom hs.nested hc trivial
    fun _ _ _ _ => trivial
  refine ⟨t', hup, ?_⟩
  by_cases hA : ∃ u v, s.joins e u v ∧ u ∈ c.view.nodes ∧ v ∈ c.view.nodes
  · obtain ⟨hnested, hnodes⟩ := ht' hA
    have hsim : Sim t' ⟨fun e' u v => s.joins e' u v ∧ e' ≠ e, s.nodes⟩ :=
      ⟨hnodes.trans hs.nodes, hnested, fun e' u v h => hs.ends e' u v h.1⟩
    refine hsim.congr rfl fun e' u v => and_congr_right fun hj => not_congr ?_
    rw [hs.has_iff hc, hs.has_iff hc]
    obtain ⟨u', v', hj', hu, hv⟩ := hA
    constructor
    · exact And.left
    · rintro rfl
      obtain ⟨rfl, rfl⟩ := hs.joins_inj hj' hj
      exact ⟨rfl, hu, hv⟩
  · cases hsame hA
    refine hs.congr rfl fun e' u v => ?_
    constructor
    · exact And.left
    · intro hj
      refine ⟨hj, ?_⟩
      rintro ⟨rfl, hu, hv⟩
      exact hA ⟨u, v, hj, (hs.has_iff hc).1 hu, (hs.has_iff hc).1 hv⟩

theorem Sim.removeNode (hs : Sim t s) (hc : get? path t = some c)
    (hroot : path = [] → n ∈ s.nodes.view) :
    ∃ t', (upFrom (removeNode n) path t).map Prod.fst = some t' ∧
      Sim t' (s.next path (.removeNode n)) := by
  have hC : n ∈ s.nodes.view → ∀ path c, get? path t = some c →
      c.view.hasParent = true ∨ n ∈ c.view.nodes := by
    intro hn path c hc
    by_cases hp : path = []
    · subst hp
      cases hc
      rw [hs.root]
      exact .inr hn
    · exact .inl (hs.hasParent hc hp)
  have hCc : c.view.hasParent = true ∨ n ∈ c.view.nodes := by
    by_cases hp : path = []
    · exact hC (hroot hp) path c hc
    · exact .inl (hs.hasParent hc hp)
  obtain ⟨t', hup, hsame, ht'⟩ := (removeNode_update s.joins n).upFrom hs.nested hc hCc
    fun hA => hC (hs.subset_root hc hA)
  refine ⟨t', hup, ?_⟩
  by_cases hA : n ∈ c.view.nodes
  · obtain ⟨hnested, hnodes⟩ := ht' hA
    have hnext : s.next path (.removeNode n) =
        ⟨fun e u v => s.joins e u v ∧ u ≠ n ∧ v ≠ n, map (fun N => {m ∈ N | m ≠ n}) s.nodes⟩ := by
      simp [Views.next, hs.has_iff hc, hA]
    rw [hnext]
    refine ⟨?_, hnested, ?_⟩
    · rw [hnodes, ← hs.nodes, map_map]
    · rintro e u v ⟨hj, hu, hv⟩
      obtain ⟨hu', hv'⟩ := hs.ends e u v hj
      rw [view_map]
      exact ⟨⟨hu', hu⟩, hv', hv⟩
  · cases hsame hA
    have hnext : s.next path (.removeNode n) = ⟨s.joins, map (fun N => {m | m ∈ N}) s.nodes⟩ := by
      simp [Views.next, hs.has_iff hc, hA]
    have hnodes : map (fun N : Set ν => {m | m ∈ N}) s.nodes = s.nodes := by
      rw [← hs.nodes, map_map]
      rfl
    rw [hnext, hnodes]
    exact hs

/-- The graphs at the path and below it lose the node. -/
theorem Sim.dropNode (hs : Sim t s) (hc : get? path t = some c) (hp : path ≠ []) (n : ν) :
    ∃ t', modify (down (dropNode n)) path t = some t' ∧ Sim t' (s.next path (.dropNode n)) := by
  have hn := hs.nested.get? hc
  have hupd := dropNode_update s.joins n
  obtain ⟨c', hdown, hnested, hnodes, hparent⟩ := hupd.down hn fun _ _ _ => trivial
  have hview : c'.view.nodes = {m ∈ c.view.nodes | m ≠ n} := by
    have hv := congrArg view hnodes
    rwa [view_map, view_map] at hv
  obtain ⟨t', hmod, hnested', hview'⟩ := hs.nested.modify hc hdown hnested fun g hsub => by
    refine ⟨?_, hparent.trans hsub.2⟩
    rw [hview]
    exact (Set.sep_subset _ _).trans hsub.1
  have hmap : modify (fun t => some (map (fun N : Set ν => {m ∈ N | m ≠ n}) t)) path s.nodes =
      some (map BoostGraph.nodes t') := by
    rw [← hs.nodes, modify_map hc hdown, hmod, Option.map_some]
    rw [hnodes, map_map]
  have hnext : s.next path (.dropNode n) = ⟨s.joins, map BoostGraph.nodes t'⟩ := by
    simp only [Views.next, hmap, Option.getD_some]
  rw [hnext]
  refine ⟨t', hmod, rfl, hnested', ?_⟩
  have hroot : t'.view = t.view := by
    cases path with
    | nil => exact absurd rfl hp
    | cons i path => exact view_of_modify hmod
  simp only [view_map, hroot, hs.root]
  exact hs.ends

omit [DecidableEq ν] [DecidableEq ε] in
/-- An update of the edges from the root graph on. -/
theorem Sim.down {f : BoostGraph ν ε → Visit (BoostGraph ν ε)} {A : Set ν → Prop}
    {J' : ε → ν → ν → Prop} {C : BoostGraph ν ε → Prop} {s' : Views ν ε} (hs : Sim t s)
    (hf : Update f A id s.joins J' C) (hC : ∀ path c, get? path t = some c → C c.view)
    (hends : ∀ e u v, J' e u v → u ∈ s.nodes.view ∧ v ∈ s.nodes.view)
    (hnodes : s'.nodes = s.nodes) (hjoins : ∀ e u v, s'.joins e u v ↔ J' e u v) :
    ∃ t', ViewTree.down f t = some t' ∧ Sim t' s' := by
  obtain ⟨t', hdown, hnested, hnodes', _⟩ := hf.down hs.nested hC
  have hsim : Sim t' ⟨J', s.nodes⟩ := ⟨hnodes'.trans hs.nodes, hnested, hends⟩
  exact ⟨t', hdown, hsim.congr hnodes hjoins⟩

omit [DecidableEq ν] [DecidableEq ε] in
theorem rootGraph_eq (hc : get? path t = some c) (hp : path.length ≤ 1) :
    rootGraph path t = some t.view ∧ path.dropLast = [] := by
  have hdrop : path.dropLast = [] := by
    rw [← List.length_eq_zero_iff, List.length_dropLast]
    omega
  rw [rootGraph, hc, Option.bind_some, hdrop]
  exact ⟨rfl, rfl⟩

theorem Sim.moveInEdge (hs : Sim t s) (hc : get? path t = some c) {old new : ν} {tail : Option ν}
    (hp : path.length ≤ 1) (hj : s.joins e n old) (htail : tail = none ∨ tail = some n)
    (hboth : s.Every fun N => n ∈ N → (old ∈ N ↔ new ∈ N)) :
    ∃ t', step isBackEdge path t (.moveInEdge old new e tail) = some t' ∧
      Sim t' (s.next path (.moveInEdge old new e tail)) := by
  obtain ⟨hrg, hdrop⟩ := rootGraph_eq hc hp
  have hview := hs.nested.view
  have hjoins : ∀ u v, s.joins e u v ↔ u = n ∧ v = old := by
    intro u v
    constructor
    · exact fun h => hs.joins_inj h hj
    · rintro ⟨rfl, rfl⟩
      exact hj
  have hmem := hs.ends e n old hj
  have hor : tail.or (t.view.tailNode e) = some n := by
    rcases htail with rfl | rfl
    · rw [Option.none_or, hview.wf.tailNode_eq_some_iff]
      exact ⟨old, (hview.joins e n old).2 ⟨hj, hs.root ▸ hmem.1, hs.root ▸ hmem.2⟩⟩
    · rfl
  have hstep : step isBackEdge path t (.moveInEdge old new e tail) =
      ViewTree.down (BoostGraph.moveInEdge old new e n) t := by
    simp only [step, hrg, Option.bind_eq_bind, Option.bind_some, hor, hdrop]
    rfl
  rw [hstep]
  apply hs.down (moveInEdge_update hjoins) (fun path c hc => hs.every hboth hc)
  · rintro e' u v (⟨h, _⟩ | ⟨_, rfl, rfl⟩)
    · exact hs.ends e' u v h
    · exact ⟨hmem.1, (hboth [] s.nodes rfl hmem.1).1 hmem.2⟩
  · rfl
  · intro e' u v
    simp only [Views.next, hjoins, and_true]

theorem Sim.moveOutEdge (hs : Sim t s) (hc : get? path t = some c) {old new : ν} {head : Option ν}
    (hp : path.length ≤ 1) (hj : s.joins e old n) (hhead : head = none ∨ head = some n)
    (hboth : s.Every fun N => n ∈ N → (old ∈ N ↔ new ∈ N)) :
    ∃ t', step isBackEdge path t (.moveOutEdge old new e head) = some t' ∧
      Sim t' (s.next path (.moveOutEdge old new e head)) := by
  obtain ⟨hrg, hdrop⟩ := rootGraph_eq hc hp
  have hview := hs.nested.view
  have hjoins : ∀ u v, s.joins e u v ↔ u = old ∧ v = n := by
    intro u v
    constructor
    · exact fun h => hs.joins_inj h hj
    · rintro ⟨rfl, rfl⟩
      exact hj
  have hmem := hs.ends e old n hj
  have hor : head.or (t.view.headNode e) = some n := by
    rcases hhead with rfl | rfl
    · rw [Option.none_or, hview.wf.headNode_eq_some_iff]
      exact ⟨old, (hview.joins e old n).2 ⟨hj, hs.root ▸ hmem.1, hs.root ▸ hmem.2⟩⟩
    · rfl
  have hstep : step isBackEdge path t (.moveOutEdge old new e head) =
      ViewTree.down (BoostGraph.moveOutEdge old new e n) t := by
    simp only [step, hrg, Option.bind_eq_bind, Option.bind_some, hor, hdrop]
    rfl
  rw [hstep]
  apply hs.down (moveOutEdge_update hjoins) (fun path c hc => hs.every hboth hc)
  · rintro e' u v (⟨h, _⟩ | ⟨_, rfl, rfl⟩)
    · exact hs.ends e' u v h
    · exact ⟨(hboth [] s.nodes rfl hmem.2).1 hmem.1, hmem.2⟩
  · rfl
  · intro e' u v
    simp only [Views.next, hjoins, true_and, and_comm]

omit [DecidableEq ν] [DecidableEq ε] in
/-- An update of the edges of a node, which starts at a graph that has the node or else has nothing
to do. -/
theorem Sim.upFrom {f : BoostGraph ν ε → Visit (BoostGraph ν ε)} {source destination : ν}
    {J' : ε → ν → ν → Prop} {s' : Views ν ε} (hs : Sim t s) (hc : get? path t = some c)
    (hf : Update f (fun N => source ∈ N) id s.joins J' (fun g =>
      (destination ∈ g.nodes → source ∈ g.nodes) ∧
        (destination ∈ g.nodes → destination ∈ s.nodes.view)))
    (hcalled : s.Has path destination → s.Has path source)
    (hevery : s.Has path source → s.Every fun N => destination ∈ N → source ∈ N)
    (hends : ∀ e u v, J' e u v → u ∈ s.nodes.view ∧ v ∈ s.nodes.view)
    (hnodes : s'.nodes = s.nodes)
    (hjoins : s.Has path source → ∀ e u v, s'.joins e u v ↔ J' e u v)
    (hsame : ¬s.Has path source → ∀ e u v, s'.joins e u v ↔ s.joins e u v) :
    ∃ t', (ViewTree.upFrom f path t).map Prod.fst = some t' ∧ Sim t' s' := by
  rw [hs.has_iff hc, hs.has_iff hc] at hcalled
  rw [hs.has_iff hc] at hevery hjoins hsame
  obtain ⟨t', hup, hleave, ht'⟩ := hf.upFrom hs.nested hc
    ⟨hcalled, fun hd => hs.subset_root hc hd⟩
    fun hA path c hc => ⟨hs.every (hevery hA) hc, fun hd => hs.subset_root hc hd⟩
  refine ⟨t', hup, ?_⟩
  by_cases hA : source ∈ c.view.nodes
  · obtain ⟨hnested, hnodes'⟩ := ht' hA
    have hsim : Sim t' ⟨J', s.nodes⟩ := ⟨hnodes'.trans hs.nodes, hnested, hends⟩
    exact hsim.congr hnodes (hjoins hA)
  · cases hleave hA
    exact hs.congr hnodes (hsame hA)

theorem Sim.moveInEdges (hs : Sim t s) (hc : get? path t = some c) {source destination : ν}
    (hcalled : s.Has path destination → s.Has path source)
    (hevery : s.Has path source → s.Every fun N => destination ∈ N → source ∈ N) :
    ∃ t', (ViewTree.upFrom (moveInEdges source destination) path t).map Prod.fst = some t' ∧
      Sim t' (s.next path (.moveInEdges source destination)) := by
  apply hs.upFrom hc (moveInEdges_update s.joins source destination _) hcalled hevery
  · rintro e u v (⟨h, _⟩ | ⟨h, rfl, hd⟩)
    · exact hs.ends e u v h
    · exact ⟨(hs.ends e u source h).1, hd⟩
  · rfl
  · intro hh e u v
    simp [Views.next, hh]
  · intro hh e u v
    simp [Views.next, hh]

theorem Sim.moveOutEdges (hs : Sim t s) (hc : get? path t = some c) {source destination : ν}
    (hcalled : s.Has path destination → s.Has path source)
    (hevery : s.Has path source → s.Every fun N => destination ∈ N → source ∈ N) :
    ∃ t', (ViewTree.upFrom (moveOutEdges source destination) path t).map Prod.fst = some t' ∧
      Sim t' (s.next path (.moveOutEdges source destination)) := by
  apply hs.upFrom hc (moveOutEdges_update s.joins source destination _) hcalled hevery
  · rintro e u v (⟨h, _⟩ | ⟨h, rfl, hd⟩)
    · exact hs.ends e u v h
    · exact ⟨hd, (hs.ends e source v h).2⟩
  · rfl
  · intro hh e u v
    simp [Views.next, hh]
  · intro hh e u v
    simp [Views.next, hh]

end

end BoostGraph

end OpenAsip
