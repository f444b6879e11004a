import OpenAsip.BoostGraphMoves
import OpenAsip.SwapRemoval

namespace OpenAsip
set_option autoImplicit true

namespace BoostGraph
open SwapRemoval
variable {ν ε : Type} [DecidableEq ν] [DecidableEq ε]

section
variable {g g' : BoostGraph ν ε} {dest lastNode : ν} {nd : Nat}

theorem Wf.clearVertex (hg : g.Wf) (hnd : g.vertices[nd]? = some dest) :
    ((g.clearDescriptorCache (g.inEdges dest ++ g.outEdges dest)).clearVertex nd).Wf where
  nodup := hg.nodup
  ends h := hg.ends (List.mem_filter.1 h).1
  edgesNodup := hg.edgesNodup.sublist (List.filter_sublist.map Prod.fst)
  nodeDescriptors := hg.nodeDescriptors
  edgeDescriptors {e ed} h := by
    simp only [BoostGraph.clearVertex, clearDescriptorCache] at h ⊢
    split at h
    · cases h
    · next he =>
      have hed := hg.edgeDescriptors h
      simp only [List.mem_append, not_or, hg.mem_inEdges, hg.mem_outEdges] at he
      refine List.mem_filter.2 ⟨hed, ?_⟩
      have htail : ed.1 ≠ nd := fun heq => he.2 ⟨ed.1, ed.2, hed, heq ▸ hnd⟩
      have hhead : ed.2 ≠ nd := fun heq => he.1 ⟨ed.1, ed.2, hed, heq ▸ hnd⟩
      simp [htail, hhead]

omit [DecidableEq ν] in
theorem mem_clearVertex {es : List ε} {td hd : Nat} :
    (e, td, hd) ∈ ((g.clearDescriptorCache es).clearVertex nd).edges ↔
      (e, td, hd) ∈ g.edges ∧ td ≠ nd ∧ hd ≠ nd := by
  simp [clearVertex, clearDescriptorCache]

/-- The edges of the last node are those of the place of the node that goes, and no other edge is
moved. -/
theorem Wf.moveLast (hg : g.Wf) (hlt : nd < g.vertices.length)
    (hlast : g.vertices.getLast? = some lastNode) :
    ((g.moveLast nd lastNode).edges.map Prod.fst).Nodup ∧
      (∀ e ed, (g.moveLast nd lastNode).edgeDescriptors e = some ed →
        (e, ed) ∈ (g.moveLast nd lastNode).edges) ∧
      ∀ e td hd, (e, td, hd) ∈ (g.moveLast nd lastNode).edges ↔
        ∃ td₀ hd₀, (e, td₀, hd₀) ∈ g.edges ∧ td = place g.vertices nd td₀ ∧
          hd = place g.vertices nd hd₀ := by
  have hget := hlast
  rw [List.getLast?_eq_getElem?] at hget
  have hmoved : ∀ i, g.vertices[i]? = some lastNode ↔ i = g.vertices.length - 1 := by
    intro i
    exact ⟨fun h => hg.getElem_inj h hget, fun h => h ▸ hget⟩
  have hbound : ∀ nd', some nd = some nd' → nd' < g.vertices.length := by
    rintro _ ⟨⟩
    exact hlt
  obtain ⟨hwf, hv, hin⟩ := hg.reconnectAll_in lastNode (some nd) hbound
  obtain ⟨hwf', hv', hout⟩ := hwf.reconnectAll_out lastNode (some nd) (hv.symm ▸ hbound)
  simp only [ne_eq, hv, hmoved] at hin hout
  refine ⟨hwf'.edgesNodup, fun e ed h => hwf'.edgeDescriptors h, ?_⟩
  intro e td hd
  refine (hout e td hd).trans ?_
  simp only [hin, place, Option.some.injEq]
  constructor
  · rintro (⟨htd, ⟨hhd, h⟩ | ⟨rfl, hd₀, h, rfl⟩⟩ | ⟨rfl, td₀, ⟨hhd, h⟩ | ⟨rfl, hd₀, h, rfl⟩, rfl⟩)
    · exact ⟨td, hd, h, by rw [if_neg htd], by rw [if_neg hhd]⟩
    · exact ⟨td, _, h, by rw [if_neg htd], by rw [if_pos rfl]⟩
    · exact ⟨_, hd, h, by rw [if_pos rfl], by rw [if_neg hhd]⟩
    · exact ⟨_, _, h, by rw [if_pos rfl], by rw [if_pos rfl]⟩
  · rintro ⟨td₀, hd₀, h, rfl, rfl⟩
    by_cases htd : td₀ = g.vertices.length - 1
    · rw [if_pos htd]
      refine .inr ⟨rfl, td₀, ?_, htd⟩
      by_cases hhd : hd₀ = g.vertices.length - 1
      · rw [if_pos hhd]
        exact .inr ⟨rfl, hd₀, h, hhd⟩
      · rw [if_neg hhd]
        exact .inl ⟨hhd, h⟩
    · rw [if_neg htd]
      refine .inl ⟨htd, ?_⟩
      by_cases hhd : hd₀ = g.vertices.length - 1
      · rw [if_pos hhd]
        exact .inr ⟨rfl, hd₀, h, hhd⟩
      · rw [if_neg hhd]
        exact .inl ⟨hhd, h⟩

/-- A graph whose last node took the place of another one, with all edges of the others. -/
structure Replaced (g g' : BoostGraph ν ε) (dest lastNode : ν) (nd : Nat) : Prop where
  vertices : g'.vertices = swapRemove g.vertices nd lastNode
  edgesNodup : (g'.edges.map Prod.fst).Nodup
  edges : ∀ e td hd, (e, td, hd) ∈ g'.edges ↔ ∃ td₀ hd₀, (e, td₀, hd₀) ∈ g.edges ∧
    (td₀ ≠ nd ∧ hd₀ ≠ nd) ∧ td = place g.vertices nd td₀ ∧ hd = place g.vertices nd hd₀
  edgeDescriptors : ∀ e ed, g'.edgeDescriptors e = some ed → (e, ed) ∈ g'.edges
  nodeDescriptors : g'.nodeDescriptors =
    Function.update (Function.update g.nodeDescriptors lastNode (some nd)) dest none

omit [DecidableEq ε] in
theorem Wf.nodes_replaced (hg : g.Wf) (hnd : g.vertices[nd]? = some dest)
    (hlast : g.vertices.getLast? = some lastNode) (hr : Replaced g g' dest lastNode nd) :
    g'.nodes = {n ∈ g.nodes | n ≠ dest} := by
  ext n
  rw [nodes, Set.mem_ofPred_eq, hr.vertices, mem_swapRemove hg.nodup hnd hlast]
  exact Iff.rfl

omit [DecidableEq ε] in
theorem Wf.replaced (hg : g.Wf) (hnd : g.vertices[nd]? = some dest)
    (hlast : g.vertices.getLast? = some lastNode) (hr : Replaced g g' dest lastNode nd) :
    g'.Wf := by
  have hlt := (List.getElem?_eq_some_iff.1 hnd).1
  have hget := hlast
  rw [List.getLast?_eq_getElem?] at hget
  refine ⟨?_, ?_, hr.edgesNodup, ?_, hr.edgeDescriptors _ _⟩
  · rw [hr.vertices]
    exact nodup_swapRemove hg.nodup hlt hlast
  · intro e td hd h
    obtain ⟨td₀, hd₀, h₀, ⟨htd, hhd⟩, rfl, rfl⟩ := (hr.edges e td hd).1 h
    rw [hr.vertices, length_swapRemove]
    obtain ⟨htd₀, hhd₀⟩ := hg.ends h₀
    exact ⟨place_lt hlt htd₀ htd, place_lt hlt hhd₀ hhd⟩
  · intro n i h
    rw [hr.nodeDescriptors, Function.update_apply] at h
    split at h
    · cases h
    · next hn =>
      rw [Function.update_apply] at h
      rw [hr.vertices]
      split at h
      · next hl =>
        cases h
        have hi : g.vertices.length - 1 ≠ nd := by
          intro heq
          rw [heq] at hget
          exact hn (hl.trans (Option.some.inj (hget.symm.trans hnd)))
        have hplace := getElem?_place hlt hlast hi (by omega)
        rw [hl]
        rwa [place, if_pos rfl, hget] at hplace
      · next hl =>
        have hi := hg.nodeDescriptors h
        have hne : i ≠ nd := by
          rintro rfl
          exact hn (Option.some.inj (hi.symm.trans hnd))
        have hne' : i ≠ g.vertices.length - 1 := by
          rintro rfl
          exact hl (Option.some.inj (hi.symm.trans hget))
        have hplace := getElem?_place hlt hlast hne (List.getElem?_eq_some_iff.1 hi).1
        rwa [place, if_neg hne', hi] at hplace

omit [DecidableEq ε] in
theorem Wf.joins_replaced (hg : g.Wf) (hnd : g.vertices[nd]? = some dest)
    (hlast : g.vertices.getLast? = some lastNode) (hr : Replaced g g' dest lastNode nd) :
    g'.Joins e u v ↔ g.Joins e u v ∧ u ≠ dest ∧ v ≠ dest := by
  have hlt := (List.getElem?_eq_some_iff.1 hnd).1
  have hplace : ∀ i, i ≠ nd → i < g.vertices.length →
      g'.vertices[place g.vertices nd i]? = g.vertices[i]? := by
    intro i hi hil
    rw [hr.vertices]
    exact getElem?_place hlt hlast hi hil
  constructor
  · rintro ⟨td, hd, h, hu, hv⟩
    obtain ⟨td₀, hd₀, h₀, ⟨htd, hhd⟩, rfl, rfl⟩ := (hr.edges e td hd).1 h
    obtain ⟨htd₀, hhd₀⟩ := hg.ends h₀
    rw [hplace td₀ htd htd₀] at hu
    rw [hplace hd₀ hhd hhd₀] at hv
    refine ⟨⟨td₀, hd₀, h₀, hu, hv⟩, ?_, ?_⟩
    · rintro rfl
      exact htd (hg.getElem_inj hu hnd)
    · rintro rfl
      exact hhd (hg.getElem_inj hv hnd)
  · rintro ⟨⟨td₀, hd₀, h₀, hu, hv⟩, hne, hne'⟩
    obtain ⟨htd₀, hhd₀⟩ := hg.ends h₀
    have htd : td₀ ≠ nd := by
      rintro rfl
      exact hne (Option.some.inj (hu.symm.trans hnd))
    have hhd : hd₀ ≠ nd := by
      rintro rfl
      exact hne' (Option.some.inj (hv.symm.trans hnd))
    exact ⟨_, _, (hr.edges _ _ _).2 ⟨td₀, hd₀, h₀, ⟨htd, hhd⟩, rfl, rfl⟩,
      (hplace td₀ htd htd₀).trans hu, (hplace hd₀ hhd hhd₀).trans hv⟩

omit [DecidableEq ν] in
theorem reconnectAll_eq (newEnds : BoostGraph ν ε → ε → Option (Nat × Nat)) (es : List ε)
    (g : BoostGraph ν ε) : ∃ edges edgeDescriptors, g.reconnectAll newEnds es =
      { g with edges := edges, edgeDescriptors := edgeDescriptors } := by
  induction es generalizing g with
  | nil => exact ⟨_, _, rfl⟩
  | cons e es ih =>
    obtain ⟨edges, eds, h⟩ := ih (g.reconnect e (newEnds g e))
    refine ⟨edges, eds, ?_⟩
    rw [reconnectAll, List.foldl_cons]
    refine h.trans ?_
    cases newEnds g e with
    | none => rfl
    | some ends => rfl

theorem moveLast_eq (g : BoostGraph ν ε) (nd : Nat) (lastNode : ν) :
    ∃ edges edgeDescriptors, g.moveLast nd lastNode =
      { g with
        vertices := g.vertices.set nd lastNode
        nodeDescriptors := Function.update g.nodeDescriptors lastNode (some nd)
        edges := edges
        edgeDescriptors := edgeDescriptors } := by
  obtain ⟨edges, eds, hin⟩ := reconnectAll_eq (endsTo (some nd)) (g.inEdges lastNode) g
  obtain ⟨edges', eds', hout⟩ := reconnectAll_eq (endsFrom (some nd))
    ((g.reconnectAll (endsTo (some nd)) (g.inEdges lastNode)).outEdges lastNode)
    (g.reconnectAll (endsTo (some nd)) (g.inEdges lastNode))
  refine ⟨edges', eds', ?_⟩
  rw [moveLast, hout, hin]

/-- The last node itself goes. -/
theorem Wf.replaced_last (hg : g.Wf) (hnd : g.vertices[nd]? = some lastNode)
    (hlast : g.vertices.getLast? = some lastNode) :
    Replaced g (((g.clearDescriptorCache (g.inEdges lastNode ++ g.outEdges lastNode)).clearVertex
      nd).removeLast lastNode lastNode nd) lastNode lastNode nd := by
  have hcl := hg.clearVertex hnd
  have hget := hlast
  rw [List.getLast?_eq_getElem?] at hget
  have hi : nd = g.vertices.length - 1 := hg.getElem_inj hnd hget
  refine ⟨?_, hcl.edgesNodup, ?_, fun e ed h => hcl.edgeDescriptors h, rfl⟩
  · have hset : g.vertices.set nd lastNode = g.vertices := by
      rw [(List.getElem?_eq_some_iff.1 hnd).2.symm, List.set_getElem_self]
    rw [swapRemove, hset]
    rfl
  · intro e td hd
    refine mem_clearVertex.trans ?_
    constructor
    · rintro ⟨h, htd, hhd⟩
      exact ⟨td, hd, h, ⟨htd, hhd⟩, by rw [place, if_neg (hi ▸ htd)],
        by rw [place, if_neg (hi ▸ hhd)]⟩
    · rintro ⟨td₀, hd₀, h, ⟨htd, hhd⟩, rfl, rfl⟩
      rw [place, place, if_neg (hi ▸ htd), if_neg (hi ▸ hhd)]
      exact ⟨h, htd, hhd⟩

/-- The last node takes the place of the one that goes. -/
theorem Wf.replaced_moveLast (hg : g.Wf) (hnd : g.vertices[nd]? = some dest)
    (hlast : g.vertices.getLast? = some lastNode) :
    Replaced g ((((g.clearDescriptorCache (g.inEdges dest ++ g.outEdges dest)).clearVertex
      nd).moveLast nd lastNode).removeLast dest lastNode nd) dest lastNode nd := by
  have hlt := (List.getElem?_eq_some_iff.1 hnd).1
  obtain ⟨hnodup, hcache, hedges⟩ := (hg.clearVertex hnd).moveLast hlt hlast
  obtain ⟨edges, eds, heq⟩ := moveLast_eq ((g.clearDescriptorCache (g.inEdges dest ++
    g.outEdges dest)).clearVertex nd) nd lastNode
  refine ⟨?_, hnodup, ?_, hcache, ?_⟩
  · rw [removeLast, heq]
    rfl
  · intro e td hd
    refine (hedges e td hd).trans ?_
    simp only [mem_clearVertex, and_assoc]
    exact Iff.rfl
  · rw [removeLast, heq]
    change Function.update (Function.update (Function.update g.nodeDescriptors lastNode _)
      lastNode _) dest none = _
    rw [Function.update_idem]

theorem Wf.exists_replaced (hg : g.Wf) (hn : dest ∈ g.nodes) :
    ∃ g', g.replaceNodeWithLastNode dest = some g' ∧ g'.Wf ∧ g'.hasParent = g.hasParent ∧
      g'.nodes = {n ∈ g.nodes | n ≠ dest} ∧
      ∀ e u v, g'.Joins e u v ↔ g.Joins e u v ∧ u ≠ dest ∧ v ≠ dest := by
  obtain ⟨nd, hdesc⟩ := hg.exists_descriptor hn
  have hnd := hg.descriptor_eq_some_iff.1 hdesc
  have hlt := (List.getElem?_eq_some_iff.1 hnd).1
  obtain ⟨lastNode, hlast⟩ : ∃ l, g.vertices.getLast? = some l := by
    rw [List.getLast?_eq_getElem?]
    exact ⟨_, List.getElem?_eq_getElem (by omega)⟩
  have hlast' : ((g.clearDescriptorCache (g.inEdges dest ++ g.outEdges dest)).clearVertex
      nd).vertices.getLast? = some lastNode := hlast
  rw [replaceNodeWithLastNode, hdesc, Option.bind_eq_bind, Option.bind_some]
  simp only [hlast', Option.bind_eq_bind, Option.bind_some]
  refine ⟨_, rfl, ?_⟩
  have hr : Replaced g ((if dest = lastNode then
      (g.clearDescriptorCache (g.inEdges dest ++ g.outEdges dest)).clearVertex nd
    else ((g.clearDescriptorCache (g.inEdges dest ++ g.outEdges dest)).clearVertex
      nd).moveLast nd lastNode).removeLast dest lastNode nd) dest lastNode nd := by
    split
    · next heq =>
      subst heq
      exact hg.replaced_last hnd hlast
    · exact hg.replaced_moveLast hnd hlast
  refine ⟨hg.replaced hnd hlast hr, ?_, hg.nodes_replaced hnd hlast hr,
    fun e u v => hg.joins_replaced hnd hlast hr⟩
  split
  · rfl
  · obtain ⟨edges, eds, heq⟩ := moveLast_eq ((g.clearDescriptorCache (g.inEdges dest ++
      g.outEdges dest)).clearVertex nd) nd lastNode
    rw [removeLast, heq]
    rfl

end

end BoostGraph

end OpenAsip
