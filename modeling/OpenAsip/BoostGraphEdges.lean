import OpenAsip.BoostGraphs
import Mathlib.Data.List.Nodup
import Mathlib.Data.Set.Insert

namespace OpenAsip
set_option autoImplicit true

namespace BoostGraph
variable {ν ε : Type}

def nodes (g : BoostGraph ν ε) : Set ν := {n | n ∈ g.vertices}

/-- The edge goes from the first node to the second. -/
def Joins (g : BoostGraph ν ε) (e : ε) (u v : ν) : Prop :=
  ∃ td hd, (e, td, hd) ∈ g.edges ∧ g.vertices[td]? = some u ∧ g.vertices[hd]? = some v

/-- Every node and every edge is in the graph once, and no descriptor is stale. -/
structure Wf (g : BoostGraph ν ε) : Prop where
  nodup : g.vertices.Nodup
  ends : (e, td, hd) ∈ g.edges → td < g.vertices.length ∧ hd < g.vertices.length
  edgesNodup : (g.edges.map Prod.fst).Nodup
  nodeDescriptors : g.nodeDescriptors n = some nd → g.vertices[nd]? = some n
  edgeDescriptors : g.edgeDescriptors e = some ed → (e, ed) ∈ g.edges

section
variable {g : BoostGraph ν ε} {e e' : ε} {n u v : ν} {ed : Nat × Nat} {td hd : Nat}

theorem Wf.getElem_inj (hg : g.Wf) {i j : Nat} (hi : g.vertices[i]? = some n)
    (hj : g.vertices[j]? = some n) : i = j := by
  obtain ⟨hi, rfl⟩ := List.getElem?_eq_some_iff.1 hi
  obtain ⟨hj, h⟩ := List.getElem?_eq_some_iff.1 hj
  exact ((List.Nodup.getElem_inj_iff hg.nodup).1 h).symm

theorem Wf.unique (hg : g.Wf) (h : (e, ed) ∈ g.edges) (h' : (e, ed') ∈ g.edges) : ed = ed' := by
  have heq := List.inj_on_of_nodup_map hg.edgesNodup h h' rfl
  exact (Prod.mk.inj heq).2

theorem Joins.left (h : g.Joins e u v) : u ∈ g.nodes := by
  obtain ⟨td, hd, _, hu, _⟩ := h
  exact List.mem_of_getElem? hu

theorem Joins.right (h : g.Joins e u v) : v ∈ g.nodes := by
  obtain ⟨td, hd, _, _, hv⟩ := h
  exact List.mem_of_getElem? hv

theorem Wf.exists_joins (hg : g.Wf) (h : (e, ed) ∈ g.edges) : ∃ u v, g.Joins e u v := by
  obtain ⟨td, hd⟩ := ed
  obtain ⟨htd, hhd⟩ := hg.ends h
  exact ⟨_, _, td, hd, h, List.getElem?_eq_getElem htd, List.getElem?_eq_getElem hhd⟩

theorem Wf.joins_inj (hg : g.Wf) (h : g.Joins e u v) (h' : g.Joins e u' v') : u = u' ∧ v = v' := by
  obtain ⟨td, hd, he, hu, hv⟩ := h
  obtain ⟨td', hd', he', hu', hv'⟩ := h'
  cases hg.unique he he'
  exact ⟨Option.some.inj (hu.symm.trans hu'), Option.some.inj (hv.symm.trans hv')⟩

section
variable [DecidableEq ν]

theorem Wf.hasNode_iff (hg : g.Wf) : g.hasNode n ↔ n ∈ g.nodes := by
  simp only [hasNode, Bool.or_eq_true, decide_eq_true_eq, nodes, Set.mem_ofPred_eq]
  constructor
  · rintro (h | h)
    · obtain ⟨nd, hnd⟩ := Option.isSome_iff_exists.1 h
      exact List.mem_of_getElem? (hg.nodeDescriptors hnd)
    · exact h
  · exact .inr

theorem Wf.descriptor_eq_some_iff (hg : g.Wf) :
    g.descriptor n = some nd ↔ g.vertices[nd]? = some n := by
  rw [descriptor]
  cases hn : g.nodeDescriptors n with
  | some nd' =>
    have hnd' := hg.nodeDescriptors hn
    exact ⟨fun h => Option.some.inj h ▸ hnd', fun h => congrArg some (hg.getElem_inj hnd' h)⟩
  | none =>
    constructor
    · intro h
      obtain ⟨hlt, hget, _⟩ := List.idxOf?_eq_some_iff.1 h
      exact List.getElem?_eq_some_iff.2 ⟨hlt, hget⟩
    · intro h
      obtain ⟨nd', hnd'⟩ : ∃ nd', g.vertices.idxOf? n = some nd' := by
        rw [← Option.isSome_iff_exists, List.isSome_idxOf?]
        exact List.mem_of_getElem? h
      obtain ⟨hlt, hget, _⟩ := List.idxOf?_eq_some_iff.1 hnd'
      rw [hnd', hg.getElem_inj (List.getElem?_eq_some_iff.2 ⟨hlt, hget⟩) h]

theorem Wf.exists_descriptor (hg : g.Wf) (hn : n ∈ g.nodes) : ∃ nd, g.descriptor n = some nd := by
  obtain ⟨nd, hnd⟩ := List.mem_iff_getElem?.1 hn
  exact ⟨nd, hg.descriptor_eq_some_iff.2 hnd⟩

theorem Wf.mem_inEdges (hg : g.Wf) :
    e ∈ g.inEdges n ↔ ∃ td hd, (e, td, hd) ∈ g.edges ∧ g.vertices[hd]? = some n := by
  simp only [inEdges, List.mem_map, List.mem_filter, decide_eq_true_eq, eq_comm (a := some _),
    hg.descriptor_eq_some_iff]
  constructor
  · rintro ⟨⟨e', td, hd⟩, ⟨h, hn⟩, rfl⟩
    exact ⟨td, hd, h, hn⟩
  · rintro ⟨td, hd, h, hn⟩
    exact ⟨_, ⟨h, hn⟩, rfl⟩

theorem Wf.mem_outEdges (hg : g.Wf) :
    e ∈ g.outEdges n ↔ ∃ td hd, (e, td, hd) ∈ g.edges ∧ g.vertices[td]? = some n := by
  simp only [outEdges, List.mem_map, List.mem_filter, decide_eq_true_eq, eq_comm (a := some _),
    hg.descriptor_eq_some_iff]
  constructor
  · rintro ⟨⟨e', td, hd⟩, ⟨h, hn⟩, rfl⟩
    exact ⟨td, hd, h, hn⟩
  · rintro ⟨td, hd, h, hn⟩
    exact ⟨_, ⟨h, hn⟩, rfl⟩

theorem Wf.mem_inEdges_iff (hg : g.Wf) : e ∈ g.inEdges v ↔ ∃ u, g.Joins e u v := by
  rw [hg.mem_inEdges]
  constructor
  · rintro ⟨td, hd, h, hv⟩
    exact ⟨_, td, hd, h, List.getElem?_eq_getElem (hg.ends h).1, hv⟩
  · rintro ⟨u, td, hd, h, _, hv⟩
    exact ⟨td, hd, h, hv⟩

theorem Wf.mem_outEdges_iff (hg : g.Wf) : e ∈ g.outEdges u ↔ ∃ v, g.Joins e u v := by
  rw [hg.mem_outEdges]
  constructor
  · rintro ⟨td, hd, h, hu⟩
    exact ⟨_, td, hd, h, hu, List.getElem?_eq_getElem (hg.ends h).2⟩
  · rintro ⟨v, td, hd, h, hu, _⟩
    exact ⟨td, hd, h, hu⟩

theorem Wf.nodup_inEdges (hg : g.Wf) (n : ν) : (g.inEdges n).Nodup :=
  hg.edgesNodup.sublist (List.filter_sublist.map Prod.fst)

theorem Wf.nodup_outEdges (hg : g.Wf) (n : ν) : (g.outEdges n).Nodup :=
  hg.edgesNodup.sublist (List.filter_sublist.map Prod.fst)

end

section
variable [DecidableEq ε]

theorem Wf.edgeDescriptor_eq_some_iff (hg : g.Wf) :
    g.edgeDescriptor e = some ed ↔ (e, ed) ∈ g.edges := by
  rw [edgeDescriptor]
  cases he : g.edgeDescriptors e with
  | some ed' =>
    have hed' := hg.edgeDescriptors he
    exact ⟨fun h => Option.some.inj h ▸ hed', fun h => congrArg some (hg.unique hed' h)⟩
  | none =>
    constructor
    · intro h
      obtain ⟨⟨e', ed'⟩, hfind, rfl⟩ := Option.map_eq_some_iff.1 h
      have he' : e' = e := by simpa using List.find?_some hfind
      subst he'
      exact List.mem_of_find?_eq_some hfind
    · intro h
      obtain ⟨⟨e', ed'⟩, hfind⟩ : ∃ x, (g.edges.find? fun x => decide (x.1 = e)) = some x := by
        rw [← Option.isSome_iff_exists, List.find?_isSome]
        exact ⟨_, h, by simp⟩
      have he' : e' = e := by simpa using List.find?_some hfind
      subst he'
      rw [hfind, Option.map_some]
      exact congrArg some (hg.unique (List.mem_of_find?_eq_some hfind) h)

theorem Wf.hasEdge_iff (hg : g.Wf) : g.hasEdge e ↔ ∃ u v, g.Joins e u v := by
  simp only [hasEdge, Bool.or_eq_true, List.any_eq_true, decide_eq_true_eq]
  constructor
  · rintro (h | ⟨⟨e', ed⟩, h, rfl⟩)
    · obtain ⟨ed, hed⟩ := Option.isSome_iff_exists.1 h
      exact hg.exists_joins (hg.edgeDescriptors hed)
    · exact hg.exists_joins h
  · rintro ⟨u, v, td, hd, h, _⟩
    exact .inr ⟨_, h, rfl⟩

theorem Wf.tailNode_eq_some_iff (hg : g.Wf) : g.tailNode e = some u ↔ ∃ v, g.Joins e u v := by
  simp only [tailNode, Option.bind_eq_some_iff, hg.edgeDescriptor_eq_some_iff]
  constructor
  · rintro ⟨⟨td, hd⟩, h, hu⟩
    obtain ⟨_, hhd⟩ := hg.ends h
    exact ⟨_, td, hd, h, hu, List.getElem?_eq_getElem hhd⟩
  · rintro ⟨v, td, hd, h, hu, _⟩
    exact ⟨_, h, hu⟩

theorem Wf.headNode_eq_some_iff (hg : g.Wf) : g.headNode e = some v ↔ ∃ u, g.Joins e u v := by
  simp only [headNode, Option.bind_eq_some_iff, hg.edgeDescriptor_eq_some_iff]
  constructor
  · rintro ⟨⟨td, hd⟩, h, hv⟩
    obtain ⟨htd, _⟩ := hg.ends h
    exact ⟨_, td, hd, h, List.getElem?_eq_getElem htd, hv⟩
  · rintro ⟨u, td, hd, h, _, hv⟩
    exact ⟨_, h, hv⟩

end

end

end BoostGraph

end OpenAsip
