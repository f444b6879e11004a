import OpenAsip.BoostGraphEdges

namespace OpenAsip
set_option autoImplicit true

namespace BoostGraph
variable {ν ε : Type}

section
variable [DecidableEq ν] {g : BoostGraph ν ε} {n : ν}

theorem Wf.addNode (hg : g.Wf) (hn : n ∉ g.nodes) : (g.addNode n).Wf where
  nodup := by
    have hd : List.Disjoint g.vertices [n] := by
      intro m hm hm'
      rw [List.mem_singleton] at hm'
      exact hn (hm' ▸ hm)
    exact List.Nodup.append hg.nodup (List.nodup_singleton n) hd
  ends h := by
    obtain ⟨htd, hhd⟩ := hg.ends h
    simp only [BoostGraph.addNode, List.length_append]
    exact ⟨Nat.lt_add_right _ htd, Nat.lt_add_right _ hhd⟩
  edgesNodup := hg.edgesNodup
  nodeDescriptors {m nd} h := by
    simp only [BoostGraph.addNode, Function.update_apply] at h ⊢
    split at h
    · next hm =>
      cases h
      rw [hm, List.getElem?_concat_length]
    · have hget := hg.nodeDescriptors h
      rw [List.getElem?_append_left (List.getElem?_eq_some_iff.1 hget).1, hget]
  edgeDescriptors h := hg.edgeDescriptors h

theorem nodes_addNode : (g.addNode n).nodes = insert n g.nodes := by
  ext m
  simp [nodes, BoostGraph.addNode, or_comm]

theorem Wf.joins_addNode (hg : g.Wf) : (g.addNode n).Joins e u v ↔ g.Joins e u v := by
  constructor
  · rintro ⟨td, hd, he, hu, hv⟩
    obtain ⟨htd, hhd⟩ := hg.ends (show (e, td, hd) ∈ g.edges from he)
    simp only [BoostGraph.addNode] at hu hv
    rw [List.getElem?_append_left htd] at hu
    rw [List.getElem?_append_left hhd] at hv
    exact ⟨td, hd, he, hu, hv⟩
  · rintro ⟨td, hd, he, hu, hv⟩
    obtain ⟨htd, hhd⟩ := hg.ends he
    refine ⟨td, hd, he, ?_, ?_⟩
    · simp only [BoostGraph.addNode, List.getElem?_append_left htd, hu]
    · simp only [BoostGraph.addNode, List.getElem?_append_left hhd, hv]

theorem Wf.cacheNode (hg : g.Wf) : (g.cacheNode n).Wf where
  nodup := hg.nodup
  ends := hg.ends
  edgesNodup := hg.edgesNodup
  nodeDescriptors {m nd} h := by
    simp only [BoostGraph.cacheNode, Function.update_apply] at h
    split at h
    · next hm =>
      rw [hm]
      exact hg.descriptor_eq_some_iff.1 h
    · exact hg.nodeDescriptors h
  edgeDescriptors := hg.edgeDescriptors

end

section
variable [DecidableEq ε] {g : BoostGraph ν ε} {e e' : ε} {ed : Nat × Nat}

theorem Wf.cacheEdge (hg : g.Wf) : (g.cacheEdge e).Wf where
  nodup := hg.nodup
  ends := hg.ends
  edgesNodup := hg.edgesNodup
  nodeDescriptors := hg.nodeDescriptors
  edgeDescriptors {e' ed} h := by
    simp only [BoostGraph.cacheEdge, Function.update_apply] at h
    split at h
    · next he =>
      rw [he]
      exact hg.edgeDescriptor_eq_some_iff.1 h
    · exact hg.edgeDescriptors h

theorem Wf.mem_eraseEdge (hg : g.Wf) :
    (e', ed) ∈ (g.eraseEdge e).edges ↔ e' ≠ e ∧ (e', ed) ∈ g.edges := by
  simp only [eraseEdge, List.mem_filter, decide_eq_true_eq]
  constructor
  · rintro ⟨h, hne | hne⟩
    · refine ⟨?_, h⟩
      rintro rfl
      exact hne (hg.edgeDescriptor_eq_some_iff.2 h).symm
    · exact ⟨hne, h⟩
  · rintro ⟨hne, h⟩
    exact ⟨h, .inr hne⟩

/-- An edge that is removed has to be forgotten as well. -/
theorem Wf.forgetEdge (hg : g.Wf) : ((g.eraseEdge e).forgetEdge e).Wf where
  nodup := hg.nodup
  ends h := hg.ends (hg.mem_eraseEdge.1 h).2
  edgesNodup := hg.edgesNodup.sublist (List.filter_sublist.map Prod.fst)
  nodeDescriptors := hg.nodeDescriptors
  edgeDescriptors {e' ed} h := by
    simp only [BoostGraph.forgetEdge, eraseEdge, BoostGraph.cacheEdge, Function.update_apply] at h
    split at h
    · cases h
    · next hne => exact hg.mem_eraseEdge.2 ⟨hne, hg.edgeDescriptors h⟩

theorem mem_addEdge :
    (e', ed') ∈ (g.addEdge e ed).edges ↔ (e', ed') ∈ g.edges ∨ e' = e ∧ ed' = ed := by
  simp [addEdge]

theorem Wf.addEdge (hg : g.Wf) (he : ∀ ed, (e, ed) ∉ g.edges)
    (hed : ed.1 < g.vertices.length ∧ ed.2 < g.vertices.length) : (g.addEdge e ed).Wf where
  nodup := hg.nodup
  ends h := by
    rcases mem_addEdge.1 h with h | ⟨rfl, rfl⟩
    · exact hg.ends h
    · exact hed
  edgesNodup := by
    simp only [BoostGraph.addEdge, List.map_append, List.map_singleton]
    refine List.Nodup.append hg.edgesNodup (List.nodup_singleton e) ?_
    intro e' he' hmem
    rw [List.mem_singleton] at hmem
    obtain ⟨⟨e'', ed'⟩, h, rfl⟩ := List.mem_map.1 he'
    exact he ed' (hmem ▸ h)
  nodeDescriptors := hg.nodeDescriptors
  edgeDescriptors {e' ed'} h := by
    simp only [BoostGraph.addEdge, Function.update_apply] at h
    split at h
    · next he' =>
      cases h
      exact mem_addEdge.2 (.inr ⟨he', rfl⟩)
    · exact mem_addEdge.2 (.inl (hg.edgeDescriptors h))

@[simp]
theorem vertices_reconnect (g : BoostGraph ν ε) (e : ε) (ends : Option (Nat × Nat)) :
    (g.reconnect e ends).vertices = g.vertices := by
  cases ends with
  | none => rfl
  | some ends => rfl

theorem Wf.mem_reconnect (hg : g.Wf) {ends : Option (Nat × Nat)} :
    (e', ed) ∈ (g.reconnect e ends).edges ↔
      e' ≠ e ∧ (e', ed) ∈ g.edges ∨ e' = e ∧ ends = some ed := by
  cases ends with
  | none =>
    have hiff : (e', ed) ∈ ((g.eraseEdge e).forgetEdge e).edges ↔ e' ≠ e ∧ (e', ed) ∈ g.edges :=
      hg.mem_eraseEdge
    simp [reconnect, hiff]
  | some ends =>
    rw [reconnect, mem_addEdge, Option.some.injEq, eq_comm (a := ends)]
    exact or_congr hg.mem_eraseEdge Iff.rfl

theorem Wf.reconnect (hg : g.Wf) {ends : Option (Nat × Nat)}
    (hends : ∀ ed, ends = some ed → ed.1 < g.vertices.length ∧ ed.2 < g.vertices.length) :
    (g.reconnect e ends).Wf := by
  cases ends with
  | none => exact hg.forgetEdge
  | some ends =>
    apply Wf.addEdge hg.forgetEdge
    · intro ed h
      exact (hg.mem_eraseEdge.1 h).1 rfl
    · exact hends ends rfl

/-- An edge that is moved without being forgotten is found at its new place all the same. -/
theorem addEdge_eraseEdge (g : BoostGraph ν ε) (e : ε) (ed : Nat × Nat) :
    (g.eraseEdge e).addEdge e ed = g.reconnect e (some ed) := by
  simp [reconnect, addEdge, forgetEdge]

theorem joins_addEdge (hu : g.vertices[td]? = some u) (hv : g.vertices[hd]? = some v) :
    (g.addEdge e (td, hd)).Joins e' u' v' ↔ g.Joins e' u' v' ∨ e' = e ∧ u' = u ∧ v' = v := by
  constructor
  · rintro ⟨td', hd', h, hu', hv'⟩
    rcases mem_addEdge.1 h with h | ⟨rfl, heq⟩
    · exact .inl ⟨td', hd', h, hu', hv'⟩
    · cases heq
      exact .inr ⟨rfl, Option.some.inj (hu'.symm.trans hu), Option.some.inj (hv'.symm.trans hv)⟩
  · rintro (⟨td', hd', h, hu', hv'⟩ | ⟨rfl, rfl, rfl⟩)
    · exact ⟨td', hd', mem_addEdge.2 (.inl h), hu', hv'⟩
    · exact ⟨td, hd, mem_addEdge.2 (.inr ⟨rfl, rfl⟩), hu, hv⟩

theorem Wf.joins_forgetEdge (hg : g.Wf) :
    ((g.eraseEdge e).forgetEdge e).Joins e' u v ↔ e' ≠ e ∧ g.Joins e' u v := by
  constructor
  · rintro ⟨td, hd, h, hu, hv⟩
    obtain ⟨hne, h⟩ := hg.mem_eraseEdge.1 h
    exact ⟨hne, td, hd, h, hu, hv⟩
  · rintro ⟨hne, td, hd, h, hu, hv⟩
    exact ⟨td, hd, hg.mem_eraseEdge.2 ⟨hne, h⟩, hu, hv⟩

end

end BoostGraph

end OpenAsip
