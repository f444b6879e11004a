import OpenAsip.BoostGraphChanges

namespace OpenAsip
set_option autoImplicit true

namespace BoostGraph
variable {ν ε : Type} [DecidableEq ν] [DecidableEq ε]

section
variable {g sub : BoostGraph ν ε} {nodes : List ν} {isBackEdge : ε → Bool}

omit [DecidableEq ε] in
theorem Wf.addNodes (hg : g.Wf) (hnodup : nodes.Nodup) (hnew : ∀ n ∈ nodes, n ∉ g.nodes) :
    (nodes.foldl BoostGraph.addNode g).Wf ∧ (nodes.foldl BoostGraph.addNode g).edges = g.edges ∧
      ∀ n, n ∈ (nodes.foldl BoostGraph.addNode g).nodes ↔ n ∈ g.nodes ∨ n ∈ nodes := by
  induction nodes generalizing g with
  | nil => simp [hg]
  | cons m nodes ih =>
    obtain ⟨hm, hnodup⟩ := List.nodup_cons.1 hnodup
    have hnew' : ∀ n ∈ nodes, n ∉ (g.addNode m).nodes := by
      intro n hn
      rw [nodes_addNode, Set.mem_insert_iff]
      rintro (rfl | h)
      · exact hm hn
      · exact hnew n (List.mem_cons_of_mem _ hn) h
    obtain ⟨hwf, hedges, hnodes⟩ := ih (hg.addNode (hnew m List.mem_cons_self)) hnodup hnew'
    rw [List.foldl_cons]
    refine ⟨hwf, hedges, fun n => (hnodes n).trans ?_⟩
    rw [nodes_addNode, Set.mem_insert_iff, List.mem_cons, or_assoc, or_left_comm]

theorem Wf.connectCreating (hs : sub.Wf) (htail : u ∈ sub.nodes) (hhead : v ∈ sub.nodes)
    (hnew : ∀ ed, (e, ed) ∉ sub.edges) (hback : u = v → isBackEdge e = true) :
    ∃ sub', sub.connectCreating isBackEdge u v e = some sub' ∧ sub'.Wf ∧
      sub'.hasParent = sub.hasParent ∧ sub'.nodes = sub.nodes ∧
      (∀ e', e' ≠ e → ∀ ed, (e', ed) ∈ sub'.edges → (e', ed) ∈ sub.edges) ∧
      ∀ e' u' v', sub'.Joins e' u' v' ↔ sub.Joins e' u' v' ∨ e' = e ∧ u' = u ∧ v' = v := by
  obtain ⟨td, htd⟩ := hs.exists_descriptor htail
  obtain ⟨hd, hhd⟩ := hs.exists_descriptor hhead
  have hu := hs.descriptor_eq_some_iff.1 htd
  have hv := hs.descriptor_eq_some_iff.1 hhd
  have hloop : (!isBackEdge e && decide (td = hd)) = false := by
    by_cases heq : td = hd
    · subst heq
      rw [hback (Option.some.inj (hu.symm.trans hv))]
      rfl
    · rw [decide_eq_false heq, Bool.and_false]
  refine ⟨sub.addEdge e (td, hd), ?_, hs.addEdge hnew ?_, rfl, rfl, ?_, ?_⟩
  · have hconnects : sub.connects td hd e = false := decide_eq_false (hnew _)
    rw [BoostGraph.connectCreating, htd, hhd]
    simp only [Option.bind_eq_bind, Option.bind_some, hconnects, hloop, Bool.false_eq_true,
      if_false]
  · exact ⟨(List.getElem?_eq_some_iff.1 hu).1, (List.getElem?_eq_some_iff.1 hv).1⟩
  · intro e' hne ed h
    exact (mem_addEdge.1 h).resolve_right fun heq => hne heq.1
  · exact fun e' u' v' => joins_addEdge hu hv

/-- The loop over edges that are not in the graph yet. -/
theorem Wf.connectInside (hg : g.Wf) (hs : sub.Wf) (hnodes : ∀ n, n ∈ sub.nodes ↔ n ∈ nodes)
    {es : List (ν × ε)} (hes : (es.map Prod.snd).Nodup)
    (htail : ∀ u e, (u, e) ∈ es → u ∈ nodes ∧ ∃ v, g.Joins e u v)
    (hnew : ∀ e ∈ es.map Prod.snd, ∀ ed, (e, ed) ∉ sub.edges)
    (hback : ∀ e n, g.Joins e n n → n ∈ nodes → isBackEdge e = true) :
    ∃ sub', es.foldlM (fun sub x => g.connectInside isBackEdge nodes sub x.1 x.2) sub = some sub' ∧
      sub'.Wf ∧ sub'.hasParent = sub.hasParent ∧ sub'.nodes = sub.nodes ∧
      ∀ e u v, sub'.Joins e u v ↔
        sub.Joins e u v ∨ e ∈ es.map Prod.snd ∧ g.Joins e u v ∧ v ∈ nodes := by
  induction es generalizing sub with
  | nil => exact ⟨sub, rfl, hs, rfl, rfl, by simp⟩
  | cons x es ih =>
    obtain ⟨u, e⟩ := x
    rw [List.map_cons, List.nodup_cons] at hes
    obtain ⟨hu, v, hj⟩ := htail u e List.mem_cons_self
    have hhead : g.headNode e = some v := hg.headNode_eq_some_iff.2 ⟨u, hj⟩
    have htail' : ∀ u e, (u, e) ∈ es → u ∈ nodes ∧ ∃ v, g.Joins e u v :=
      fun u e h => htail u e (List.mem_cons_of_mem _ h)
    have hends : ∀ u' v', g.Joins e u' v' ↔ u' = u ∧ v' = v := by
      intro u' v'
      constructor
      · exact fun h => hg.joins_inj h hj
      · rintro ⟨rfl, rfl⟩
        exact hj
    by_cases hv : v ∈ nodes
    · obtain ⟨sub₁, hsub₁, hwf₁, hp₁, hn₁, hedges₁, hj₁⟩ := hs.connectCreating
        ((hnodes u).2 hu) ((hnodes v).2 hv) (hnew e List.mem_cons_self)
        (fun heq => hback e u (heq ▸ hj) hu)
      have hnew₁ : ∀ e' ∈ es.map Prod.snd, ∀ ed, (e', ed) ∉ sub₁.edges := by
        intro e' he' ed h
        have hne : e' ≠ e := fun heq => hes.1 (heq ▸ he')
        exact hnew e' (List.mem_cons_of_mem _ he') ed (hedges₁ e' hne ed h)
      obtain ⟨sub', hsub', hwf', hp', hn', hj'⟩ := ih hwf₁ (by rwa [hn₁]) hes.2 htail' hnew₁
      refine ⟨sub', ?_, hwf', hp'.trans hp₁, hn'.trans hn₁, ?_⟩
      · rw [List.foldlM_cons]
        simp only [BoostGraph.connectInside, hhead, Option.bind_eq_bind, Option.bind_some,
          if_pos hv, hsub₁]
        exact hsub'
      · intro e' u' v'
        rw [hj', hj₁, List.map_cons, List.mem_cons]
        by_cases he : e' = e
        · subst he
          simp only [hends, hes.1, true_and, false_and, or_false]
          constructor
          · rintro (h | ⟨rfl, rfl⟩)
            · exact .inl h
            · exact .inr ⟨⟨rfl, rfl⟩, hv⟩
          · rintro (h | ⟨h, _⟩)
            · exact .inl h
            · exact .inr h
        · simp [he]
    · obtain ⟨sub', hsub', hwf', hp', hn', hj'⟩ := ih hs hnodes hes.2 htail'
        (fun e he => hnew e (List.mem_cons_of_mem _ he))
      refine ⟨sub', ?_, hwf', hp', hn', ?_⟩
      · rw [List.foldlM_cons]
        simp only [BoostGraph.connectInside, hhead, Option.bind_eq_bind, Option.bind_some,
          if_neg hv]
        exact hsub'
      · intro e' u' v'
        rw [hj', List.map_cons, List.mem_cons]
        by_cases he : e' = e
        · subst he
          simp only [hends, hes.1, true_and, false_and, or_false]
          refine ⟨.inl, ?_⟩
          rintro (h | ⟨⟨rfl, rfl⟩, h⟩)
          · exact h
          · exact absurd h hv
        · simp [he]

/-- The new graph is the one that the nodes induce. -/
theorem Wf.exists_subGraph (hg : g.Wf) (hnodup : nodes.Nodup) (hmem : ∀ n ∈ nodes, n ∈ g.nodes)
    (hback : ∀ e n, g.Joins e n n → n ∈ nodes → isBackEdge e = true) :
    ∃ sub, g.subGraph isBackEdge nodes = some sub ∧ sub.Wf ∧ sub.hasParent = true ∧
      sub.nodes = {n | n ∈ nodes} ∧
      ∀ e u v, sub.Joins e u v ↔ g.Joins e u v ∧ u ∈ nodes ∧ v ∈ nodes := by
  have hempty : (BoostGraph.empty : BoostGraph ν ε).Wf :=
    ⟨List.nodup_nil, fun h => (nomatch h), List.nodup_nil, fun h => (nomatch h),
      fun h => (nomatch h)⟩
  obtain ⟨hwf, hedges, hnodes⟩ := hempty.addNodes hnodup fun n _ h => (nomatch h)
  have hwf₀ : ({ nodes.foldl BoostGraph.addNode BoostGraph.empty with hasParent := true } :
      BoostGraph ν ε).Wf :=
    ⟨hwf.nodup, hwf.ends, hwf.edgesNodup, hwf.nodeDescriptors, hwf.edgeDescriptors⟩
  have hnodes₀ : ∀ n, n ∈ ({ nodes.foldl BoostGraph.addNode BoostGraph.empty with
      hasParent := true } : BoostGraph ν ε).nodes ↔ n ∈ nodes :=
    fun n => (hnodes n).trans ⟨fun h => h.resolve_left fun h => (nomatch h), .inr⟩
  have hall : (nodes.all fun gn => (g.descriptor gn).isSome) = true := by
    rw [List.all_eq_true]
    intro n hn
    exact Option.isSome_iff_exists.2 (hg.exists_descriptor (hmem n hn))
  have hsnd : (nodes.flatMap fun gn => (g.outEdges gn).map fun e => (gn, e)).map Prod.snd =
      nodes.flatMap g.outEdges := by
    simp [List.map_flatMap, Function.comp_def]
  have hes : (nodes.flatMap g.outEdges).Nodup := by
    refine List.nodup_flatMap.2 ⟨fun n _ => hg.nodup_outEdges n, hnodup.imp ?_⟩
    intro u u' hne e he he'
    obtain ⟨v, hj⟩ := hg.mem_outEdges_iff.1 he
    obtain ⟨v', hj'⟩ := hg.mem_outEdges_iff.1 he'
    exact hne (hg.joins_inj hj hj').1
  have htail : ∀ u e, (u, e) ∈ (nodes.flatMap fun gn => (g.outEdges gn).map fun e => (gn, e)) →
      u ∈ nodes ∧ ∃ v, g.Joins e u v := by
    intro u e h
    obtain ⟨n, hn, h⟩ := List.mem_flatMap.1 h
    obtain ⟨e', he', heq⟩ := List.mem_map.1 h
    cases heq
    exact ⟨hn, hg.mem_outEdges_iff.1 he'⟩
  obtain ⟨sub, hsub, hwf', hparent, hn, hj⟩ := hg.connectInside hwf₀ hnodes₀ (hsnd ▸ hes) htail
    (fun e _ ed h => by cases hedges ▸ h) hback
  refine ⟨sub, by rw [subGraph, if_pos hall, hsub], hwf', hparent, hn.trans (Set.ext hnodes₀), ?_⟩
  intro e u v
  rw [hj, hsnd, List.mem_flatMap]
  constructor
  · rintro (⟨td, hd, h, _⟩ | ⟨⟨n, hn, he⟩, h, hv⟩)
    · cases hedges ▸ h
    · obtain ⟨v', hj'⟩ := hg.mem_outEdges_iff.1 he
      obtain ⟨rfl, _⟩ := hg.joins_inj hj' h
      exact ⟨h, hn, hv⟩
  · rintro ⟨h, hu, hv⟩
    exact .inr ⟨⟨u, hu, hg.mem_outEdges_iff.2 ⟨v, h⟩⟩, h, hv⟩

end

end BoostGraph

end OpenAsip
