import OpenAsip.BoostGraphChanges

namespace OpenAsip
set_option autoImplicit true

namespace BoostGraph
variable {ν ε : Type} [DecidableEq ε]

section
variable {g : BoostGraph ν ε} {e : ε} {u v : ν} {ed : Nat × Nat} {td hd : Nat}

/-- The edges that the loop goes through get new ends, which depend on their old ones only, and the
others stay. -/
theorem Wf.reconnectAll {es : List ε} (hg : g.Wf)
    (newEnds : BoostGraph ν ε → ε → Option (Nat × Nat))
    (φ : Nat × Nat → Option (Nat × Nat)) (hes : es.Nodup)
    (hmem : ∀ e ∈ es, ∃ ed, (e, ed) ∈ g.edges)
    (hφ : ∀ g' : BoostGraph ν ε, g'.Wf → g'.vertices = g.vertices →
      ∀ e ed, (e, ed) ∈ g'.edges → newEnds g' e = φ ed)
    (hlt : ∀ ed ed', φ ed = some ed' → ed.1 < g.vertices.length → ed.2 < g.vertices.length →
      ed'.1 < g.vertices.length ∧ ed'.2 < g.vertices.length) :
    (g.reconnectAll newEnds es).Wf ∧ (g.reconnectAll newEnds es).vertices = g.vertices ∧
      ∀ e ed, (e, ed) ∈ (g.reconnectAll newEnds es).edges ↔
        e ∉ es ∧ (e, ed) ∈ g.edges ∨ e ∈ es ∧ ∃ ed₀, (e, ed₀) ∈ g.edges ∧ φ ed₀ = some ed := by
  induction es generalizing g with
  | nil => simp [BoostGraph.reconnectAll, hg]
  | cons e₁ es ih =>
    obtain ⟨ed₁, h₁⟩ := hmem e₁ List.mem_cons_self
    have hends : newEnds g e₁ = φ ed₁ := hφ g hg rfl e₁ ed₁ h₁
    have hwf : (g.reconnect e₁ (newEnds g e₁)).Wf := by
      apply hg.reconnect
      intro ed hed
      exact hlt ed₁ ed (hends.symm.trans hed) (hg.ends h₁).1 (hg.ends h₁).2
    have hv : (g.reconnect e₁ (newEnds g e₁)).vertices = g.vertices := vertices_reconnect _ _ _
    obtain ⟨hne, hes⟩ := List.nodup_cons.1 hes
    have hmem' : ∀ e ∈ es, ∃ ed, (e, ed) ∈ (g.reconnect e₁ (newEnds g e₁)).edges := by
      intro e he
      obtain ⟨ed, hed⟩ := hmem e (List.mem_cons_of_mem _ he)
      exact ⟨ed, hg.mem_reconnect.2 (.inl ⟨fun h => hne (h ▸ he), hed⟩)⟩
    obtain ⟨hwf', hv', hedges⟩ := ih hwf hes hmem' (fun g' hg' hv' => hφ g' hg' (hv'.trans hv))
      (by rwa [hv])
    refine ⟨hwf', hv'.trans hv, ?_⟩
    intro e ed
    rw [BoostGraph.reconnectAll, List.foldl_cons]
    refine (hedges e ed).trans ?_
    simp only [hg.mem_reconnect, hends, List.mem_cons, not_or]
    by_cases he : e = e₁
    · subst he
      have huniq : (∃ ed₀, (e, ed₀) ∈ g.edges ∧ φ ed₀ = some ed) ↔ φ ed₁ = some ed := by
        constructor
        · rintro ⟨ed₀, h₀, hφ₀⟩
          rwa [hg.unique h₁ h₀]
        · exact fun h => ⟨ed₁, h₁, h⟩
      simp [hne, huniq]
    · simp [he]

variable [DecidableEq ν]

theorem Wf.endsTo_eq (hg : g.Wf) (h : (e, ed) ∈ g.edges) (head : Option Nat) :
    endsTo head g e = head.map fun nd => (ed.1, nd) := by
  obtain ⟨htd, _⟩ := hg.ends h
  have hed := hg.edgeDescriptor_eq_some_iff.2 h
  have hget := List.getElem?_eq_getElem htd
  have hdesc := hg.descriptor_eq_some_iff.2 hget
  cases head with
  | none => simp [endsTo, tailNode, hed, hget]
  | some nd => simp [endsTo, tailNode, hed, hget, hdesc]

theorem Wf.endsFrom_eq (hg : g.Wf) (h : (e, ed) ∈ g.edges) (tail : Option Nat) :
    endsFrom tail g e = tail.map fun nd => (nd, ed.2) := by
  obtain ⟨_, hhd⟩ := hg.ends h
  have hed := hg.edgeDescriptor_eq_some_iff.2 h
  have hget := List.getElem?_eq_getElem hhd
  have hdesc := hg.descriptor_eq_some_iff.2 hget
  cases tail with
  | none => simp [endsFrom, headNode, hed, hget, hdesc]
  | some nd => simp [endsFrom, headNode, hed, hget, hdesc]

theorem Wf.reconnectAll_in (hg : g.Wf) (n : ν) (head : Option Nat)
    (hhead : ∀ nd, head = some nd → nd < g.vertices.length) :
    (g.reconnectAll (endsTo head) (g.inEdges n)).Wf ∧
      (g.reconnectAll (endsTo head) (g.inEdges n)).vertices = g.vertices ∧
      ∀ e td hd, (e, td, hd) ∈ (g.reconnectAll (endsTo head) (g.inEdges n)).edges ↔
        (g.vertices[hd]? ≠ some n ∧ (e, td, hd) ∈ g.edges) ∨
          head = some hd ∧ ∃ hd₀, (e, td, hd₀) ∈ g.edges ∧ g.vertices[hd₀]? = some n := by
  have hmem : ∀ e ∈ g.inEdges n, ∃ ed, (e, ed) ∈ g.edges := by
    intro e he
    obtain ⟨td, hd, h, _⟩ := hg.mem_inEdges.1 he
    exact ⟨_, h⟩
  obtain ⟨hwf, hv, hedges⟩ := hg.reconnectAll (endsTo head)
    (fun ed => head.map fun nd => (ed.1, nd)) (hg.nodup_inEdges n) hmem
    (fun g' hg' _ e ed h => hg'.endsTo_eq h head) (by
      intro ed ed' h htd hhd
      obtain ⟨nd, hnd, rfl⟩ := Option.map_eq_some_iff.1 h
      exact ⟨htd, hhead nd hnd⟩)
  refine ⟨hwf, hv, ?_⟩
  intro e td hd
  rw [hedges, hg.mem_inEdges]
  constructor
  · rintro (⟨hne, h⟩ | ⟨⟨td', hd', h', hn⟩, ⟨td₀, hd₀⟩, h₀, hφ⟩)
    · exact .inl ⟨fun hn => hne ⟨td, hd, h, hn⟩, h⟩
    · obtain ⟨nd, hnd, heq⟩ := Option.map_eq_some_iff.1 hφ
      cases heq
      cases hg.unique h' h₀
      exact .inr ⟨hnd, _, h₀, hn⟩
  · rintro (⟨hne, h⟩ | ⟨rfl, hd₀, h₀, hn⟩)
    · refine .inl ⟨?_, h⟩
      rintro ⟨td', hd', h', hn⟩
      cases hg.unique h h'
      exact hne hn
    · exact .inr ⟨⟨td, hd₀, h₀, hn⟩, _, h₀, rfl⟩

theorem Wf.reconnectAll_out (hg : g.Wf) (n : ν) (tail : Option Nat)
    (htail : ∀ nd, tail = some nd → nd < g.vertices.length) :
    (g.reconnectAll (endsFrom tail) (g.outEdges n)).Wf ∧
      (g.reconnectAll (endsFrom tail) (g.outEdges n)).vertices = g.vertices ∧
      ∀ e td hd, (e, td, hd) ∈ (g.reconnectAll (endsFrom tail) (g.outEdges n)).edges ↔
        (g.vertices[td]? ≠ some n ∧ (e, td, hd) ∈ g.edges) ∨
          tail = some td ∧ ∃ td₀, (e, td₀, hd) ∈ g.edges ∧ g.vertices[td₀]? = some n := by
  have hmem : ∀ e ∈ g.outEdges n, ∃ ed, (e, ed) ∈ g.edges := by
    intro e he
    obtain ⟨td, hd, h, _⟩ := hg.mem_outEdges.1 he
    exact ⟨_, h⟩
  obtain ⟨hwf, hv, hedges⟩ := hg.reconnectAll (endsFrom tail)
    (fun ed => tail.map fun nd => (nd, ed.2)) (hg.nodup_outEdges n) hmem
    (fun g' hg' _ e ed h => hg'.endsFrom_eq h tail) (by
      intro ed ed' h htd hhd
      obtain ⟨nd, hnd, rfl⟩ := Option.map_eq_some_iff.1 h
      exact ⟨htail nd hnd, hhd⟩)
  refine ⟨hwf, hv, ?_⟩
  intro e td hd
  rw [hedges, hg.mem_outEdges]
  constructor
  · rintro (⟨hne, h⟩ | ⟨⟨td', hd', h', hn⟩, ⟨td₀, hd₀⟩, h₀, hφ⟩)
    · exact .inl ⟨fun hn => hne ⟨td, hd, h, hn⟩, h⟩
    · obtain ⟨nd, hnd, heq⟩ := Option.map_eq_some_iff.1 hφ
      cases heq
      cases hg.unique h' h₀
      exact .inr ⟨hnd, _, h₀, hn⟩
  · rintro (⟨hne, h⟩ | ⟨rfl, td₀, h₀, hn⟩)
    · refine .inl ⟨?_, h⟩
      rintro ⟨td', hd', h', hn⟩
      cases hg.unique h h'
      exact hne hn
    · exact .inr ⟨⟨td₀, hd, h₀, hn⟩, _, h₀, rfl⟩

/-- Without a new head the edges are removed. -/
theorem Wf.joins_reconnectAll_in (hg : g.Wf) (n : ν) {head : Option Nat}
    (hhead : ∀ nd, head = some nd ↔ g.vertices[nd]? = some m) :
    (g.reconnectAll (endsTo head) (g.inEdges n)).Joins e u v ↔
      g.Joins e u v ∧ v ≠ n ∨ g.Joins e u n ∧ v = m ∧ m ∈ g.nodes := by
  have hlt : ∀ nd, head = some nd → nd < g.vertices.length :=
    fun nd h => (List.getElem?_eq_some_iff.1 ((hhead nd).1 h)).1
  obtain ⟨_, hvs, hedges⟩ := hg.reconnectAll_in n head hlt
  constructor
  · rintro ⟨td, hd, h, hu, hv⟩
    rw [hvs] at hu hv
    rcases (hedges e td hd).1 h with ⟨hne, h⟩ | ⟨hhd, hd₀, h, hn⟩
    · exact .inl ⟨⟨td, hd, h, hu, hv⟩, fun heq => hne (heq ▸ hv)⟩
    · have hm := (hhead hd).1 hhd
      exact .inr ⟨⟨td, hd₀, h, hu, hn⟩, Option.some.inj (hv.symm.trans hm),
        List.mem_of_getElem? hm⟩
  · rintro (⟨⟨td, hd, h, hu, hv⟩, hne⟩ | ⟨⟨td, hd, h, hu, hv⟩, rfl, hm⟩)
    · refine ⟨td, hd, (hedges e td hd).2 (.inl ⟨?_, h⟩), by rwa [hvs], by rwa [hvs]⟩
      rw [hv]
      exact fun heq => hne (Option.some.inj heq)
    · obtain ⟨nd, hnd⟩ := List.mem_iff_getElem?.1 hm
      exact ⟨td, nd, (hedges e td nd).2 (.inr ⟨(hhead nd).2 hnd, hd, h, hv⟩), by rwa [hvs],
        by rwa [hvs]⟩

theorem Wf.joins_reconnectAll_out (hg : g.Wf) (n : ν) {tail : Option Nat}
    (htail : ∀ nd, tail = some nd ↔ g.vertices[nd]? = some m) :
    (g.reconnectAll (endsFrom tail) (g.outEdges n)).Joins e u v ↔
      g.Joins e u v ∧ u ≠ n ∨ g.Joins e n v ∧ u = m ∧ m ∈ g.nodes := by
  have hlt : ∀ nd, tail = some nd → nd < g.vertices.length :=
    fun nd h => (List.getElem?_eq_some_iff.1 ((htail nd).1 h)).1
  obtain ⟨_, hvs, hedges⟩ := hg.reconnectAll_out n tail hlt
  constructor
  · rintro ⟨td, hd, h, hu, hv⟩
    rw [hvs] at hu hv
    rcases (hedges e td hd).1 h with ⟨hne, h⟩ | ⟨htd, td₀, h, hn⟩
    · exact .inl ⟨⟨td, hd, h, hu, hv⟩, fun heq => hne (heq ▸ hu)⟩
    · have hm := (htail td).1 htd
      exact .inr ⟨⟨td₀, hd, h, hn, hv⟩, Option.some.inj (hu.symm.trans hm),
        List.mem_of_getElem? hm⟩
  · rintro (⟨⟨td, hd, h, hu, hv⟩, hne⟩ | ⟨⟨td, hd, h, hu, hv⟩, rfl, hm⟩)
    · refine ⟨td, hd, (hedges e td hd).2 (.inl ⟨?_, h⟩), by rwa [hvs], by rwa [hvs]⟩
      rw [hu]
      exact fun heq => hne (Option.some.inj heq)
    · obtain ⟨nd, hnd⟩ := List.mem_iff_getElem?.1 hm
      exact ⟨nd, hd, (hedges e nd hd).2 (.inr ⟨(htail nd).2 hnd, td, h, hu⟩), by rwa [hvs],
        by rwa [hvs]⟩

end

end BoostGraph

end OpenAsip
