import OpenAsip.SinkDistanceChanges

namespace OpenAsip
set_option autoImplicit true

namespace BoostGraph
open PathLengths
variable {ν ε : Type} [DecidableEq ν] {S : GraphSetup ν ε} {g : BoostGraph ν ε}
  {t t' : PathLengths ν} {n : ν} {len fuel : Nat}

/-- An edge that is no back edge leads from the first node to the second. -/
def Forward (S : GraphSetup ν ε) (g : BoostGraph ν ε) (u v : ν) : Prop :=
  ∃ e, g.Joins e u v ∧ S.isBackEdge e = false

/-- Every path of edges that are no back edges can be followed to a node where it ends. -/
def Grounded (S : GraphSetup ν ε) (g : BoostGraph ν ε) : Prop :=
  ∀ n ∈ g.nodes, ∃ s, Relation.ReflTransGen (Forward S g) n s ∧ ∀ v, ¬Forward S g s v

/-- What `boost::topological_sort` gives: all vertices, each of them before those that have an edge
to it. -/
structure TopologicalOrder (g : BoostGraph ν ε) (order : List Nat) : Prop where
  perm : order.Perm (List.range g.vertices.length)
  sorted : order.Pairwise fun a b => ∀ e, (e, a, b) ∉ g.edges
  loopless : ∀ e a, (e, a, a) ∉ g.edges

theorem Wf.hasForwardOutEdge_eq_false (hg : g.Wf) (hn : g.vertices[nd]? = some n) :
    hasForwardOutEdge S g nd = false ↔ ∀ v, ¬Forward S g n v := by
  rw [hasForwardOutEdge, List.any_eq_false]
  constructor
  · rintro h v ⟨e, he, hb⟩
    obtain ⟨hd, hmem⟩ := hg.placed.mem_outEnds_of_joins (hg.isAt hn) he
    exact h _ hmem (by simp [hb])
  · rintro h ⟨e, hd, v⟩ hmem hb
    rw [Bool.not_eq_true'] at hb
    exact h v ⟨e, (hg.placed.joins_outEnds (hg.isAt hn) hmem).1, hb⟩

/-- The sinks are those that the calculation starts from. -/
theorem startSink_foldl (xs : List (ν × Nat)) (acc : PathLengths ν × List (PathLengthHelper ν)) :
    SameSinks acc.1 (xs.foldl (startSink S g) acc).1 ∧
      (∀ helper ∈ (xs.foldl (startSink S g) acc).2, helper ∈ acc.2 ∨ ∃ x ∈ xs, helper.node = x.1) ∧
      ∀ n, ((∃ helper ∈ acc.2, helper.node = n) ∨
          ∃ x ∈ xs, x.1 = n ∧ hasForwardOutEdge S g x.2 = false) →
        ∃ helper ∈ (xs.foldl (startSink S g) acc).2, helper.node = n := by
  induction xs generalizing acc with
  | nil =>
    refine ⟨.refl _, fun helper h => .inl h, ?_⟩
    rintro n (h | ⟨x, hx, _⟩)
    · exact h
    · exact absurd hx List.not_mem_nil
  | cons x xs ih =>
    rw [List.foldl_cons]
    obtain ⟨hsame, hfrom, hto⟩ := ih (startSink S g acc x)
    cases hb : hasForwardOutEdge S g x.2 with
    | true =>
      have hstep : startSink S g acc x = acc := by rw [startSink, if_pos hb]
      rw [hstep] at hsame hfrom hto ⊢
      refine ⟨hsame, fun helper h => ?_, fun n hn => hto n ?_⟩
      · exact (hfrom helper h).imp id fun ⟨y, hy, heq⟩ => ⟨y, List.mem_cons_of_mem _ hy, heq⟩
      · rcases hn with h | ⟨y, hy, heq, hyb⟩
        · exact .inl h
        · rcases List.mem_cons.1 hy with rfl | hy
          · rw [hb] at hyb
            cases hyb
          · exact .inr ⟨y, hy, heq, hyb⟩
    | false =>
      have hstep : startSink S g acc x = (acc.1.touch .source false x.1, acc.2 ++
          [⟨x.1, 0, (acc.1.touch .source false x.1).distance .source false x.1, false⟩]) := by
        rw [startSink, if_neg (by simp [hb])]
      rw [hstep] at hsame hfrom hto ⊢
      refine ⟨(sameSinks_touch_source _ _ _).trans hsame, fun helper h => ?_, fun n hn => hto n ?_⟩
      · rcases hfrom helper h with h | ⟨y, hy, heq⟩
        · rcases List.mem_append.1 h with h | h
          · exact .inl h
          · rw [List.mem_singleton] at h
            exact .inr ⟨x, List.mem_cons_self, by rw [h]⟩
        · exact .inr ⟨y, List.mem_cons_of_mem _ hy, heq⟩
      · rcases hn with ⟨helper, hmem, heq⟩ | ⟨y, hy, heq, hyb⟩
        · exact .inl ⟨helper, List.mem_append_left _ hmem, heq⟩
        · rcases List.mem_cons.1 hy with rfl | hy
          · exact .inl ⟨_, List.mem_append_right _ List.mem_cons_self, heq⟩
          · exact .inr ⟨y, hy, heq, hyb⟩

theorem passes_sinks (hg : g.Placed) {queue : List (PathLengthHelper ν)}
    (hat : ∀ helper ∈ queue, ∃ nd, g.IsAt helper.node nd)
    (h : queue.foldlM (fun t helper => calculateSinkDistance S g fuel helper.node 0 false t) t =
      some t') :
    Passes S g (fun _ _ _ => False) t t' ∧
      ∀ helper ∈ queue, t'.AtLeast false helper.node 0 := by
  induction queue generalizing t with
  | nil =>
    cases h
    exact ⟨.refl _, fun _ h => absurd h List.not_mem_nil⟩
  | cons helper queue ih =>
    obtain ⟨hhelper, hat⟩ := List.forall_mem_cons.1 hat
    rw [List.foldlM_cons] at h
    obtain ⟨t₁, h₁, h⟩ := Option.bind_eq_some_iff.1 h
    obtain ⟨hp₁, hat₁⟩ := calculateSinkDistance_passes hg hhelper h₁
    obtain ⟨hp, hats⟩ := ih hat h
    refine ⟨(hp₁.mono fun _ _ _ h => h.elim).trans hp, fun y hy => ?_⟩
    rcases List.mem_cons.1 hy with rfl | hy
    · exact hp.grows _ _ _ hat₁
    · exact hats y hy

/-- The first calculation in a graph with loops reaches every node. -/
theorem calculateSinkDistances_right (hg : g.Wf) (hground : Grounded S g)
    (hfresh : ∀ b n, t.find .sink b n = none)
    (h : calculateSinkDistances S g fuel t = some t') : SinksRight S g t' := by
  rw [calculateSinkDistances] at h
  obtain ⟨hsame, hfrom, hto⟩ := startSink_foldl (S := S) (g := g) g.vertices.zipIdx.reverse (t, [])
  generalize g.vertices.zipIdx.reverse.foldl (startSink S g) (t, []) = start at h hsame hfrom hto
  have hat : ∀ helper ∈ byPriority start.2, ∃ nd, g.IsAt helper.node nd := by
    intro helper hmem
    rw [byPriority, List.mem_insertionSort] at hmem
    rcases hfrom helper hmem with h | ⟨x, hx, heq⟩
    · exact absurd h List.not_mem_nil
    · rw [List.mem_reverse, List.mem_zipIdx_iff_getElem?] at hx
      exact ⟨x.2, heq ▸ hg.isAt hx⟩
  obtain ⟨hp, hsinks⟩ := passes_sinks hg.placed hat h
  have hfresh' : ∀ b n, start.1.find .sink b n = none := fun b n => (hsame.1 b n).trans (hfresh b n)
  have hsettled : Rising S g (fun _ _ _ => False) t' := by
    apply hp.rising
    intro e u v _ b l hl
    rw [hfresh'] at hl
    cases hl
  have hbounded : t'.Bounded := by
    apply hp.bounded
    intro b n l hl
    rw [hfresh'] at hl
    cases hl
  refine ⟨hsettled, fun _ n hn => ?_, hbounded⟩
  obtain ⟨s, hpath, hend⟩ := hground n hn
  have hlisted : t'.AtLeast false n 0 := by
    induction hpath using Relation.ReflTransGen.head_induction_on with
    | refl =>
      obtain ⟨i, hi⟩ := List.getElem?_of_mem hn
      have hmem : ∃ x ∈ g.vertices.zipIdx.reverse, x.1 = s ∧ hasForwardOutEdge S g x.2 = false :=
        ⟨(s, i), List.mem_reverse.2 (List.mem_zipIdx_iff_getElem?.2 hi), rfl,
          (hg.hasForwardOutEdge_eq_false hi).2 hend⟩
      obtain ⟨helper, hmem, heq⟩ := hto s (.inr hmem)
      rw [← heq]
      apply hsinks
      rwa [byPriority, List.mem_insertionSort]
    | head hstep _ ih =>
      obtain ⟨e, he, hb⟩ := hstep
      obtain ⟨l, hl, _⟩ := ih he.right
      have hat := hsettled.atLeast he hl (by simp)
      rw [hb] at hat
      exact hat.mono (Nat.zero_le _)
  obtain ⟨l, hl, _⟩ := hlisted
  rw [hl]
  exact Option.some_ne_none l

/-- What the loop of `calculatePathLengthsFast` over the edges into a node does. -/
structure FastVisited (S : GraphSetup ν ε) (node : ν) (len : Nat) (xs : List (ε × Nat × ν))
    (t t' : PathLengths ν) : Prop where
  grows : Grows t t'
  bounded : t.Bounded → t'.Bounded
  height : t.height ≠ none → t'.height ≠ none
  looping : ∀ n, t'.find .sink true n = t.find .sink true n
  other : ∀ n, (∀ x ∈ xs, x.2.2 ≠ n) → t'.find .sink false n = t.find .sink false n
  passed : ∀ x ∈ xs, t'.AtLeast false x.2.2 (len + S.edgeWeight x.1 node)

theorem fastVisited_foldl (xs : List (ε × Nat × ν)) (t : PathLengths ν) :
    FastVisited S node len xs t (xs.foldl (visitInEdgeFast S node len) t) := by
  induction xs generalizing t with
  | nil =>
    exact ⟨.refl t, id, id, fun _ => rfl, fun _ _ => rfl, fun _ h => absurd h List.not_mem_nil⟩
  | cons x xs ih =>
    rw [List.foldl_cons]
    have hrest := ih (visitInEdgeFast S node len t x)
    have hstep : FastVisited S node len [x] t (visitInEdgeFast S node len t x) := by
      rw [visitInEdgeFast]
      split
      · next hshort =>
        rw [isShorter_iff] at hshort
        refine ⟨?_, Bounded.store_raiseHeight, fun _ => Option.some_ne_none _, fun n => ?_,
          fun n hn => ?_, fun y hy => ?_⟩
        · exact (grows_store fun l hl => Nat.le_of_lt (hshort l hl)).trans
            (grows_of_find fun b n => find_raiseHeight)
        · rw [find_raiseHeight, find_store, if_neg (by simp)]
        · rw [find_raiseHeight, find_store,
            if_neg fun h => hn x List.mem_cons_self h.2.2.symm]
        · rw [List.mem_singleton] at hy
          subst hy
          exact ⟨_, by rw [find_raiseHeight, find_store, if_pos ⟨rfl, rfl, rfl⟩], Nat.le_refl _⟩
      · next hlong =>
        refine ⟨.refl t, id, id, fun _ => rfl, fun _ _ => rfl, fun y hy => ?_⟩
        rw [List.mem_singleton] at hy
        subst hy
        rw [isShorter_iff] at hlong
        simp only [not_forall, Nat.not_lt] at hlong
        obtain ⟨l, hl, hle⟩ := hlong
        exact ⟨l, hl, hle⟩
    refine ⟨hstep.grows.trans hrest.grows, hrest.bounded ∘ hstep.bounded,
      hrest.height ∘ hstep.height, fun n => (hrest.looping n).trans (hstep.looping n),
      fun n hn => ?_, fun y hy => ?_⟩
    · rw [hrest.other n fun y hy => hn y (List.mem_cons_of_mem _ hy)]
      apply hstep.other
      intro y hy
      rw [List.mem_singleton] at hy
      exact hy ▸ hn x List.mem_cons_self
    · rcases List.mem_cons.1 hy with rfl | hy
      · exact hrest.grows _ _ _ (hstep.passed _ List.mem_cons_self)
      · exact hrest.passed y hy

/-- The nodes that are done have their distance, and have passed it on. -/
structure FastDone (S : GraphSetup ν ε) (g : BoostGraph ν ε) (done : List Nat) (t : PathLengths ν) :
    Prop where
  bounded : t.Bounded
  height : t.height ≠ none
  looping : ∀ n, t.find .sink true n = none
  passed : ∀ i ∈ done, ∀ v, g.vertices[i]? = some v → ∃ l, t.find .sink false v = some l ∧
    ∀ x ∈ g.inEnds i, t.AtLeast false x.2.2 (l + S.edgeWeight x.1 v)

theorem FastDone.step (h : FastDone S g done t) (hg : g.Wf) (hv : g.vertices[nd]? = some v)
    (hdone : ∀ i ∈ done, ∀ e, (e, i, nd) ∉ g.edges) (hloop : ∀ e, (e, nd, nd) ∉ g.edges) :
    FastDone S g (done ++ [nd]) ((g.inEnds nd).foldl
      (visitInEdgeFast S v (t.distance .sink false v)) (t.touch .sink false v)) := by
  have hf : FastVisited S v (t.distance .sink false v) (g.inEnds nd) (t.touch .sink false v) _ :=
    fastVisited_foldl (g.inEnds nd) (t.touch .sink false v)
  have htouch : Grows t (t.touch .sink false v) := by
    rintro b n k ⟨l, hl, hle⟩
    refine ⟨l, ?_, hle⟩
    rw [find_touch]
    split
    · next heq =>
      obtain ⟨_, rfl, rfl⟩ := heq
      rw [distance, hl, Option.getD_some]
    · exact hl
  have hkeep : ∀ i, (i ∈ done ∨ i = nd) → ∀ u, g.vertices[i]? = some u →
      ∀ x ∈ g.inEnds nd, x.2.2 ≠ u := by
    rintro i hi u hu ⟨e, td, w⟩ hx rfl
    obtain ⟨hmem, hw⟩ := mem_inEnds.1 hx
    cases hg.getElem_inj hu hw
    rcases hi with hi | rfl
    · exact hdone i hi e hmem
    · exact hloop e hmem
  refine ⟨hf.bounded ?_, hf.height (by rw [height_touch]; exact h.height), fun n => ?_,
    fun i hi u hu => ?_⟩
  · intro b n l hl
    rw [height_touch]
    rw [find_touch] at hl
    split at hl
    · next heq =>
      obtain ⟨_, rfl, rfl⟩ := heq
      cases hl
      rw [distance]
      cases hfind : t.find .sink false n with
      | none =>
        obtain ⟨k, hk⟩ := Option.ne_none_iff_exists'.1 h.height
        exact ⟨k, hk, Nat.zero_le k⟩
      | some l => exact h.bounded _ _ l hfind
    · exact h.bounded b n l hl
  · rw [hf.looping, find_touch, if_neg (by simp), h.looping]
  · rcases List.mem_append.1 hi with hi | hi
    · obtain ⟨l, hl, hpass⟩ := h.passed i hi u hu
      refine ⟨l, ?_, fun x hx => hf.grows _ _ _ (htouch _ _ _ (hpass x hx))⟩
      rw [hf.other u (hkeep i (.inl hi) u hu), find_touch]
      split
      · next heq =>
        obtain ⟨_, _, rfl⟩ := heq
        rw [distance, hl, Option.getD_some]
      · exact hl
    · rw [List.mem_singleton] at hi
      subst hi
      cases hv.symm.trans hu
      refine ⟨t.distance .sink false v, ?_, hf.passed⟩
      rw [hf.other v (hkeep i (.inr rfl) v hv), find_touch, if_pos ⟨rfl, rfl, rfl⟩]

/-- The calculation in a graph without loops, in topological order. -/
theorem calculatePathLengthsFast_right (hg : g.Wf) (horder : TopologicalOrder g order)
    (hforward : ∀ e u v, g.Joins e u v → S.isBackEdge e = false)
    (hheight : t.height ≠ none) (hfresh : ∀ b n, t.find .sink b n = none) :
    SinksRight S g (calculatePathLengthsFast S g order t) := by
  have hrun : ∀ rest done t, order = done ++ rest → FastDone S g done t →
      FastDone S g order (calculatePathLengthsFast S g rest t) := by
    intro rest
    induction rest with
    | nil =>
      intro done t heq hdone
      rw [List.append_nil] at heq
      exact heq ▸ hdone
    | cons nd rest ih =>
      intro done t heq hdone
      have hsorted := horder.sorted
      rw [heq, List.pairwise_append] at hsorted
      have hlt : nd < g.vertices.length := by
        have hmem : nd ∈ order := by simp [heq]
        exact List.mem_range.1 (horder.perm.mem_iff.1 hmem)
      rw [calculatePathLengthsFast, List.foldl_cons, List.getElem?_eq_getElem hlt]
      apply ih (done ++ [nd]) _ (by rw [heq, List.append_assoc, List.singleton_append])
      apply hdone.step hg (List.getElem?_eq_getElem hlt)
      · intro i hi
        exact hsorted.2.2 i hi nd List.mem_cons_self
      · exact fun e => horder.loopless e nd
  have hnone : FastDone S g [] t := by
    refine ⟨fun b n l hl => ?_, hheight, hfresh true, fun i hi => absurd hi List.not_mem_nil⟩
    rw [hfresh] at hl
    cases hl
  have hdone := hrun order [] t (List.nil_append _).symm hnone
  have hmem : ∀ i v, g.vertices[i]? = some v → i ∈ order := fun i v hv =>
    horder.perm.mem_iff.2 (List.mem_range.2 (List.getElem?_eq_some_iff.1 hv).1)
  refine ⟨fun e u v he b l hl _ => .inr ?_, fun _ n hn => ?_, hdone.bounded⟩
  · have hb := hforward e u v he
    cases b with
    | true =>
      rw [hdone.looping] at hl
      cases hl
    | false =>
      obtain ⟨td, hd, hedge, hu, hv⟩ := he
      obtain ⟨l', hl', hpass⟩ := hdone.passed hd (hmem hd v hv) v hv
      cases hl.symm.trans hl'
      rw [hb]
      exact hpass _ (mem_inEnds.2 ⟨hedge, hu⟩)
  · obtain ⟨i, hi⟩ := List.getElem?_of_mem hn
    obtain ⟨l, hl, _⟩ := hdone.passed i (hmem i n hi) n hi
    rw [hl]
    exact Option.some_ne_none l

/-- What the first calculation of lengths needs of the graph. -/
def Calculable (S : GraphSetup ν ε) (g : BoostGraph ν ε) : Prop :=
  if S.allowLoopEdges then Grounded S g
  else ∀ order, S.topologicalSort g = some order → TopologicalOrder g order

theorem calculatePathLengths_right (hg : g.Wf) (hcalc : Calculable S g)
    (hloops : S.allowLoopEdges = false → ∀ e u v, g.Joins e u v → S.isBackEdge e = false)
    (hfresh : ∀ b n, t.find .sink b n = none)
    (h : calculatePathLengths S g fuel t = some t') : SinksRight S g t' := by
  rw [calculatePathLengths] at h
  obtain ⟨t₁, h₁, h⟩ := Option.bind_eq_some_iff.1 h
  obtain ⟨hkeep, hheight⟩ := keepsSinks_calculateSourceDistances h₁
  have hfresh₁ : ∀ b n, t₁.find .sink b n = none := fun b n => (hkeep.find b n).trans (hfresh b n)
  rw [Calculable] at hcalc
  split at h
  · next hallow =>
    rw [if_pos hallow] at hcalc
    exact calculateSinkDistances_right hg hcalc hfresh₁ h
  · next hallow =>
    rw [if_neg hallow] at hcalc
    obtain ⟨order, horder, rfl⟩ := Option.map_eq_some_iff.1 h
    exact calculatePathLengthsFast_right hg (hcalc order horder)
      (hloops (Bool.eq_false_of_not_eq_true hallow)) hheight hfresh₁

end BoostGraph

end OpenAsip
