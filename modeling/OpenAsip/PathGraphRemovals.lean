import OpenAsip.BoostGraphSwaps
import OpenAsip.PathGraphUpdates

namespace OpenAsip
set_option autoImplicit true

namespace BoostGraph
open PathLengths
variable {ν ε : Type} [DecidableEq ν] {S : GraphSetup ν ε} {g : BoostGraph ν ε}
  {t t' : PathLengths ν} {n : ν} {fuel : Nat}

theorem grows_touch (t : PathLengths ν) (b : Bool) (n : ν) : Grows t (t.touch .sink b n) := by
  rintro b' n' k ⟨l, hl, hle⟩
  refine ⟨l, ?_, hle⟩
  rw [find_touch]
  split
  · next heq =>
    obtain ⟨_, rfl, rfl⟩ := heq
    rw [distance, hl, Option.getD_some]
  · exact hl

/-- A zero that is stored for a node without a path through a back edge. -/
theorem SinksRight.touch_looping (hs : SinksRight S g t) (hheight : t.height ≠ none) (n : ν) :
    SinksRight S g (t.touch .sink true n) := by
  have hfind : ∀ b m l, (t.touch .sink true n).find .sink b m = some l →
      t.find .sink b m = some l ∨ b = true ∧ l = 0 := by
    intro b m l hl
    rw [find_touch] at hl
    split at hl
    · next heq =>
      obtain ⟨_, rfl, rfl⟩ := heq
      cases hl
      rw [distance]
      cases hf : t.find .sink true m with
      | none => exact .inr ⟨rfl, rfl⟩
      | some l => exact .inl rfl
    · exact .inl hl
  refine ⟨fun e u v he b l hl hpos => ?_, fun _ m hm => ?_, fun b m l hl => ?_⟩
  · rcases hfind b v l hl with hold | ⟨rfl, rfl⟩
    · exact .inr (grows_touch t true n _ u _ (hs.settled.atLeast he hold hpos))
    · exact absurd (hpos rfl).2 (Nat.lt_irrefl 0)
  · obtain ⟨l, hl⟩ := Option.ne_none_iff_exists'.1 (hs.listed hheight m hm)
    obtain ⟨l', hl', _⟩ := grows_touch t true n false m l ⟨l, hl, Nat.le_refl l⟩
    rw [hl']
    exact Option.some_ne_none l'
  · rw [height_touch]
    rcases hfind b m l hl with hold | ⟨_, rfl⟩
    · exact hs.bounded b m l hold
    · obtain ⟨k, hk⟩ := Option.ne_none_iff_exists'.1 hheight
      exact ⟨k, hk, Nat.zero_le k⟩

theorem sameSinks_wasLongest (t : PathLengths ν) (near far : ν) (maxW maxwLoop : Nat) :
    SameSinks t (t.wasLongest .source near far maxW maxwLoop).1 := by
  rw [wasLongest]
  have hfirst := (sameSinks_touch_source t false near).trans (sameSinks_touch_source _ false far)
  dsimp only
  split
  · exact hfirst
  · split
    · exact hfirst
    · exact (hfirst.trans (sameSinks_touch_source _ true near)).trans
        (sameSinks_touch_source _ true far)

theorem SinksRight.wasLongest (hs : SinksRight S g t) (hheight : t.height ≠ none)
    (hnear : near ∈ g.nodes) (hfar : far ∈ g.nodes) (maxW maxwLoop : Nat) :
    SinksRight S g (t.wasLongest .sink near far maxW maxwLoop).1 ∧
      (t.wasLongest .sink near far maxW maxwLoop).1.height = t.height := by
  have hsame : SameSinks t (t.touch .sink false near) :=
    sameSinks_touch_sink (hs.listed hheight near hnear)
  have hsame' : SameSinks t ((t.touch .sink false near).touch .sink false far) := by
    apply hsame.trans (sameSinks_touch_sink _)
    rw [hsame.1]
    exact hs.listed hheight far hfar
  have hs' := hs.of_same hsame'
  rw [PathLengths.wasLongest]
  dsimp only
  split
  · exact ⟨hs', hsame'.2⟩
  · split
    · exact ⟨hs', hsame'.2⟩
    · have hne : ((t.touch .sink false near).touch .sink false far).height ≠ none := by
        rwa [hsame'.2]
      refine ⟨(hs'.touch_looping hne near).touch_looping (by rwa [height_touch]) far, ?_⟩
      rw [height_touch, height_touch, hsame'.2]

/-- Lengths that get shorter are the same in a graph with a last vertex that has no edges. -/
theorem distDecreased_congr {g' : BoostGraph ν ε} (hin : ∀ nd, g.inEnds nd = g'.inEnds nd)
    (hout : ∀ nd, g.outEnds nd = g'.outEnds nd)
    (hdesc : ∀ n ∈ g'.nodes, g.descriptor n = g'.descriptor n) (side : PathEnd)
    (hn : n ∈ g'.nodes) : distDecreased S g side fuel n t = distDecreased S g' side fuel n t := by
  have hahead : ∀ nd, g.endsAhead side nd = g'.endsAhead side nd := by
    intro nd
    cases side with
    | source => exact hin nd
    | sink => exact hout nd
  have hbehind : ∀ nd, g.endsBehind side nd = g'.endsBehind side nd := by
    intro nd
    cases side with
    | source => exact hout nd
    | sink => exact hin nd
  have hnodes : ∀ nd, ∀ x ∈ g'.endsBehind side nd, x.2.2 ∈ g'.nodes := by
    intro nd x hx
    cases side with
    | source => exact mem_nodes_of_mem_outEnds hx
    | sink => exact mem_nodes_of_mem_inEnds hx
  induction fuel generalizing n t with
  | zero => rfl
  | succ fuel ih =>
    have hstep : ∀ (l : List (ε × Nat × ν)) (sd oldSD : Nat) (t : PathLengths ν),
        (∀ x ∈ l, x.2.2 ∈ g'.nodes) →
        l.foldlM (fun t x => if !S.isBackEdge x.1 || sd < oldSD then
          distDecreased S g side fuel x.2.2 t else some t) t =
        l.foldlM (fun t x => if !S.isBackEdge x.1 || sd < oldSD then
          distDecreased S g' side fuel x.2.2 t else some t) t := by
      intro l sd oldSD t hl
      induction l generalizing t with
      | nil => rfl
      | cons x l ihl =>
        obtain ⟨hx, hl⟩ := List.forall_mem_cons.1 hl
        rw [List.foldlM_cons, List.foldlM_cons, ih hx]
        congr 1
        funext t'
        exact ihl t' hl
    rw [distDecreased, distDecreased]
    split
    · rfl
    · dsimp only
      rw [hdesc n hn]
      cases g'.descriptor n with
      | none => rfl
      | some nd => simp only [Option.bind_eq_bind, Option.bind_some, hahead, hbehind,
          hstep _ _ _ _ (hnodes nd)]

end BoostGraph

namespace PathGraph
open PathLengths BoostGraph
variable {ν ε : Type} [DecidableEq ν] [DecidableEq ε] {S : GraphSetup ν ε} {fuel : Nat}
  {p p' : PathGraph ν ε}

omit [DecidableEq ν] in
theorem removeEdge_eq (p : PathGraph ν ε) (e : ε) : (p.removeEdge e).lengths = p.lengths ∧
    (p.removeEdge e).graph.nodes = p.graph.nodes := by
  rw [removeEdge]
  split
  · exact ⟨rfl, rfl⟩
  · exact ⟨rfl, rfl⟩

theorem Right.removeEdges (hp : Right S p) (es : List ε) :
    Right S (es.foldl (fun p e => p.removeEdge e) p) ∧
      (es.foldl (fun p e => p.removeEdge e) p).graph.nodes = p.graph.nodes := by
  induction es generalizing p with
  | nil => exact ⟨hp, rfl⟩
  | cons e es ih =>
    rw [List.foldl_cons]
    obtain ⟨hr, hnodes⟩ := ih (hp.removeEdge e)
    exact ⟨hr, hnodes.trans (removeEdge_eq p e).2⟩

theorem Right.disconnectNodes (hp : Right S p)
    (h : p.disconnectNodes S fuel nTail nHead = some p') : Right S p' := by
  rw [PathGraph.disconnectNodes] at h
  obtain ⟨td, htd, h⟩ := Option.bind_eq_some_iff.1 h
  obtain ⟨hd, hhd, h⟩ := Option.bind_eq_some_iff.1 h
  dsimp only at h
  obtain ⟨hq, hnodes⟩ := hp.removeEdges
    ((p.graph.edges.filter fun x => decide (x.2 = (td, hd))).map Prod.fst)
  generalize ((p.graph.edges.filter fun x => decide (x.2 = (td, hd))).map Prod.fst).foldl
    (fun p e => p.removeEdge e) p = q at h hq hnodes
  have htail : nTail ∈ q.graph.nodes :=
    hnodes ▸ List.mem_of_getElem? (hp.wf.descriptor_eq_some_iff.1 htd)
  have hhead : nHead ∈ q.graph.nodes :=
    hnodes ▸ List.mem_of_getElem? (hp.wf.descriptor_eq_some_iff.1 hhd)
  split at h
  · cases h
    exact hq
  · next hheight =>
    rw [Option.isNone_iff_eq_none] at hheight
    obtain ⟨t₁, h₁, h⟩ := Option.bind_eq_some_iff.1 h
    obtain ⟨t₂, h₂, h⟩ := Option.bind_eq_some_iff.1 h
    cases h
    have hsame : SameSinks q.lengths t₁ := by
      have hlongest := sameSinks_wasLongest q.lengths nTail nHead
      rw [callIf] at h₁
      split at h₁
      · exact (hlongest _ _).trans (sameSinks_sourceDistDecreased h₁)
      · cases h₁
        exact hlongest _ _
    have hs₁ := hq.sinks.of_same hsame
    have hne : t₁.height ≠ none := by rwa [hsame.2]
    refine ⟨hq.wf, ?_, hq.loops⟩
    change SinksRight S q.graph t₂
    split at h₂
    · cases h₂
      exact hs₁
    · have hs₂ := (hs₁.wasLongest hne hhead htail
        (maxWeights S nHead ((p.graph.edges.filter fun x => decide (x.2 = (td, hd))).map
          Prod.fst)).1
        (maxWeights S nHead ((p.graph.edges.filter fun x => decide (x.2 = (td, hd))).map
          Prod.fst)).2).1
      rw [callIf] at h₂
      split at h₂
      · obtain ⟨i, hi⟩ := List.getElem?_of_mem hhead
        exact (hs₂.sinkDistDecreased hq.wf.placed ⟨i, hq.wf.isAt hi⟩ h₂).1
      · cases h₂
        exact hs₂

/-- The graph before its last vertex goes, and the graph after. -/
theorem withLastMoved_replaced {g gm : BoostGraph ν ε} (hg : g.Wf)
    (h : g.withLastMoved dest = some (gm, lastNode, nd)) :
    g.vertices[nd]? = some dest ∧ g.vertices.getLast? = some lastNode ∧
      Replaced g (gm.removeLast dest lastNode nd) dest lastNode nd ∧
      gm.nodeDescriptors = (if dest = lastNode then g.nodeDescriptors
        else Function.update g.nodeDescriptors lastNode (some nd)) := by
  rw [withLastMoved] at h
  obtain ⟨nd', hnd', h⟩ := Option.bind_eq_some_iff.1 h
  obtain ⟨lastNode', hlast, h⟩ := Option.bind_eq_some_iff.1 h
  cases h
  have hnd := hg.descriptor_eq_some_iff.1 hnd'
  refine ⟨hnd, hlast, ?_, ?_⟩
  · split
    · next heq =>
      subst heq
      exact hg.replaced_last hnd hlast
    · exact hg.replaced_moveLast hnd hlast
  · split
    · rfl
    · obtain ⟨edges, eds, heq⟩ := moveLast_eq ((g.clearDescriptorCache (g.inEdges dest ++
        g.outEdges dest)).clearVertex nd) nd lastNode
      rw [heq]
      rfl

omit [DecidableEq ε] in
theorem mem_nodeSet {l : List ν} : n ∈ nodeSet S l ↔ n ∈ l := by
  have hfold : ∀ (l s : List ν), n ∈ l.foldl (fun s n =>
      if n ∈ s then s else s.orderedInsert (fun a b => S.comparator a b = true) n) s ↔
      n ∈ s ∨ n ∈ l := by
    intro l
    induction l with
    | nil => simp
    | cons m l ih =>
      intro s
      rw [List.foldl_cons, ih, List.mem_cons]
      split
      · next hm =>
        constructor
        · rintro (h | h)
          · exact .inl h
          · exact .inr (.inr h)
        · rintro (h | rfl | h)
          · exact .inl h
          · exact .inl hm
          · exact .inr h
      · rw [List.mem_orderedInsert, or_comm (a := n = m), or_assoc]
  rw [nodeSet, hfold]
  simp

omit [DecidableEq ε] in
theorem idxOf?_dropLast {l : List ν} (hn : n ∈ l.dropLast) : l.idxOf? n = l.dropLast.idxOf? n := by
  have hne : l ≠ [] := by
    rintro rfl
    exact absurd hn List.not_mem_nil
  have happend : (l.dropLast ++ [l.getLast hne]).findIdx? (fun m => m == n) = _ :=
    List.findIdx?_append
  rw [List.dropLast_concat_getLast hne] at happend
  obtain ⟨i, hi⟩ := Option.isSome_iff_exists.1 (List.isSome_idxOf?.2 hn)
  rw [hi]
  rw [List.idxOf?] at hi ⊢
  rw [happend, hi, Option.some_or]

/-- The last vertex has no edges, so that the others have the edges and the places of the graph
without it. -/
theorem withLastMoved_agrees {g gm : BoostGraph ν ε} (hg : g.Wf)
    (h : g.withLastMoved dest = some (gm, lastNode, nd)) :
    (∀ i, gm.inEnds i = (gm.removeLast dest lastNode nd).inEnds i) ∧
      (∀ i, gm.outEnds i = (gm.removeLast dest lastNode nd).outEnds i) ∧
      ∀ n ∈ (gm.removeLast dest lastNode nd).nodes,
        gm.descriptor n = (gm.removeLast dest lastNode nd).descriptor n := by
  obtain ⟨hnd, hlast, hr, hcache⟩ := withLastMoved_replaced hg h
  have hwf := hg.replaced hnd hlast hr
  have hget : ∀ i, i < (gm.removeLast dest lastNode nd).vertices.length →
      gm.vertices[i]? = (gm.removeLast dest lastNode nd).vertices[i]? := by
    intro i hi
    have hi' : i < gm.vertices.length - 1 := by
      rwa [removeLast, List.length_dropLast] at hi
    rw [removeLast, List.getElem?_dropLast, if_pos hi']
  refine ⟨fun i => ?_, fun i => ?_, fun n hn => ?_⟩
  · apply List.filterMap_congr
    rintro ⟨e, td, hd⟩ hmem
    rw [hget td (hwf.ends hmem).1]
  · apply List.filterMap_congr
    rintro ⟨e, td, hd⟩ hmem
    rw [hget hd (hwf.ends hmem).2]
  · have hne : n ≠ dest := by
      rw [hg.nodes_replaced hnd hlast hr] at hn
      exact hn.2
    have hcached : (gm.removeLast dest lastNode nd).nodeDescriptors n = gm.nodeDescriptors n := by
      change Function.update (Function.update gm.nodeDescriptors lastNode (some nd)) dest none n = _
      rw [Function.update_of_ne hne, Function.update_apply]
      split
      · next hl =>
        rw [hcache, if_neg fun heq => hne (hl.trans heq.symm), hl, Function.update_self]
      · rfl
    rw [descriptor, descriptor, hcached]
    split
    · rfl
    · exact idxOf?_dropLast hn

omit [DecidableEq ε] in
/-- A node that has left the graph has no distance that could get shorter. -/
theorem sinkDistDecreased_stray {gm g' : BoostGraph ν ε} {t t' : PathLengths ν}
    (hs : SinksRight S g' t) (hout : ∀ i, gm.outEnds i = g'.outEnds i) (hdest : dest ∉ g'.nodes)
    (hzero : ∀ b, t.distance .sink b dest = 0)
    (h : sinkDistDecreased S gm fuel dest t = some t') :
    SinksRight S g' t' ∧ t'.height = t.height ∧ ∀ b, t'.distance .sink b dest = 0 := by
  cases fuel with
  | zero => cases h
  | succ fuel =>
    rw [sinkDistDecreased, distDecreased] at h
    split at h
    · cases h
      exact ⟨hs, rfl, hzero⟩
    · next hheight =>
      rw [Option.isNone_iff_eq_none] at hheight
      obtain ⟨nd, _, h⟩ := Option.bind_eq_some_iff.1 h
      have hdist : ∀ b, (t.touch .sink false dest).distance .sink b dest = 0 := by
        intro b
        rw [distance, find_touch]
        split
        · exact hzero false
        · exact hzero b
      have htouch : SinksRight S g' (t.touch .sink false dest) := by
        apply hs.restrict (fun _ _ _ he => he) (fun _ hn => hn) _ height_touch
        · intro b n l hl
          rw [height_touch]
          rw [find_touch] at hl
          split at hl
          · cases hl
            obtain ⟨k, hk⟩ := Option.ne_none_iff_exists'.1 hheight
            exact ⟨k, hk, hzero false ▸ Nat.zero_le k⟩
          · exact hs.bounded b n l hl
        · intro b n hn
          rw [find_touch, if_neg]
          rintro ⟨_, _, rfl⟩
          exact hdest hn
      dsimp only [endsAhead] at h
      rw [hdist, hzero, if_neg (by simp), hout] at h
      cases h
      have hfold : SameSinks (t.touch .sink false dest) ((g'.outEnds nd).foldl
          (lookAhead S .sink dest) (t.touch .sink false dest, 0, 0)).1 := by
        apply sameSinks_foldl Prod.fst
        · intro x hx acc hacc
          rw [lookAhead_fst]
          apply sameSinks_touch_sink
          rw [hacc.1]
          exact htouch.listed (by rwa [height_touch]) _ (mem_nodes_of_mem_outEnds hx)
        · exact .refl _
      refine ⟨htouch.of_same hfold, hfold.2.trans height_touch, fun b => ?_⟩
      rw [distance, hfold.1]
      exact hdist b

theorem Right.replaceNodeWithLastNode (hp : Right S p)
    (h : p.replaceNodeWithLastNode S fuel dest = some p') : Right S p' := by
  rw [PathGraph.replaceNodeWithLastNode] at h
  obtain ⟨succs, _, h⟩ := Option.bind_eq_some_iff.1 h
  obtain ⟨preds, hpreds, h⟩ := Option.bind_eq_some_iff.1 h
  obtain ⟨⟨gm, lastNode, nd⟩, hgm, h⟩ := Option.bind_eq_some_iff.1 h
  obtain ⟨t₁, h₁, h⟩ := Option.bind_eq_some_iff.1 h
  obtain ⟨t₂, h₂, h⟩ := Option.bind_eq_some_iff.1 h
  cases h
  have hwf : (p.graph.cacheNode dest).Wf := hp.wf.cacheNode
  obtain ⟨hnd, hlast, hr, _⟩ := withLastMoved_replaced hwf hgm
  obtain ⟨hin, hout, hdesc⟩ := withLastMoved_agrees hwf hgm
  have hwf' := hwf.replaced hnd hlast hr
  have hnodes : (gm.removeLast dest lastNode nd).nodes = {n ∈ p.graph.nodes | n ≠ dest} :=
    hwf.nodes_replaced hnd hlast hr
  have hdest : dest ∉ (gm.removeLast dest lastNode nd).nodes := by
    rw [hnodes]
    exact fun hmem => hmem.2 rfl
  refine ⟨hwf', ?_, fun hl e u v he => hp.loops hl e u v
    ((hwf.joins_replaced hnd hlast hr).1 he).1⟩
  change SinksRight S (gm.removeLast dest lastNode nd) t₂
  generalize gm.removeLast dest lastNode nd = g' at *
  have herased : SinksRight S g' (p.lengths.eraseNode dest) := by
    apply hp.sinks.restrict
    · intro e u v he
      exact ((hwf.joins_replaced hnd hlast hr).1 he).1
    · intro n hn
      rw [hnodes] at hn
      exact hn.1
    · intro b n hn
      rw [hnodes] at hn
      exact find_eraseNode hn.2
    · exact height_eraseNode
    · intro b n l hl
      rw [height_eraseNode]
      by_cases hne : n = dest
      · subst hne
        by_cases hheight : p.lengths.height = none
        · rw [eraseNode, hheight, Option.isSome_none, if_neg (by simp)] at hl
          exact hheight ▸ hp.sinks.bounded b n l hl
        · rw [find_eraseNode_self hheight] at hl
          cases hl
      · rw [find_eraseNode hne] at hl
        exact hp.sinks.bounded b n l hl
  have hzero : ∀ b, (p.lengths.eraseNode dest).distance .sink b dest = 0 := by
    intro b
    rw [distance]
    by_cases hheight : p.lengths.height = none
    · rw [eraseNode, hheight, Option.isSome_none, if_neg (by simp),
        find_eq_none_of_bounded hp.sinks.bounded hheight, Option.getD_none]
    · rw [find_eraseNode_self hheight, Option.getD_none]
  have hsame : SameSinks (p.lengths.eraseNode dest) t₁ := by
    apply Option.foldlM_invariant (SameSinks (p.lengths.eraseNode dest)) _ (.refl _) h₁
    intro n _ s s' hs hcall
    exact hs.trans (sameSinks_sourceDistDecreased hcall)
  have hinit : SinksRight S g' t₁ ∧ ∀ b, t₁.distance .sink b dest = 0 := by
    refine ⟨herased.of_same hsame, fun b => ?_⟩
    rw [distance, hsame.1]
    exact hzero b
  refine (Option.foldlM_invariant (fun s => SinksRight S g' s ∧
    ∀ b, s.distance .sink b dest = 0) ?_ hinit h₂).1
  rintro n hn s s' ⟨hs, hz⟩ hcall
  by_cases hne : n = dest
  · subst hne
    obtain ⟨hs', _, hz'⟩ := sinkDistDecreased_stray hs hout hdest hz hcall
    exact ⟨hs', hz'⟩
  · have hmem : n ∈ g'.nodes := by
      obtain ⟨nd', _, rfl⟩ := Option.map_eq_some_iff.1 hpreds
      obtain ⟨x, hx, rfl⟩ := List.mem_map.1 (mem_nodeSet.1 hn)
      rw [hnodes]
      exact ⟨mem_nodes_of_mem_inEnds hx, hne⟩
    obtain ⟨i, hi⟩ := List.getElem?_of_mem hmem
    rw [sinkDistDecreased, distDecreased_congr hin hout hdesc .sink hmem] at hcall
    obtain ⟨hs', _, hkeep⟩ := hs.sinkDistDecreased hwf'.placed ⟨i, hwf'.isAt hi⟩ hcall
    refine ⟨hs', fun b => ?_⟩
    rw [distance, hkeep b dest hdest]
    exact hz b

theorem Right.removeNode (hp : Right S p) (h : p.removeNode S fuel n = some p') : Right S p' := by
  rw [PathGraph.removeNode] at h
  split at h
  · exact hp.replaceNodeWithLastNode h
  · split at h
    · cases h
      exact hp
    · cases h

theorem Right.dropNode (hp : Right S p) (h : p.dropNode S fuel n = some p') : Right S p' := by
  rw [PathGraph.dropNode] at h
  split at h
  · exact hp.replaceNodeWithLastNode h
  · cases h
    exact hp

end PathGraph

end OpenAsip
