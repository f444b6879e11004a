import OpenAsip.SubGraphAnswers
import Mathlib.Data.List.InsertIdx

namespace OpenAsip
set_option autoImplicit true

namespace BoostGraph
open ViewTree
variable {ν ε : Type} [DecidableEq ν] [DecidableEq ε]

/-- `connectNodes` in a graph that has no parent for the time being. It goes on to the subgraphs. -/
def connectRestored (isBackEdge : ε → Bool) (nTail nHead : ν) (e : ε)
    (t : ViewTree (BoostGraph ν ε)) : Option (ViewTree (BoostGraph ν ε)) :=
  (t.view.connectCreating isBackEdge nTail nHead e).bind fun g =>
    (downAll (connectNodes nTail nHead e) t.parts).map fun parts => .node g parts

/-- The body of the loop of `restoreNodeFromParent` over the edges that leave the node. -/
def restoreOutEdge (isBackEdge : ε → Bool) (parent : BoostGraph ν ε) (n : ν)
    (t : ViewTree (BoostGraph ν ε)) (e : ε) : Option (ViewTree (BoostGraph ν ε)) :=
  (parent.headNode e).bind fun head =>
    if t.view.hasNode head then connectRestored isBackEdge n head e t else some t

/-- The body of the loop over the edges that get to the node, without those that have been seen. -/
def restoreInEdge (isBackEdge : ε → Bool) (parent : BoostGraph ν ε) (n : ν)
    (t : ViewTree (BoostGraph ν ε)) (e : ε) : Option (ViewTree (BoostGraph ν ε)) :=
  (parent.tailNode e).bind fun tail =>
    if t.view.hasNode tail && tail ≠ n then connectRestored isBackEdge tail n e t else some t

/-- A node that has been dropped is taken back from the parent with the edges to the nodes that the
graph has. -/
def restoreNodeFromParent (isBackEdge : ε → Bool) (parent : BoostGraph ν ε) (n : ν)
    (t : ViewTree (BoostGraph ν ε)) : Option (ViewTree (BoostGraph ν ε)) :=
  (parent.descriptor n).bind fun _ =>
    ((parent.outEdges n).foldlM (restoreOutEdge isBackEdge parent n)
      (.node (t.view.addNode n) t.parts)).bind fun t =>
        (parent.inEdges n).foldlM (restoreInEdge isBackEdge parent n) t

section
variable {t t' : ViewTree (BoostGraph ν ε)} {isBackEdge : ε → Bool} {J : ε → ν → ν → Prop}
  {parent g : BoostGraph ν ε} {n : ν} {N : Set ν}

/-- A graph that is being restored, in which the node is in none of the parts. -/
structure Restoring (n : ν) (N : Set ν) (below : List (ViewTree (BoostGraph ν ε))) (p : Bool)
    (t : ViewTree (BoostGraph ν ε)) : Prop where
  wf : t.view.Wf
  nodes : t.view.nodes = N
  parts : t.parts = below
  hasParent : t.view.hasParent = p
  fresh : ∀ c ∈ below, c.view.Wf ∧ c.view.hasParent = true ∧ n ∉ c.view.nodes

omit [DecidableEq ε] in
theorem Restoring.hasNode_iff (ht : Restoring n N below p t) (m : ν) :
    t.view.hasNode m = true ↔ m ∈ N := by
  rw [ht.wf.hasNode_iff, ht.nodes]

theorem downAll_leave {f : α → Visit α} {ts : List (ViewTree α)}
    (h : ∀ t ∈ ts, f t.view = .leave) : downAll f ts = some ts := by
  induction ts with
  | nil => rfl
  | cons t ts ih =>
    obtain ⟨ht, hts⟩ := List.forall_mem_cons.1 h
    have hdown : down f t = some t := by
      cases t with
      | node a parts =>
        rw [view_node] at ht
        simp only [down, ht]
    rw [downAll, hdown, Option.bind_some, ih hts, Option.map_some]

/-- One edge at the node is put into the graph, and into none of its parts. -/
theorem Restoring.connect (ht : Restoring n N below p t) (hu : u ∈ N) (hv : v ∈ N)
    (hend : u = n ∨ v = n) (hnew : ∀ ed, (e, ed) ∉ t.view.edges)
    (hback : u = v → isBackEdge e = true) :
    ∃ t', connectRestored isBackEdge u v e t = some t' ∧ Restoring n N below p t' ∧
      (∀ e', e' ≠ e → ∀ ed, (e', ed) ∈ t'.view.edges → (e', ed) ∈ t.view.edges) ∧
      ∀ e' u' v', t'.view.Joins e' u' v' ↔ t.view.Joins e' u' v' ∨ e' = e ∧ u' = u ∧ v' = v := by
  obtain ⟨g', hg', hwf, hparent, hnodes, hedges, hjoins⟩ := ht.wf.connectCreating
    (by rwa [ht.nodes]) (by rwa [ht.nodes]) hnew hback
  have hparts : downAll (connectNodes u v e) t.parts = some t.parts := by
    apply downAll_leave
    intro c hc
    obtain ⟨hcwf, hcparent, hcn⟩ := ht.fresh c (ht.parts ▸ hc)
    apply hcwf.connectNodes_leave ?_ hcparent
    rintro ⟨hu', hv'⟩
    rcases hend with rfl | rfl
    · exact hcn hu'
    · exact hcn hv'
  refine ⟨.node g' t.parts, ?_, ⟨hwf, hnodes.trans ht.nodes, ht.parts, hparent.trans ht.hasParent,
    ht.fresh⟩, hedges, hjoins⟩
  rw [connectRestored, hg', Option.bind_some, hparts, Option.map_some]

/-- A loop over edges at the node that the graph does not have yet. The body puts in those between
nodes of the graph that it is to put in. -/
theorem Restoring.loop {F : ViewTree (BoostGraph ν ε) → ε → Option (ViewTree (BoostGraph ν ε))}
    {C : ε → Prop} {es : List ε} (ht : Restoring n N below p t) (hes : es.Nodup)
    (hinj : ∀ e u v u' v', J e u v → J e u' v' → u = u' ∧ v = v')
    (hbody : ∀ e ∈ es, ∃ u v, J e u v ∧ (u = n ∨ v = n) ∧ (C e → u = v → isBackEdge e = true) ∧
      ∀ t, Restoring n N below p t →
        (C e ∧ u ∈ N ∧ v ∈ N → F t e = connectRestored isBackEdge u v e t) ∧
        (¬(C e ∧ u ∈ N ∧ v ∈ N) → F t e = some t))
    (hnew : ∀ e ∈ es, C e → ∀ ed, (e, ed) ∉ t.view.edges) :
    ∃ t', es.foldlM F t = some t' ∧ Restoring n N below p t' ∧
      ∀ e u v, t'.view.Joins e u v ↔
        t.view.Joins e u v ∨ e ∈ es ∧ C e ∧ J e u v ∧ u ∈ N ∧ v ∈ N := by
  induction es generalizing t with
  | nil => exact ⟨t, rfl, ht, fun e u v => by simp⟩
  | cons e es ih =>
    obtain ⟨hnot, hes⟩ := List.nodup_cons.1 hes
    obtain ⟨hbody₁, hbodies⟩ := List.forall_mem_cons.1 hbody
    obtain ⟨hnew₁, hnews⟩ := List.forall_mem_cons.1 hnew
    obtain ⟨u, v, hJ, hend, hback, hstep⟩ := hbody₁
    obtain ⟨hput, hkeep⟩ := hstep t ht
    rw [List.foldlM_cons]
    by_cases hC : C e ∧ u ∈ N ∧ v ∈ N
    · obtain ⟨t₁, ht₁, hr₁, hedges₁, hj₁⟩ := ht.connect hC.2.1 hC.2.2 hend (hnew₁ hC.1)
        (hback hC.1)
      have hnews₁ : ∀ e' ∈ es, C e' → ∀ ed, (e', ed) ∉ t₁.view.edges := by
        intro e' he' hC' ed hmem
        have hne : e' ≠ e := fun heq => hnot (heq ▸ he')
        exact hnews e' he' hC' ed (hedges₁ e' hne ed hmem)
      obtain ⟨t', ht', hr', hj'⟩ := ih hr₁ hes hbodies hnews₁
      refine ⟨t', ?_, hr', fun e' u' v' => ?_⟩
      · rw [hput hC, ht₁]
        exact ht'
      · rw [hj', hj₁, List.mem_cons]
        constructor
        · rintro ((h | ⟨rfl, rfl, rfl⟩) | ⟨h, h'⟩)
          · exact .inl h
          · exact .inr ⟨.inl rfl, hC.1, hJ, hC.2⟩
          · exact .inr ⟨.inr h, h'⟩
        · rintro (h | ⟨rfl | h, hC', hJ', h'⟩)
          · exact .inl (.inl h)
          · obtain ⟨rfl, rfl⟩ := hinj _ _ _ _ _ hJ' hJ
            exact .inl (.inr ⟨rfl, rfl, rfl⟩)
          · exact .inr ⟨h, hC', hJ', h'⟩
    · obtain ⟨t', ht', hr', hj'⟩ := ih ht hes hbodies hnews
      refine ⟨t', ?_, hr', fun e' u' v' => ?_⟩
      · rw [hkeep hC]
        exact ht'
      · rw [hj', List.mem_cons]
        constructor
        · rintro (h | ⟨h, h'⟩)
          · exact .inl h
          · exact .inr ⟨.inr h, h'⟩
        · rintro (h | ⟨rfl | h, hC', hJ', h'⟩)
          · exact .inl h
          · obtain ⟨rfl, rfl⟩ := hinj _ _ _ _ _ hJ' hJ
            exact absurd ⟨hC', h'⟩ hC
          · exact .inr ⟨h, hC', hJ', h'⟩

/-- The restored graph is again the one that its nodes induce. -/
theorem Shows.restoreNodeFromParent (hp : Shows J parent) (hg : Shows J t.view)
    (hfresh : ∀ c ∈ t.parts, c.view.Wf ∧ c.view.hasParent = true ∧ n ∉ c.view.nodes)
    (hn : n ∈ parent.nodes) (hnot : n ∉ t.view.nodes) (hsub : t.view.nodes ⊆ parent.nodes)
    (hinj : ∀ e u v u' v', J e u v → J e u' v' → u = u' ∧ v = v')
    (hback : ∀ e, J e n n → isBackEdge e = true) :
    ∃ g, BoostGraph.restoreNodeFromParent isBackEdge parent n t = some (.node g t.parts) ∧
      Shows J g ∧ g.nodes = insert n t.view.nodes ∧ g.hasParent = t.view.hasParent := by
  obtain ⟨nd, hnd⟩ := hp.wf.exists_descriptor hn
  have hself : n ∈ insert n t.view.nodes := Set.mem_insert _ _
  have h₀ : Restoring n (insert n t.view.nodes) t.parts t.view.hasParent
      (.node (t.view.addNode n) t.parts) :=
    ⟨hg.wf.addNode hnot, nodes_addNode, rfl, rfl, hfresh⟩
  -- the edges of the graph before are those between its own nodes
  have hold : ∀ e u v ed, J e u v → u = n ∨ v = n → (e, ed) ∉ (t.view.addNode n).edges := by
    intro e u v ed hJ hend hmem
    obtain ⟨u', v', hj⟩ := hg.wf.exists_joins hmem
    obtain ⟨hJ', hu', hv'⟩ := (hg.joins e u' v').1 hj
    obtain ⟨rfl, rfl⟩ := hinj _ _ _ _ _ hJ hJ'
    rcases hend with rfl | rfl
    · exact hnot hu'
    · exact hnot hv'
  have hout : ∀ e, e ∈ parent.outEdges n ↔ ∃ v, J e n v ∧ v ∈ parent.nodes := by
    intro e
    rw [hp.wf.mem_outEdges_iff]
    apply exists_congr
    intro v
    rw [hp.joins]
    exact ⟨fun h => ⟨h.1, h.2.2⟩, fun h => ⟨h.1, hn, h.2⟩⟩
  have hin : ∀ e, e ∈ parent.inEdges n ↔ ∃ u, J e u n ∧ u ∈ parent.nodes := by
    intro e
    rw [hp.wf.mem_inEdges_iff]
    apply exists_congr
    intro u
    rw [hp.joins]
    exact ⟨fun h => ⟨h.1, h.2.1⟩, fun h => ⟨h.1, h.2, hn⟩⟩
  obtain ⟨t₁, ht₁, hr₁, hj₁⟩ := h₀.loop (C := fun _ => True)
      (F := restoreOutEdge isBackEdge parent n) (hp.wf.nodup_outEdges n) hinj (by
    intro e he
    obtain ⟨v, hJ, hv⟩ := (hout e).1 he
    refine ⟨n, v, hJ, .inl rfl, fun _ heq => hback e (heq ▸ hJ), fun t' ht' => ?_⟩
    have hhead : parent.headNode e = some v :=
      hp.wf.headNode_eq_some_iff.2 ⟨n, (hp.joins e n v).2 ⟨hJ, hn, hv⟩⟩
    have hnode := ht'.hasNode_iff v
    rw [restoreOutEdge, hhead, Option.bind_some]
    exact ⟨fun h => if_pos (hnode.2 h.2.2),
      fun h => if_neg fun hv => h ⟨trivial, hself, hnode.1 hv⟩⟩)
    (fun e he _ ed => by
      obtain ⟨v, hJ, _⟩ := (hout e).1 he
      exact hold e n v ed hJ (.inl rfl))
  obtain ⟨t₂, ht₂, hr₂, hj₂⟩ := hr₁.loop (C := fun e => ¬J e n n)
      (F := restoreInEdge isBackEdge parent n) (hp.wf.nodup_inEdges n) hinj (by
    intro e he
    obtain ⟨u, hJ, hu⟩ := (hin e).1 he
    refine ⟨u, n, hJ, .inr rfl, fun hC heq => absurd (heq ▸ hJ) hC, fun t' ht' => ?_⟩
    have htail : parent.tailNode e = some u :=
      hp.wf.tailNode_eq_some_iff.2 ⟨n, (hp.joins e u n).2 ⟨hJ, hu, hn⟩⟩
    have hnode := ht'.hasNode_iff u
    rw [restoreInEdge, htail, Option.bind_some]
    constructor
    · intro h
      apply if_pos
      rw [hnode.2 h.2.1, Bool.true_and]
      exact decide_eq_true fun heq => h.1 (heq ▸ hJ)
    · intro h
      apply if_neg
      intro hkeep
      obtain ⟨hu, hne⟩ := Bool.and_eq_true_iff.1 hkeep
      apply h ⟨fun hloop => of_decide_eq_true hne (hinj _ _ _ _ _ hJ hloop).1, hnode.1 hu, hself⟩)
    (fun e he hC ed hmem => by
      obtain ⟨u, hJ, _⟩ := (hin e).1 he
      obtain ⟨u', v', hj⟩ := hr₁.wf.exists_joins hmem
      rcases (hj₁ e u' v').1 hj with hj | ⟨he', _⟩
      · obtain ⟨td, hd, hmem', _⟩ := hj
        exact hold e u n _ hJ (.inr rfl) hmem'
      · obtain ⟨v, hJ', _⟩ := (hout e).1 he'
        obtain ⟨rfl, rfl⟩ := hinj _ _ _ _ _ hJ hJ'
        exact hC hJ)
  obtain ⟨g, parts⟩ := t₂
  have hparts : parts = t.parts := hr₂.parts
  subst hparts
  refine ⟨g, ?_, ⟨hr₂.wf, fun e u v => ?_⟩, hr₂.nodes, hr₂.hasParent⟩
  · rw [BoostGraph.restoreNodeFromParent, hnd, Option.bind_some, ht₁, Option.bind_some, ht₂]
  · have hsub' : insert n t.view.nodes ⊆ parent.nodes := Set.insert_subset hn hsub
    have hnodes : g.nodes = insert n t.view.nodes := hr₂.nodes
    change (ViewTree.node g t.parts).view.Joins e u v ↔ _
    rw [hj₂, hj₁, view_node, hg.wf.joins_addNode, hg.joins, hnodes]
    constructor
    · rintro ((⟨hJ, hu, hv⟩ | ⟨_, _, h⟩) | ⟨_, _, h⟩)
      · exact ⟨hJ, .inr hu, .inr hv⟩
      · exact h
      · exact h
    · rintro ⟨hJ, hu, hv⟩
      by_cases hun : u = n
      · subst hun
        exact .inl (.inr ⟨(hout e).2 ⟨v, hJ, hsub' hv⟩, trivial, hJ, hu, hv⟩)
      · by_cases hvn : v = n
        · subst hvn
          refine .inr ⟨(hin e).2 ⟨u, hJ, hsub' hu⟩, fun hloop => hun ?_, hJ, hu, hv⟩
          exact (hinj _ _ _ _ _ hJ hloop).1
        · exact .inl (.inl ⟨hJ, hu.resolve_left hun, hv.resolve_left hvn⟩)

end

/-- The calls on a graph of the tree, with those that undo a drop and a construction. -/
inductive TreeCall (ν ε : Type) where
  | call (path : List Nat) (call : Call ν ε)
  | restoreNodeFromParent (path : List Nat) (n : ν)
  | detachSubgraph (path : List Nat) (i : Nat)

/-- A graph without a parent restores nothing. -/
def treeStep (isBackEdge : ε → Bool) (t : ViewTree (BoostGraph ν ε)) :
    TreeCall ν ε → Option (ViewTree (BoostGraph ν ε))
  | .call path call => step isBackEdge path t call
  | .restoreNodeFromParent path n =>
    if path = [] then none
    else (get? path.dropLast t).bind fun parent =>
      modify (restoreNodeFromParent isBackEdge parent.view n) path t
  | .detachSubgraph path i => modify (fun t => some (.node t.view (t.parts.eraseIdx i))) path t

/-- The tree after some calls, of which none throws. -/
def treeSteps (isBackEdge : ε → Bool) :
    ViewTree (BoostGraph ν ε) → List (TreeCall ν ε) → Option (ViewTree (BoostGraph ν ε))
  | t, [] => some t
  | t, call :: calls => (treeStep isBackEdge t call).bind fun t' => treeSteps isBackEdge t' calls

end BoostGraph

namespace Views
open ViewTree
variable {ν ε : Type}

/-- What a call means. A restored node is in the graph, but in none of its parts. -/
def nextTree (s : Views ν ε) : BoostGraph.TreeCall ν ε → Views ν ε
  | .call path call => s.next path call
  | .restoreNodeFromParent path n =>
    let restored := modify (fun t => some (.node (insert n t.view) t.parts)) path s.nodes
    { s with nodes := restored.getD s.nodes }
  | .detachSubgraph path i =>
    let detached := modify (fun t => some (.node t.view (t.parts.eraseIdx i))) path s.nodes
    { s with nodes := detached.getD s.nodes }

/-- The calls are made on graphs of the tree. What is restored is in the parent only. -/
def SafeTree (isBackEdge : ε → Bool) (s : Views ν ε) : BoostGraph.TreeCall ν ε → Prop
  | .call path call => (∃ t, get? path s.nodes = some t) ∧ s.Safe isBackEdge path call
  | .restoreNodeFromParent path n => path ≠ [] ∧ (∃ t, get? path s.nodes = some t) ∧
    s.Has path.dropLast n ∧ ¬s.Has path n ∧ ∀ e, s.joins e n n → isBackEdge e = true
  | .detachSubgraph path _ => ∃ t, get? path s.nodes = some t

def SafeTreeCalls (isBackEdge : ε → Bool) : Views ν ε → List (BoostGraph.TreeCall ν ε) → Prop
  | _, [] => True
  | s, call :: calls =>
    s.SafeTree isBackEdge call ∧ SafeTreeCalls isBackEdge (s.nextTree call) calls

def afterTree : Views ν ε → List (BoostGraph.TreeCall ν ε) → Views ν ε
  | s, [] => s
  | s, call :: calls => (s.nextTree call).afterTree calls

theorem SafeTreeCalls.append {s : Views ν ε} {calls calls' : List (BoostGraph.TreeCall ν ε)}
    (h : s.SafeTreeCalls isBackEdge calls)
    (h' : (s.afterTree calls).SafeTreeCalls isBackEdge calls') :
    s.SafeTreeCalls isBackEdge (calls ++ calls') := by
  induction calls generalizing s with
  | nil => exact h'
  | cons call calls ih => exact ⟨h.1, ih h.2 h'⟩

theorem afterTree_append (s : Views ν ε) (calls calls' : List (BoostGraph.TreeCall ν ε)) :
    s.afterTree (calls ++ calls') = (s.afterTree calls).afterTree calls' := by
  induction calls generalizing s with
  | nil => rfl
  | cons call calls ih => exact ih _

end Views

namespace BoostGraph
open ViewTree
variable {ν ε : Type} [DecidableEq ν] [DecidableEq ε]

section
variable {t c : ViewTree (BoostGraph ν ε)} {s : Views ν ε} {path : List Nat} {n : ν}
  {isBackEdge : ε → Bool}

theorem Sim.restoreNodeFromParent (hs : Sim t s) (hpath : path ≠ []) (hc : get? path t = some c)
    (hn : s.Has path.dropLast n) (hnot : ¬s.Has path n)
    (hback : ∀ e, s.joins e n n → isBackEdge e = true) :
    ∃ t', treeStep isBackEdge t (.restoreNodeFromParent path n) = some t' ∧
      Sim t' (s.nextTree (.restoreNodeFromParent path n)) := by
  obtain ⟨path, i, rfl⟩ : ∃ path' i, path = path' ++ [i] :=
    ⟨path.dropLast, path.getLast hpath, (List.dropLast_append_getLast hpath).symm⟩
  rw [List.dropLast_concat] at hn
  rw [hs.has_iff hc] at hnot
  rw [get?_append, Option.bind_eq_some_iff] at hc
  obtain ⟨p, hp, hc⟩ := hc
  rw [hs.has_iff hp] at hn
  have hnestedp := hs.nested.get? hp
  obtain ⟨parent, parts⟩ := p
  rw [get?, Option.bind_eq_some_iff] at hc
  obtain ⟨_, hget, ⟨⟩⟩ := hc
  change parts[i]? = some c at hget
  have hmem : c ∈ parts := List.mem_of_getElem? hget
  cases hnestedp with
  | node hparent hrel hparts =>
  have hsub := hrel c hmem
  have hnestedc := hparts c hmem
  have hfresh : ∀ d ∈ c.parts, d.view.Wf ∧ d.view.hasParent = true ∧ n ∉ d.view.nodes := by
    cases hnestedc with
    | node _ hrel' hparts' =>
      intro d hd
      exact ⟨(hparts' d hd).view.wf, (hrel' d hd).2, fun h => hnot ((hrel' d hd).1 h)⟩
  obtain ⟨g, hg, hshows, hnodes, hhasParent⟩ := hparent.restoreNodeFromParent hnestedc.view hfresh
    hn hnot hsub.1 (fun e u v u' v' h h' => hs.joins_inj h h') hback
  have hrestored : Nested (Shows s.joins) Sub (.node g c.parts) := by
    apply hnestedc.setView hshows
    intro d hd
    refine ⟨?_, hd.2⟩
    rw [hnodes]
    exact hd.1.trans (Set.subset_insert _ _)
  have hmodp : modify (BoostGraph.restoreNodeFromParent isBackEdge parent n) [i]
      (.node parent parts) = some (.node parent (parts.set i (.node g c.parts))) := by
    rw [ViewTree.modify, hget, Option.bind_some, ViewTree.modify, hg, Option.map_some]
  have hnestedp : Nested (Shows s.joins) Sub (.node parent (parts.set i (.node g c.parts))) := by
    apply Nested.node hparent
    · intro d hd
      rcases List.mem_or_eq_of_mem_set hd with hd | rfl
      · exact hrel d hd
      · refine ⟨?_, hhasParent.trans hsub.2⟩
        rw [view_node, hnodes]
        exact Set.insert_subset hn hsub.1
    · intro d hd
      rcases List.mem_or_eq_of_mem_set hd with hd | rfl
      · exact hparts d hd
      · exact hrestored
  obtain ⟨t', hmod, hnested, _⟩ := hs.nested.modify hp hmodp hnestedp fun _ h => h
  have hget' : get? (path ++ [i]) t = some c := by
    rw [get?_append, hp, Option.bind_some, get?, ViewTree.parts, hget, Option.bind_some,
      get?]
  have hmap : modify (fun t => some (.node (insert n t.view) t.parts)) (path ++ [i]) s.nodes =
      some (map BoostGraph.nodes t') := by
    rw [← hs.nodes, modify_map (F := BoostGraph.restoreNodeFromParent isBackEdge parent n) hget' hg
      (by simp [hnodes]), modify_append, hmod, Option.map_some]
  have hnext : s.nextTree (.restoreNodeFromParent (path ++ [i]) n) =
      ⟨s.joins, map BoostGraph.nodes t'⟩ := by
    simp only [Views.nextTree, hmap, Option.getD_some]
  have hview : t'.view = t.view := by
    cases path with
    | nil =>
      cases hp
      cases hmodp.symm.trans hmod
      rfl
    | cons j path => exact view_of_modify hmod
  refine ⟨t', ?_, ?_⟩
  · rw [treeStep, if_neg hpath, List.dropLast_concat, hp, Option.bind_some, view_node,
      modify_append, hmod]
  · rw [hnext]
    refine ⟨rfl, hnested, ?_⟩
    simp only [view_map, hview, hs.root]
    exact hs.ends

/-- A subgraph that is taken out of the tree leaves the others as they are. -/
theorem Sim.detachSubgraph (hs : Sim t s) (hc : get? path t = some c) (i : Nat) :
    ∃ t', treeStep isBackEdge t (.detachSubgraph path i) = some t' ∧
      Sim t' (s.nextTree (.detachSubgraph path i)) := by
  have hnestedc := hs.nested.get? hc
  have hdetached : Nested (Shows s.joins) Sub (.node c.view (c.parts.eraseIdx i)) := by
    cases hnestedc with
    | node hview hrel hparts =>
      apply Nested.node hview
      · exact fun d hd => hrel d (List.mem_of_mem_eraseIdx hd)
      · exact fun d hd => hparts d (List.mem_of_mem_eraseIdx hd)
  obtain ⟨t', hmod, hnested, _⟩ := hs.nested.modify
    (F := fun t => some (.node t.view (t.parts.eraseIdx i))) hc rfl hdetached fun _ h => h
  have hmap : modify (fun t => some (.node t.view (t.parts.eraseIdx i))) path s.nodes =
      some (map BoostGraph.nodes t') := by
    rw [← hs.nodes, modify_map (F := fun t => some (.node t.view (t.parts.eraseIdx i))) hc rfl
      (by simp [List.eraseIdx_map]), hmod, Option.map_some]
  have hnext : s.nextTree (.detachSubgraph path i) = ⟨s.joins, map BoostGraph.nodes t'⟩ := by
    simp only [Views.nextTree, hmap, Option.getD_some]
  have hview : t'.view = t.view := by
    cases path with
    | nil =>
      cases hc
      cases hmod
      rfl
    | cons j path => exact view_of_modify hmod
  refine ⟨t', hmod, ?_⟩
  rw [hnext]
  refine ⟨rfl, hnested, ?_⟩
  simp only [view_map, hview, hs.root]
  exact hs.ends

theorem Sim.treeStep (hs : Sim t s) {call : TreeCall ν ε} (hsafe : s.SafeTree isBackEdge call) :
    ∃ t', BoostGraph.treeStep isBackEdge t call = some t' ∧ Sim t' (s.nextTree call) := by
  cases call with
  | call path call =>
    obtain ⟨⟨N, hN⟩, hcall⟩ := hsafe
    exact hs.step hN hcall
  | restoreNodeFromParent path n =>
    obtain ⟨hpath, ⟨N, hN⟩, hn, hnot, hback⟩ := hsafe
    obtain ⟨c, hc⟩ := hs.exists_get? hN
    exact hs.restoreNodeFromParent hpath hc hn hnot hback
  | detachSubgraph path i =>
    obtain ⟨N, hN⟩ := hsafe
    obtain ⟨c, hc⟩ := hs.exists_get? hN
    exact hs.detachSubgraph hc i

theorem Sim.treeSteps (hs : Sim t s) {calls : List (TreeCall ν ε)}
    (hsafe : s.SafeTreeCalls isBackEdge calls) :
    ∃ t', BoostGraph.treeSteps isBackEdge t calls = some t' ∧ Sim t' (s.afterTree calls) := by
  induction calls generalizing t s with
  | nil => exact ⟨t, rfl, hs⟩
  | cons call calls ih =>
    obtain ⟨hcall, hsafe⟩ := hsafe
    obtain ⟨t₁, ht₁, hs₁⟩ := hs.treeStep hcall
    obtain ⟨t', ht', hs'⟩ := ih hs₁ hsafe
    exact ⟨t', by rw [BoostGraph.treeSteps, ht₁, Option.bind_some, ht'], hs'⟩

/-- After any safe calls, restores and detachments every graph of the tree is the one that its
nodes induce in the root graph. -/
theorem treeSteps_answers {calls : List (TreeCall ν ε)}
    (hsafe : Views.start.SafeTreeCalls isBackEdge calls) :
    ∃ t, BoostGraph.treeSteps isBackEdge (.node empty []) calls = some t ∧
      ∀ path c, get? path t = some c →
        ∃ N, get? path (Views.start.afterTree calls).nodes = some N ∧
          c.view.Answers (Views.start.afterTree calls).joins N.view := by
  obtain ⟨t, ht, hs⟩ := Sim.start.treeSteps hsafe
  refine ⟨t, ht, fun path c hc => ⟨map BoostGraph.nodes c, ?_, ?_⟩⟩
  · rw [← hs.nodes, get?_map, hc, Option.map_some]
  · rw [view_map]
    exact (hs.nested.get? hc).view.answers


/-- An edge between two nodes, and a subgraph of both of them. -/
def edgeCalls : List (TreeCall Nat Nat) :=
  [.call [] (.addNode 0), .call [] (.addNode 1), .call [] (.connectNodes 0 1 0),
    .call [] (.constructSubGraph [0, 1])]

theorem edgeCalls_safe : Views.start.SafeTreeCalls (fun _ => false) edgeCalls := by
  refine ⟨⟨⟨_, rfl⟩, ?_⟩, ⟨⟨_, rfl⟩, ?_⟩, ⟨⟨_, rfl⟩, ?_⟩, ⟨⟨_, rfl⟩, ?_⟩, trivial⟩
  · exact fun h => nomatch h
  · rintro (h | h)
    · cases h
    · cases h
  · exact ⟨fun _ => ⟨.inr (.inl rfl), .inl rfl⟩, fun _ _ _ _ h => nomatch h⟩
  · refine ⟨by decide, ?_, ?_⟩
    · intro n hn
      refine ⟨_, rfl, ?_⟩
      simp only [List.mem_cons, List.not_mem_nil, or_false] at hn
      rcases hn with rfl | rfl
      · exact .inr (.inl rfl)
      · exact .inl rfl
    · rintro e n (h | ⟨_, _, rfl, h⟩) _
      · cases h
      · cases h

theorem treeSteps_answers_edge :
    ∃ t, BoostGraph.treeSteps (fun _ => false) (.node empty []) edgeCalls = some t ∧
      ∀ path c, get? path t = some c →
        ∃ N, get? path (Views.start.afterTree edgeCalls).nodes = some N ∧
          c.view.Answers (Views.start.afterTree edgeCalls).joins N.view :=
  treeSteps_answers edgeCalls_safe

/-- A node that is dropped and restored leaves its graph as it was. -/
theorem drop_restore_answers {calls : List (TreeCall ν ε)}
    (hsafe : Views.start.SafeTreeCalls isBackEdge calls) (hpath : path ≠ [])
    {N : ViewTree (Set ν)} (hN : get? path (Views.start.afterTree calls).nodes = some N)
    (hn : n ∈ N.view)
    (hback : ∀ e, (Views.start.afterTree calls).joins e n n → isBackEdge e = true) :
    ∃ t c, BoostGraph.treeSteps isBackEdge (.node empty [])
        (calls ++ [.call path (.dropNode n), .restoreNodeFromParent path n]) = some t ∧
      get? path t = some c ∧
      c.view.Answers (Views.start.afterTree calls).joins N.view := by
  obtain ⟨t, ht, hs⟩ := Sim.start.treeSteps hsafe
  have hparent : (Views.start.afterTree calls).Has path.dropLast n := by
    obtain ⟨path, i, rfl⟩ : ∃ path' i, path = path' ++ [i] :=
      ⟨path.dropLast, path.getLast hpath, (List.dropLast_append_getLast hpath).symm⟩
    obtain ⟨c, hc⟩ := hs.exists_get? hN
    have hmem : n ∈ c.view.nodes := by
      rw [← hs.has_iff hc]
      exact ⟨N, hN, hn⟩
    rw [get?_append, Option.bind_eq_some_iff] at hc
    obtain ⟨p, hp, hc⟩ := hc
    rw [List.dropLast_concat, hs.has_iff hp]
    have hle : c.view.nodes ⊆ p.view.nodes := (hs.nested.get? hp).le
      (Q := fun h g : BoostGraph ν ε => h.nodes ⊆ g.nodes) (fun _ _ h => h.1)
      (fun _ => Set.Subset.rfl) (fun _ _ _ h h' => h.trans h') hc
    exact hle hmem
  generalize hafter : Views.start.afterTree calls = s at hs hN hback hparent
  obtain ⟨T₁, hT₁⟩ := exists_modify
    (F := fun t => some (map (fun N : Set ν => {m ∈ N | m ≠ n}) t)) hN rfl
  obtain ⟨N₁, hN₁, hget₁⟩ := get?_of_modify hN hT₁
  cases hN₁
  have hnext₁ : s.nextTree (.call path (.dropNode n)) = ⟨s.joins, T₁⟩ := by
    simp only [Views.nextTree, Views.next, hT₁, Option.getD_some]
  obtain ⟨T₂, hT₂⟩ := exists_modify
    (F := fun t => some (.node (insert n t.view) t.parts)) hget₁ rfl
  obtain ⟨N₂, hN₂, hget₂⟩ := get?_of_modify hget₁ hT₂
  cases hN₂
  have hnext₂ : (⟨s.joins, T₁⟩ : Views ν ε).nextTree (.restoreNodeFromParent path n) =
      ⟨s.joins, T₂⟩ := by
    simp only [Views.nextTree, hT₂, Option.getD_some]
  have hcalls : s.SafeTreeCalls isBackEdge
      [.call path (.dropNode n), .restoreNodeFromParent path n] := by
    refine ⟨⟨⟨N, hN⟩, hpath⟩, ?_, trivial⟩
    rw [hnext₁]
    refine ⟨hpath, ⟨_, hget₁⟩, ?_, ?_, hback⟩
    · obtain ⟨P, hP, hmem⟩ := hparent
      obtain ⟨P', hP', hview⟩ := view_get?_of_modify hpath hP hT₁
      exact ⟨P', hP', hview ▸ hmem⟩
    · rintro ⟨N', hN', hmem⟩
      cases hget₁.symm.trans hN'
      rw [view_map] at hmem
      exact hmem.2 rfl
  obtain ⟨t', ht', hs'⟩ := Sim.start.treeSteps (hsafe.append (by rw [hafter]; exact hcalls))
  have hend : Views.start.afterTree
      (calls ++ [.call path (.dropNode n), .restoreNodeFromParent path n]) = ⟨s.joins, T₂⟩ := by
    rw [Views.afterTree_append, hafter, Views.afterTree, hnext₁, Views.afterTree, hnext₂,
      Views.afterTree]
  rw [hend] at hs'
  obtain ⟨c, hc⟩ := hs'.exists_get? hget₂
  refine ⟨t', c, ht', hc, ?_⟩
  have hnodes : c.view.nodes = N.view := by
    have hmap : map BoostGraph.nodes t' = T₂ := hs'.nodes
    have hview : some (map BoostGraph.nodes c) =
        some (.node (insert n (map (fun N : Set ν => {m ∈ N | m ≠ n}) N).view)
          (map (fun N : Set ν => {m ∈ N | m ≠ n}) N).parts) := by
      rw [← hget₂, ← hmap, get?_map, hc, Option.map_some]
    have hview := congrArg ViewTree.view (Option.some.inj hview)
    rw [view_map, view_node, view_map] at hview
    rw [hview]
    ext m
    by_cases hm : m = n
    · subst hm
      exact iff_of_true (Set.mem_insert _ _) hn
    · constructor
      · exact fun h => (h.resolve_left hm).1
      · exact fun h => .inr ⟨h, hm⟩
  rw [← hnodes]
  exact (hs'.nested.get? hc).view.answers

theorem drop_restore_answers_edge :
    ∃ t c, BoostGraph.treeSteps (fun _ => false) (.node empty [])
        (edgeCalls ++ [.call [0] (.dropNode 1), .restoreNodeFromParent [0] 1]) = some t ∧
      get? [0] t = some c ∧
      c.view.Answers (Views.start.afterTree edgeCalls).joins {n | n ∈ [0, 1]} := by
  apply drop_restore_answers (N := .node {n | n ∈ [0, 1]} []) edgeCalls_safe (by decide) rfl
  · exact List.mem_cons_of_mem _ List.mem_cons_self
  · rintro e (h | ⟨_, _, h, _⟩)
    · cases h
    · cases h

end

end BoostGraph

end OpenAsip
