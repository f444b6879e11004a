import OpenAsip.FirstPathLengths
import Mathlib.Order.Bounds.Basic

namespace OpenAsip
set_option autoImplicit true

namespace PathGraph
open PathLengths BoostGraph
/-- A table of `boost::johnson_all_pairs_shortest_paths` tells of all paths, also of those that go
through back edges. -/
def Tells {ν ε : Type} (g : BoostGraph ν ε) (table : List (List Bool)) : Prop :=
  ∀ (u v : ν) (td hd : Nat), g.vertices[td]? = some u → g.vertices[hd]? = some v →
    ∃ (row : List Bool) (path : Bool), table[td]? = some row ∧ row[hd]? = some path ∧
      (path = true ↔ Relation.ReflTransGen (fun u v => ∃ e, g.Joins e u v) u v)

/-- The edges from ten on are back edges. -/
def sampleSetup : GraphSetup Nat Nat where
  isBackEdge e := decide (10 ≤ e)
  edgeWeight _ _ := 1
  allowLoopEdges := true
  comparator a b := decide (a < b)
  topologicalSort _ := none
  johnsonAllPairsShortestPaths _ := [[true, true, true], [true, true, true], [true, true, true]]

/-- Three nodes with a cycle that one back edge closes. -/
structure Sample (g : BoostGraph Nat Nat) : Prop where
  vertices : g.vertices = [0, 1, 2]
  edges : g.edges = [(0, 0, 1), (1, 1, 2), (10, 2, 0)]

theorem Sample.joins {g : BoostGraph Nat Nat} (hg : Sample g) (h : g.Joins e u v) :
    sampleSetup.isBackEdge e = false ∧ v = u + 1 ∧ v ≤ 2 ∨
      sampleSetup.isBackEdge e = true ∧ u = 2 ∧ v = 0 := by
  obtain ⟨td, hd, hmem, hu, hv⟩ := h
  rw [hg.edges] at hmem
  rw [hg.vertices] at hu hv
  simp only [List.mem_cons, List.not_mem_nil, or_false] at hmem
  rcases hmem with h | h | h
  · cases h
    cases hu
    cases hv
    exact .inl ⟨rfl, rfl, by decide⟩
  · cases h
    cases hu
    cases hv
    exact .inl ⟨rfl, rfl, by decide⟩
  · cases h
    cases hu
    cases hv
    exact .inr ⟨rfl, rfl, rfl⟩

theorem Sample.acyclic {g : BoostGraph Nat Nat} (hg : Sample g) : Acyclic sampleSetup g := by
  have hstep : ∀ {u v}, Forward sampleSetup g u v → u < v := by
    rintro u v ⟨e, he, hb⟩
    rcases hg.joins he with ⟨_, rfl, _⟩ | ⟨hback, _⟩
    · exact Nat.lt_succ_self u
    · rw [hb] at hback
      cases hback
  have hlt : ∀ {u v}, Relation.TransGen (Forward sampleSetup g) u v → u < v := by
    intro u v h
    induction h with
    | single h => exact hstep h
    | tail _ h ih => exact Nat.lt_trans ih (hstep h)
  exact fun n h => Nat.lt_irrefl n (hlt h)

theorem Sample.light {g : BoostGraph Nat Nat} (hg : Sample g) : Light sampleSetup g := by
  have hpath : ∀ {b n k}, SinkPath sampleSetup g b n k → k = 0 ∨ k + n ≤ if b then 5 else 2 := by
    intro b n k h
    induction h with
    | stop => exact .inl rfl
    | @forward e u v b k he hb _ ih =>
      right
      rcases hg.joins he with ⟨_, rfl, hv⟩ | ⟨hback, _⟩
      · change k + 1 + u ≤ _
        cases b with
        | false =>
          simp only [Bool.false_eq_true, if_false] at ih ⊢
          omega
        | true =>
          simp only [if_true] at ih ⊢
          omega
      · rw [hb] at hback
        cases hback
    | @back e u v k he hb _ ih =>
      right
      rcases hg.joins he with ⟨hforward, _⟩ | ⟨_, rfl, rfl⟩
      · rw [hb] at hforward
        cases hforward
      · change k + 1 + 2 ≤ 5
        simp only [Bool.false_eq_true, if_false] at ih
        omega
  intro n k h
  rcases hpath h with rfl | h
  · exact Nat.zero_le _
  · simp only [if_true] at h
    omega

theorem Sample.mem {g : BoostGraph Nat Nat} (hg : Sample g) (hn : n ∈ [0, 1, 2]) : n ∈ g.nodes := by
  rwa [BoostGraph.nodes, hg.vertices]

theorem Sample.reaches {g : BoostGraph Nat Nat} (hg : Sample g) (hu : u ∈ [0, 1, 2])
    (hv : v ∈ [0, 1, 2]) : Relation.ReflTransGen (fun u v => ∃ e, g.Joins e u v) u v := by
  have h₀ : ∃ e, g.Joins e 0 1 := ⟨0, 0, 1, by simp [hg.edges, hg.vertices]⟩
  have h₁ : ∃ e, g.Joins e 1 2 := ⟨1, 1, 2, by simp [hg.edges, hg.vertices]⟩
  have h₂ : ∃ e, g.Joins e 2 0 := ⟨10, 2, 0, by simp [hg.edges, hg.vertices]⟩
  simp only [List.mem_cons, List.not_mem_nil, or_false] at hu hv
  have hto : Relation.ReflTransGen (fun u v => ∃ e, g.Joins e u v) u 0 := by
    rcases hu with rfl | rfl | rfl
    · exact .refl
    · exact (Relation.ReflTransGen.single h₁).tail h₂
    · exact .single h₂
  apply hto.trans
  rcases hv with rfl | rfl | rfl
  · exact .refl
  · exact .single h₀
  · exact (Relation.ReflTransGen.single h₀).tail h₁

theorem Sample.tells {g : BoostGraph Nat Nat} (hg : Sample g) :
    Tells g (sampleSetup.johnsonAllPairsShortestPaths g) := by
  intro u v td hd hu hv
  rw [hg.vertices] at hu hv
  have hpath := hg.reaches (List.mem_of_getElem? hu) (List.mem_of_getElem? hv)
  have hcell : ∀ {α : Type} {i n : Nat} {b : α}, [0, 1, 2][i]? = some n →
      [b, b, b][i]? = some b := by
    intro α i n b h
    rcases i with _ | _ | _ | i
    · rfl
    · rfl
    · rfl
    · cases h
  exact ⟨_, true, hcell hu, hcell hv, by simp [hpath]⟩

theorem sample_run : ∃ p, Relation.ReflTransGen (AddingStep sampleSetup) (empty false none) p ∧
    Sample p.graph ∧ p.pathCache = none ∧ p.lengths = PathLengths.empty := by
  have hnode : ∀ {p : PathGraph Nat Nat} {n}, n ∉ p.graph.vertices →
      Allowed sampleSetup p (.addNode n) := id
  have hedge : ∀ {p : PathGraph Nat Nat} {u v e}, e ∉ p.graph.edges.map Prod.fst →
      Allowed sampleSetup p (.connectNodes false u v e) := by
    rintro p u v e he u' v' ⟨td, hd, h, _⟩
    exact he (List.mem_map_of_mem h)
  exact ⟨_, (((((Relation.ReflTransGen.single
    ⟨.addNode 0, 0, trivial, hnode (by decide), rfl⟩).tail
    ⟨.addNode 1, 0, trivial, hnode (by decide), rfl⟩).tail
    ⟨.addNode 2, 0, trivial, hnode (by decide), rfl⟩).tail
    ⟨.connectNodes false 0 1 0, 0, trivial, hedge (by decide), rfl⟩).tail
    ⟨.connectNodes false 1 2 1, 0, trivial, hedge (by decide), rfl⟩).tail
    ⟨.connectNodes false 2 0 10, 0, trivial, hedge (by decide), rfl⟩, ⟨rfl, rfl⟩, rfl, rfl⟩

theorem AddingStep.steps {S : GraphSetup Nat Nat} {p p' : PathGraph Nat Nat}
    (h : Relation.ReflTransGen (AddingStep S) p p') : Relation.ReflTransGen (Step S) p p' :=
  Relation.ReflTransGen.mono (fun _ _ hstep => hstep.step) p p' h

theorem sample_run_height : ∃ p h, Relation.ReflTransGen (AddingStep sampleSetup)
    (empty false none) p ∧ Sample p.graph ∧ p.lengths.height = some h := by
  obtain ⟨p, hrun, hp, _, hlengths⟩ := sample_run
  have hsort : ∀ order, sampleSetup.topologicalSort p.graph = some order →
      TopologicalOrder p.graph order := by
    intro order h
    cases h
  have hcalc : Calculable sampleSetup p.graph := calculable_of_acyclic hp.acyclic hsort
  have hright := right_empty.steps (AddingStep.steps hrun)
  obtain ⟨h, p', hh, hgraph, hheight, _⟩ := hright.height_first hlengths hp.acyclic hp.light hsort
    (fun h => by cases h) (Nat.le_refl _)
  have hcall : p.call sampleSetup (52003 * p.graph.vertices.length + 2) .height = some p' := by
    rw [call, hh]
    rfl
  exact ⟨p', h, hrun.tail ⟨.height, _, trivial, fun _ => hcalc, hcall⟩, hgraph ▸ hp, hheight⟩

section
variable {ν ε : Type} [DecidableEq ν] [DecidableEq ε] {S : GraphSetup ν ε} {fuel : Nat}
  {p p' : PathGraph ν ε}

theorem right_run {hasParent : Bool} {height : Option Nat}
    (hrun : Relation.ReflTransGen (Step S) (empty hasParent height) p) : Right S p :=
  right_empty.steps hrun

/-- After any calls a search finds a path just if there is one without back edges, whatever the
sink distances are that it compares. -/
theorem hasPath_iff_forward {hasParent : Bool} {height : Option Nat}
    (hrun : Relation.ReflTransGen (Step S) (empty hasParent height) p) (hcache : p.pathCache = none)
    (hsrc : src ∈ p.graph.nodes) (hdest : dest ∈ p.graph.nodes)
    (hfuel : p.graph.vertices.length < fuel) :
    ∃ path, p.hasPath S fuel src dest = some (path, p) ∧
      (path = true ↔ Relation.ReflTransGen (Forward S p.graph) src dest) :=
  (right_run hrun).hasPath_spec hcache hsrc hdest hfuel

theorem hasPath_iff_forward_sample : ∃ p : PathGraph Nat Nat, Sample p.graph ∧
    ∃ path, p.hasPath sampleSetup 4 0 2 = some (path, p) ∧
      (path = true ↔ Relation.ReflTransGen (Forward sampleSetup p.graph) 0 2) := by
  obtain ⟨p, hrun, hp, hcache, _⟩ := sample_run
  refine ⟨p, hp, hasPath_iff_forward (AddingStep.steps hrun) hcache ?_ ?_ ?_⟩
  · exact hp.mem (by decide)
  · exact hp.mem (by decide)
  · exact hp.vertices ▸ (by decide : [0, 1, 2].length < 4)

/-- After any calls the cycles that are detected are those without a back edge. -/
theorem detectIllegalCycles_iff {hasParent : Bool} {height : Option Nat}
    (hrun : Relation.ReflTransGen (Step S) (empty hasParent height) p)
    (hfuel : p.graph.vertices.length < fuel) :
    ∃ cycle, p.graph.detectIllegalCycles S fuel = some cycle ∧
      (cycle = true ↔ ∃ n, Relation.TransGen (Forward S p.graph) n n) :=
  (right_run hrun).wf.detectIllegalCycles_spec hfuel

theorem detectIllegalCycles_iff_sample : ∃ p : PathGraph Nat Nat, Sample p.graph ∧
    ∃ cycle, p.graph.detectIllegalCycles sampleSetup 4 = some cycle ∧
      (cycle = true ↔ ∃ n, Relation.TransGen (Forward sampleSetup p.graph) n n) := by
  obtain ⟨p, hrun, hp, _, _⟩ := sample_run
  refine ⟨p, hp, detectIllegalCycles_iff (AddingStep.steps hrun) ?_⟩
  exact hp.vertices ▸ (by decide : [0, 1, 2].length < 4)

/-- After any calls no path with at most one back edge is longer than the sink distance of its first
node, and no sink distance is longer than the height. -/
theorem sinkPath_le_maxSinkDistance {hasParent : Bool} {height : Option Nat}
    (hrun : Relation.ReflTransGen (Step S) (empty hasParent height) p)
    (hheight : p.lengths.height = some h) (hn : n ∈ p.graph.nodes) :
    ∃ d : Nat, p.maxSinkDistance S fuel n = some ((d : Int), p) ∧ d ≤ h ∧
      ∀ b k, SinkPath S p.graph b n k → k ≤ d := by
  have hp := right_run hrun
  have hsome : p.lengths.height ≠ none := ne_of_eq_of_ne hheight (Option.some_ne_none h)
  refine ⟨farthest p.lengths n, hp.maxSinkDistance_eq hsome hn, hp.farthest_le_height hheight n, ?_⟩
  exact fun b k hpath => hp.sinkPath_le hsome hpath

theorem sinkPath_le_maxSinkDistance_sample : ∃ (p : PathGraph Nat Nat) (h : Nat), Sample p.graph ∧
    ∃ d : Nat, p.maxSinkDistance sampleSetup 0 0 = some ((d : Int), p) ∧ d ≤ h ∧
      ∀ b k, SinkPath sampleSetup p.graph b 0 k → k ≤ d := by
  obtain ⟨p, h, hrun, hp, hheight⟩ := sample_run_height
  have hmem : 0 ∈ p.graph.nodes := hp.mem (by decide)
  exact ⟨p, h, hp, sinkPath_le_maxSinkDistance (AddingStep.steps hrun) hheight hmem⟩

omit [DecidableEq ε] in
theorem Right.isGreatest_farthest (hp : Right S p) (ha : Attained S p.graph p.lengths)
    (hheight : p.lengths.height ≠ none) (n : ν) :
    IsGreatest {k | SinkPath S p.graph true n k} (farthest p.lengths n) :=
  ⟨sinkPath_farthest ha n, fun _ hpath => hp.sinkPath_le hheight hpath⟩

omit [DecidableEq ε] in
theorem Right.isGreatest_height (hp : Right S p) (ha : Attained S p.graph p.lengths)
    (hheight : p.lengths.height = some h) : IsGreatest {k | Weighs S p.graph k} h := by
  have hsome : p.lengths.height ≠ none := ne_of_eq_of_ne hheight (Option.some_ne_none h)
  refine ⟨ha.height h hheight, ?_⟩
  rintro k (rfl | ⟨n, hn⟩)
  · exact Nat.zero_le h
  · exact Nat.le_trans (hp.sinkPath_le hsome hn) (hp.farthest_le_height hheight n)

/-- As long as nothing has been taken away, the sink distances and the height are the weights of
longest paths with at most one back edge. -/
theorem isGreatest_maxSinkDistance {hasParent : Bool}
    (hrun : Relation.ReflTransGen (AddingStep S) (empty hasParent none) p)
    (hheight : p.lengths.height = some h) :
    IsGreatest {k | Weighs S p.graph k} h ∧ ∀ n ∈ p.graph.nodes, ∃ d : Nat,
      p.maxSinkDistance S fuel n = some ((d : Int), p) ∧
        IsGreatest {k | SinkPath S p.graph true n k} d := by
  obtain ⟨hp, ha⟩ := attained_steps right_empty attained_empty hrun
  have hsome : p.lengths.height ≠ none := ne_of_eq_of_ne hheight (Option.some_ne_none h)
  refine ⟨hp.isGreatest_height ha hheight, fun n hn => ⟨farthest p.lengths n, ?_, ?_⟩⟩
  · exact hp.maxSinkDistance_eq hsome hn
  · exact hp.isGreatest_farthest ha hsome n

theorem isGreatest_maxSinkDistance_sample : ∃ (p : PathGraph Nat Nat) (h : Nat), Sample p.graph ∧
    IsGreatest {k | Weighs sampleSetup p.graph k} h ∧ ∀ n ∈ p.graph.nodes, ∃ d : Nat,
      p.maxSinkDistance sampleSetup 0 n = some ((d : Int), p) ∧
        IsGreatest {k | SinkPath sampleSetup p.graph true n k} d := by
  obtain ⟨p, h, hrun, hp, hheight⟩ := sample_run_height
  exact ⟨p, h, hp, isGreatest_maxSinkDistance hrun hheight⟩

/-- The first lengths of a graph are calculated to the end if every cycle goes through a back edge
and no path is too long, and are then those of the longest paths. -/
theorem height_isGreatest {hasParent : Bool}
    (hrun : Relation.ReflTransGen (Step S) (empty hasParent none) p)
    (hheight : p.lengths.height = none) (hacyclic : Acyclic S p.graph) (hlight : Light S p.graph)
    (hsort : ∀ order, S.topologicalSort p.graph = some order → TopologicalOrder p.graph order)
    (hsorted : S.allowLoopEdges = false → ∃ order, S.topologicalSort p.graph = some order)
    (hfuel : 52003 * p.graph.vertices.length + 2 ≤ fuel) :
    ∃ (h : Nat) (p' : PathGraph ν ε), p.height S fuel = some (h, p') ∧ p'.graph = p.graph ∧
      IsGreatest {k | Weighs S p.graph k} h ∧ ∀ n ∈ p.graph.nodes, ∃ d : Nat,
        p'.maxSinkDistance S fuel n = some ((d : Int), p') ∧
          IsGreatest {k | SinkPath S p.graph true n k} d := by
  have hlengths : p.lengths = PathLengths.empty :=
    (late_steps right_empty hrun).resolve_right fun h => h hheight
  obtain ⟨h, p', hh, hgraph, hheight', hp', ha⟩ :=
    (right_run hrun).height_first hlengths hacyclic hlight hsort hsorted hfuel
  have hsome : p'.lengths.height ≠ none := ne_of_eq_of_ne hheight' (Option.some_ne_none h)
  refine ⟨h, p', hh, hgraph, hgraph ▸ hp'.isGreatest_height ha hheight', fun n hn => ?_⟩
  refine ⟨farthest p'.lengths n, hp'.maxSinkDistance_eq hsome (hgraph ▸ hn), ?_⟩
  exact hgraph ▸ hp'.isGreatest_farthest ha hsome n

theorem height_isGreatest_sample : ∃ p : PathGraph Nat Nat, Sample p.graph ∧
    ∃ (h : Nat) (p' : PathGraph Nat Nat), p.height sampleSetup 156011 = some (h, p') ∧
      p'.graph = p.graph ∧ IsGreatest {k | Weighs sampleSetup p.graph k} h ∧
      ∀ n ∈ p.graph.nodes, ∃ d : Nat,
        p'.maxSinkDistance sampleSetup 156011 n = some ((d : Int), p') ∧
          IsGreatest {k | SinkPath sampleSetup p.graph true n k} d := by
  obtain ⟨p, hrun, hp, _, hlengths⟩ := sample_run
  refine ⟨p, hp, height_isGreatest (AddingStep.steps hrun) ?_ hp.acyclic hp.light ?_ ?_ ?_⟩
  · rw [hlengths]
    rfl
  · intro order h
    cases h
  · intro h
    cases h
  · exact hp.vertices ▸ (by decide : 52003 * [0, 1, 2].length + 2 ≤ 156011)

omit [DecidableEq ν] [DecidableEq ε] in
theorem reachable_of_back {g : BoostGraph ν ε}
    (hback : ∀ e u v, g.Joins e u v → S.isBackEdge e = true →
      Relation.ReflTransGen (Forward S g) u v)
    (h : Relation.ReflTransGen (fun u v => ∃ e, g.Joins e u v) u v) :
    Relation.ReflTransGen (Forward S g) u v := by
  induction h with
  | refl => exact .refl
  | tail _ hstep ih =>
    obtain ⟨e, he⟩ := hstep
    cases hb : S.isBackEdge e with
    | true => exact ih.trans (hback e _ _ he hb)
    | false => exact ih.tail ⟨e, he, hb⟩

omit [DecidableEq ε] in
theorem Right.hasPath_findAllPaths (hp : Right S p) (fuel : Nat)
    (htable : Tells p.graph (S.johnsonAllPairsShortestPaths p.graph))
    (hsrc : src ∈ p.graph.nodes) (hdest : dest ∈ p.graph.nodes) :
    ∃ path, (p.findAllPaths S).hasPath S fuel src dest = some (path, p.findAllPaths S) ∧
      (path = true ↔ Relation.ReflTransGen (fun u v => ∃ e, p.graph.Joins e u v) src dest) := by
  by_cases heq : src = dest
  · subst heq
    exact ⟨true, by rw [hasPath, if_pos rfl], by simp [Relation.ReflTransGen.refl]⟩
  · obtain ⟨sd, hsd⟩ := hp.wf.exists_descriptor hsrc
    obtain ⟨dd, hdd⟩ := hp.wf.exists_descriptor hdest
    obtain ⟨row, path, hrow, hpath, hiff⟩ := htable src dest sd dd
      (hp.wf.descriptor_eq_some_iff.1 hsd) (hp.wf.descriptor_eq_some_iff.1 hdd)
    refine ⟨path, ?_, hiff⟩
    rw [hasPath, if_neg heq]
    simp [findAllPaths, hsd, hdd, hrow, hpath]

/-- The table of all paths gives the answers of the searches just if there is a way round every back
edge. -/
theorem hasPath_findAllPaths_iff {hasParent : Bool} {height : Option Nat}
    (hrun : Relation.ReflTransGen (Step S) (empty hasParent height) p) (hcache : p.pathCache = none)
    (htable : Tells p.graph (S.johnsonAllPairsShortestPaths p.graph))
    (hfuel : p.graph.vertices.length < fuel) :
    (∀ src ∈ p.graph.nodes, ∀ dest ∈ p.graph.nodes,
        ((p.findAllPaths S).hasPath S fuel src dest).map Prod.fst =
          (p.hasPath S fuel src dest).map Prod.fst) ↔
      ∀ e u v, p.graph.Joins e u v → S.isBackEdge e = true →
        Relation.ReflTransGen (Forward S p.graph) u v := by
  have hp := right_run hrun
  constructor
  · intro h e u v he _
    obtain ⟨path, hpath, hiff⟩ := hp.hasPath_spec hcache he.left he.right hfuel
    obtain ⟨path', hpath', hiff'⟩ := hp.hasPath_findAllPaths fuel htable he.left he.right
    have heq := h u he.left v he.right
    rw [hpath, hpath'] at heq
    cases heq
    exact hiff.1 (hiff'.2 (.single ⟨e, he⟩))
  · intro hback src hsrc dest hdest
    obtain ⟨path, hpath, hiff⟩ := hp.hasPath_spec hcache hsrc hdest hfuel
    obtain ⟨path', hpath', hiff'⟩ := hp.hasPath_findAllPaths fuel htable hsrc hdest
    have hsame : path' = path := by
      rw [Bool.eq_iff_iff, hiff, hiff']
      constructor
      · exact reachable_of_back hback
      · have hle : Forward S p.graph ≤ fun u v => ∃ e, p.graph.Joins e u v :=
          fun u v ⟨e, he, _⟩ => ⟨e, he⟩
        exact Relation.ReflTransGen.mono hle src dest
    rw [hpath, hpath', hsame]
    rfl

theorem hasPath_findAllPaths_iff_sample : ∃ p : PathGraph Nat Nat, Sample p.graph ∧
    ((∀ src ∈ p.graph.nodes, ∀ dest ∈ p.graph.nodes,
        ((p.findAllPaths sampleSetup).hasPath sampleSetup 4 src dest).map Prod.fst =
          (p.hasPath sampleSetup 4 src dest).map Prod.fst) ↔
      ∀ e u v, p.graph.Joins e u v → sampleSetup.isBackEdge e = true →
        Relation.ReflTransGen (Forward sampleSetup p.graph) u v) := by
  obtain ⟨p, hrun, hp, hcache, _⟩ := sample_run
  refine ⟨p, hp, hasPath_findAllPaths_iff (AddingStep.steps hrun) hcache hp.tells ?_⟩
  exact hp.vertices ▸ (by decide : [0, 1, 2].length < 4)

end

end PathGraph

end OpenAsip
