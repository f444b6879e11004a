import OpenAsip.PathGraphRemovals

namespace OpenAsip
set_option autoImplicit true

namespace PathGraph
open PathLengths BoostGraph
variable {ν ε : Type} [DecidableEq ν] {S : GraphSetup ν ε} {fuel : Nat} {p p' : PathGraph ν ε}

/-- The longer one of the two sink distances of a node. -/
def farthest (t : PathLengths ν) (n : ν) : Nat :=
  max (t.distance .sink true n) (t.distance .sink false n)

theorem readSinkDistance_eq {t : PathLengths ν} (h : t.find .sink false n ≠ none) :
    t.readSinkDistance n = some (farthest t n) := by
  obtain ⟨k, hk⟩ := Option.ne_none_iff_exists'.1 h
  rw [readSinkDistance, farthest, distance, distance, hk]
  cases t.find .sink true n with
  | none => simp
  | some l =>
    simp only [Option.getD_some, Option.some.injEq]
    split
    · omega
    · omega

theorem Right.maxSinkDistance_eq (hp : Right S p) (hheight : p.lengths.height ≠ none)
    (hn : n ∈ p.graph.nodes) :
    p.maxSinkDistance S fuel n = some (((farthest p.lengths n : Nat) : Int), p) := by
  rw [maxSinkDistance, hp.wf.hasNode_iff.2 hn, readSinkDistance_eq (hp.sinks.listed hheight n hn)]
  rfl

theorem Right.maxSinkDistance_missing (hp : Right S p) (hn : n ∉ p.graph.nodes) :
    p.maxSinkDistance S fuel n = some (-1, p) := by
  have hnode : p.graph.hasNode n = false := by
    rw [Bool.eq_false_iff]
    exact mt hp.wf.hasNode_iff.1 hn
  rw [maxSinkDistance, hnode]
  rfl

/-- Sink distances grow against the edges by their weights. -/
theorem Right.farthest_add_le (hp : Right S p) (he : p.graph.Joins e u v)
    (hb : S.isBackEdge e = false) (hheight : p.lengths.height ≠ none) :
    farthest p.lengths v + S.edgeWeight e v ≤ farthest p.lengths u := by
  have hat : ∀ b l, p.lengths.find .sink b v = some l → (b = true → 0 < l) →
      l + S.edgeWeight e v ≤ p.lengths.distance .sink b u := by
    intro b l hl hpos
    have hat := hp.sinks.settled.atLeast he hl fun h => ⟨hb, hpos h⟩
    rw [hb, Bool.or_false] at hat
    obtain ⟨k, hk, hle⟩ := hat
    rwa [distance, hk, Option.getD_some]
  obtain ⟨k, hk⟩ := Option.ne_none_iff_exists'.1 (hp.sinks.listed hheight v he.right)
  have hplain := hat false k hk (by simp)
  have hv : p.lengths.distance .sink false v = k := by rw [distance, hk, Option.getD_some]
  rw [farthest, farthest, hv]
  cases hf : p.lengths.find .sink true v with
  | none =>
    have hzero : p.lengths.distance .sink true v = 0 := by rw [distance, hf, Option.getD_none]
    omega
  | some l =>
    have hl : p.lengths.distance .sink true v = l := by rw [distance, hf, Option.getD_some]
    by_cases hpos : 0 < l
    · have hlooping := hat true l hf fun _ => hpos
      omega
    · omega

theorem Right.mem_forwardHeads (hp : Right S p) :
    v ∈ p.graph.forwardHeads S u ↔ Forward S p.graph u v := by
  rw [forwardHeads]
  constructor
  · intro h
    split at h
    · next nd hnd =>
      obtain ⟨x, hx, rfl⟩ := List.mem_map.1 h
      obtain ⟨hmem, hb⟩ := List.mem_filter.1 hx
      rw [Bool.not_eq_true'] at hb
      have hat := hp.wf.isAt (hp.wf.descriptor_eq_some_iff.1 hnd)
      exact ⟨x.1, (hp.wf.placed.joins_outEnds hat hmem).1, hb⟩
    · exact absurd h List.not_mem_nil
  · rintro ⟨e, he, hb⟩
    obtain ⟨nd, hnd⟩ := hp.wf.exists_descriptor he.left
    have hat := hp.wf.isAt (hp.wf.descriptor_eq_some_iff.1 hnd)
    obtain ⟨hd, hmem⟩ := hp.wf.placed.mem_outEnds_of_joins hat he
    rw [hnd]
    exact List.mem_map.2 ⟨_, List.mem_filter.2 ⟨hmem, by simp [hb]⟩, rfl⟩

theorem Right.next_iff (hp : Right S p) :
    GraphSearch.Next (p.graph.forwardHeads S) = Forward S p.graph := by
  funext u v
  rw [GraphSearch.Next, hp.mem_forwardHeads]

/-- The distance that is compared, of a node of the graph. -/
theorem Right.sinkDistanceFor_eq (hp : Right S p) (hn : n ∈ p.graph.nodes) (without : Int) :
    p.sinkDistanceFor S fuel n without =
      some (if p.lengths.height.isSome then ((farthest p.lengths n : Nat) : Int) else without,
        p) := by
  rw [sinkDistanceFor]
  split
  · next h => exact hp.maxSinkDistance_eq (Option.isSome_iff_ne_none.1 h) hn
  · rfl

/-- What a node is compared with, and whether the search goes on from it. -/
def comparedWith (p : PathGraph ν ε) (n : ν) (without : Int) : Int :=
  if p.lengths.height.isSome then ((farthest p.lengths n : Nat) : Int) else without

theorem Right.isWorth_eq (hp : Right S p) (hn : n ∈ p.graph.nodes) (dst : Int) :
    isWorth S fuel dst p n = some (decide (dst ≤ p.comparedWith n dst), p) := by
  rw [isWorth, hp.sinkDistanceFor_eq hn]
  obtain ⟨nd, hnd⟩ := hp.wf.exists_descriptor hn
  change (if dst ≤ p.comparedWith n dst then (p.graph.descriptor n).map fun _ => (true, p)
    else some (false, p)) = _
  rw [hnd]
  by_cases h : dst ≤ p.comparedWith n dst
  · rw [if_pos h, decide_eq_true h]
    rfl
  · rw [if_neg h, decide_eq_false h]

/-- A node from which another one can be reached is not nearer to the sinks. -/
theorem Right.farthest_le (hp : Right S p) (hheight : p.lengths.height ≠ none)
    (h : Relation.ReflTransGen (Forward S p.graph) u v) :
    farthest p.lengths v ≤ farthest p.lengths u := by
  induction h using Relation.ReflTransGen.head_induction_on with
  | refl => exact Nat.le_refl _
  | head hstep _ ih =>
    obtain ⟨e, he, hb⟩ := hstep
    exact Nat.le_trans ih (Nat.le_trans (Nat.le_add_right _ _) (hp.farthest_add_le he hb hheight))

/-- A search that leaves nodes out by their sink distances misses no path. -/
theorem Right.hasPath_spec (hp : Right S p) (hcache : p.pathCache = none)
    (hsrc : src ∈ p.graph.nodes) (hdest : dest ∈ p.graph.nodes)
    (hfuel : p.graph.vertices.length < fuel) :
    ∃ path, p.hasPath S fuel src dest = some (path, p) ∧
      (path = true ↔ Relation.ReflTransGen (Forward S p.graph) src dest) := by
  rw [hasPath]
  split
  · next heq => exact ⟨true, rfl, by simp [heq, Relation.ReflTransGen.refl]⟩
  · next hne =>
    rw [hcache]
    simp only [hp.sinkDistanceFor_eq hdest, Option.bind_eq_bind, Option.bind_some]
    rw [← hp.next_iff]
    apply GraphSearch.search_iff
    · intro n _ m hm
      obtain ⟨e, he, _⟩ := hp.mem_forwardHeads.1 hm
      exact he.right
    · exact hsrc
    · exact fun n hn => hp.isWorth_eq hn _
    · intro n _ hpath
      rw [hp.next_iff] at hpath
      rw [decide_eq_true_iff, comparedWith]
      split
      · next hsome =>
        exact Int.ofNat_le.2 (hp.farthest_le (Option.isSome_iff_ne_none.1 hsome) hpath)
      · exact Int.le_refl _
    · exact hne
    · exact hfuel

end PathGraph

theorem Option.anyM_spec {α : Type} {f : α → Option Bool} {P : α → Prop} {l : List α}
    (hf : ∀ a ∈ l, ∃ b, f a = some b ∧ (b = true ↔ P a)) :
    ∃ b, l.anyM f = some b ∧ (b = true ↔ ∃ a ∈ l, P a) := by
  induction l with
  | nil => exact ⟨false, rfl, by simp⟩
  | cons a l ih =>
    obtain ⟨ha, hl⟩ := List.forall_mem_cons.1 hf
    obtain ⟨b, hb, hP⟩ := ha
    rw [List.anyM, hb]
    cases b with
    | true => exact ⟨true, rfl, by simp [hP.1 rfl]⟩
    | false =>
      obtain ⟨b', hb', hiff⟩ := ih hl
      have hnot : ¬P a := fun h => Bool.false_ne_true (hP.2 h)
      exact ⟨b', hb', by simpa [hnot] using hiff⟩

namespace BoostGraph
variable {ν ε : Type} [DecidableEq ν] [DecidableEq ε] {S : GraphSetup ν ε} {g : BoostGraph ν ε}

theorem Wf.next_edgeHeads (hg : g.Wf) :
    GraphSearch.Next (g.edgeHeads S) = Forward S g := by
  funext u v
  apply propext
  rw [GraphSearch.Next, edgeHeads, List.mem_filterMap]
  constructor
  · rintro ⟨e, he, hhead⟩
    obtain ⟨hout, hb⟩ := List.mem_filter.1 he
    obtain ⟨u', hjoins⟩ := hg.headNode_eq_some_iff.1 hhead
    obtain ⟨v', hjoins'⟩ := hg.mem_outEdges_iff.1 hout
    obtain ⟨rfl, _⟩ := hg.joins_inj hjoins hjoins'
    exact ⟨e, hjoins, by simpa using hb⟩
  · rintro ⟨e, hjoins, hb⟩
    refine ⟨e, List.mem_filter.2 ⟨hg.mem_outEdges_iff.2 ⟨v, hjoins⟩, by simp [hb]⟩, ?_⟩
    exact hg.headNode_eq_some_iff.2 ⟨u, hjoins⟩

/-- The cycles that are looked for are those that no back edge closes. -/
theorem Wf.detectIllegalCycles_spec (hg : g.Wf) (hfuel : g.vertices.length < fuel) :
    ∃ b, g.detectIllegalCycles S fuel = some b ∧
      (b = true ↔ ∃ n, Relation.TransGen (Forward S g) n n) := by
  have hsearch : ∀ n ∈ g.vertices, ∃ b, (GraphSearch.search (fun a b => S.comparator a b = true)
      (g.edgeHeads S) (fun s _ => some (true, s)) n fuel [n] [n] ()).map Prod.fst = some b ∧
      (b = true ↔ Relation.TransGen (Forward S g) n n) := by
    intro n hn
    have hspec := @GraphSearch.search_transGen ν Unit _ (fun a b => S.comparator a b = true) _
      (g.edgeHeads S) (fun s _ => some (true, s)) (fun _ => true) n n g.vertices [n] () fuel
    rw [hg.next_edgeHeads] at hspec
    obtain ⟨b, hb, hiff⟩ := hspec (fun u _ v huv => by
      have hnext : GraphSearch.Next (g.edgeHeads S) u v := huv
      rw [hg.next_edgeHeads] at hnext
      obtain ⟨e, he, _⟩ := hnext
      exact he.right) hn (fun _ _ => rfl) (fun _ _ _ => rfl) (fun _ => List.mem_singleton.1) hfuel
    exact ⟨b, by rw [hb]; rfl, hiff⟩
  obtain ⟨b, hb, hiff⟩ := Option.anyM_spec hsearch
  refine ⟨b, hb, hiff.trans ⟨fun ⟨n, _, h⟩ => ⟨n, h⟩, fun ⟨n, h⟩ => ⟨n, ?_, h⟩⟩⟩
  obtain ⟨m, ⟨e, he, _⟩, _⟩ := Relation.TransGen.head'_iff.1 h
  exact he.left

end BoostGraph

end OpenAsip
