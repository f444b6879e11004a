import OpenAsip.PathWeightRuns

namespace OpenAsip
set_option autoImplicit true

theorem Option.foldlM_exists {step : σ → α → Option σ} {l : List α} (inv : σ → Prop)
    (hstep : ∀ a ∈ l, ∀ s, inv s → ∃ s', step s a = some s' ∧ inv s') {s : σ} (hs : inv s) :
    ∃ s', l.foldlM step s = some s' := by
  induction l generalizing s with
  | nil => exact ⟨s, rfl⟩
  | cons a l ih =>
    obtain ⟨ha, hl⟩ := List.forall_mem_cons.1 hstep
    obtain ⟨s₁, h₁, hs₁⟩ := ha s hs
    obtain ⟨s', h'⟩ := ih hl hs₁
    exact ⟨s', by rw [List.foldlM_cons, h₁]; exact h'⟩

namespace BoostGraph
open PathLengths GraphSearch
variable {ν ε : Type} {S : GraphSetup ν ε} {g : BoostGraph ν ε}

/-- No path is longer than the source asserts. -/
def Light (S : GraphSetup ν ε) (g : BoostGraph ν ε) : Prop :=
  ∀ n k, SinkPath S g true n k → k ≤ 26000

/-- Every cycle goes through a back edge. -/
def Acyclic (S : GraphSetup ν ε) (g : BoostGraph ν ε) : Prop :=
  ∀ n, ¬Relation.TransGen (Forward S g) n n

/-- How deep `calculateSinkDistance` calls itself from a node at most. -/
noncomputable def depth (S : GraphSetup ν ε) (g : BoostGraph ν ε) (looping : Bool) (n : ν) : Nat :=
  rank (Forward S g) g.vertices n + if looping then 0 else g.vertices.length + 1

theorem Light.weighs (h : Light S g) (hk : Weighs S g k) : k ≤ 26000 := by
  rcases hk with rfl | ⟨n, hn⟩
  · exact Nat.zero_le _
  · exact h n k hn

theorem depth_le (looping : Bool) (n : ν) : depth S g looping n ≤ 2 * g.vertices.length + 1 := by
  have hle := rank_le (r := Forward S g) (l := g.vertices) n
  rw [depth]
  split
  · omega
  · omega

/-- Against an edge the calls get less deep. -/
theorem Acyclic.depth_lt (h : Acyclic S g) (he : g.Joins e u v)
    (hskip : (looping && S.isBackEdge e) = false) :
    depth S g (looping || S.isBackEdge e) u < depth S g looping v := by
  cases hb : S.isBackEdge e with
  | false =>
    rw [Bool.or_false]
    exact Nat.add_lt_add_right (rank_lt h he.left ⟨e, he, hb⟩) _
  | true =>
    rw [hb, Bool.and_true] at hskip
    subst hskip
    have hle := rank_le (r := Forward S g) (l := g.vertices) u
    simp only [depth, Bool.or_true, if_true, Bool.false_eq_true, if_false]
    omega

variable [DecidableEq ν] {t : PathLengths ν} {n : ν} {len fuel : Nat}

/-- A node goes into the queue for an edge that has been visited. -/
theorem queue_visitInEdges (xs : List (ε × Nat × ν))
    (acc : PathLengths ν × List (PathLengthHelper ν)) (helper : PathLengthHelper ν)
    (h : helper ∈ (xs.foldl (visitInEdge S node len looping) acc).2) :
    helper ∈ acc.2 ∨ ∃ x ∈ xs, (looping && S.isBackEdge x.1) = false ∧ helper.node = x.2.2 ∧
      helper.looping = (looping || S.isBackEdge x.1) := by
  induction xs generalizing acc with
  | nil => exact .inl h
  | cons x xs ih =>
    rw [List.foldl_cons] at h
    rcases ih _ h with h | ⟨y, hy, hfrom⟩
    · rw [visitInEdge] at h
      split at h
      · exact .inl h
      · next hskip =>
        dsimp only at h
        split at h
        · rcases List.mem_append.1 h with h | h
          · exact .inl h
          · rw [List.mem_singleton] at h
            subst h
            exact .inr ⟨x, List.mem_cons_self, Bool.eq_false_of_not_eq_true hskip, rfl, rfl⟩
        · exact .inl h
    · exact .inr ⟨y, List.mem_cons_of_mem _ hy, hfrom⟩

/-- The recursion ends, since no path follows an edge twice that is no back edge. -/
theorem calculateSinkDistance_ends (hg : g.Placed) (hacyclic : Acyclic S g) (hlight : Light S g)
    (hn : ∃ nd, g.IsAt node nd) (hpath : SinkPath S g looping node len) (ht : Attained S g t)
    (hfuel : depth S g looping node < fuel) :
    ∃ t', calculateSinkDistance S g fuel node len looping t = some t' ∧ Attained S g t' := by
  induction fuel generalizing node len looping t with
  | zero => exact absurd hfuel (Nat.not_lt_zero _)
  | succ fuel ih =>
    suffices h : ∃ t', calculateSinkDistance S g (fuel + 1) node len looping t = some t' by
      obtain ⟨t', ht'⟩ := h
      exact ⟨t', ht', calculateSinkDistance_attained hg hn hpath ht ht'⟩
    rw [calculateSinkDistance, if_neg (Nat.not_lt.2 (hlight.weighs hpath.weighs))]
    split
    · exact ⟨t, rfl⟩
    · obtain ⟨nd, hnd⟩ := hn
      rw [hnd.2]
      have hnext := attainedQueue_inEnds hg hnd hpath ht
      apply Option.foldlM_exists (Attained S g) _ hnext.lengths
      intro helper hmem s hs
      rw [byPriority, List.mem_insertionSort] at hmem
      obtain ⟨hat, hnode⟩ := hnext.queue helper hmem
      apply ih hat hnode hs
      rcases queue_visitInEdges _ _ helper hmem with h | ⟨x, hx, hskip, heq, hloop⟩
      · exact absurd h List.not_mem_nil
      · rw [heq, hloop]
        have hlt := hacyclic.depth_lt (hg.joins_inEnds hnd hx).1 hskip
        exact Nat.lt_of_lt_of_le hlt (Nat.le_of_lt_succ hfuel)

theorem calculateSinkDistances_ends (hg : g.Wf) (hacyclic : Acyclic S g) (hlight : Light S g)
    (ht : Attained S g t) (hfuel : 2 * g.vertices.length + 1 < fuel) :
    ∃ t', calculateSinkDistances S g fuel t = some t' := by
  rw [calculateSinkDistances]
  obtain ⟨_, hfrom, _⟩ := startSink_foldl (S := S) (g := g) g.vertices.zipIdx.reverse (t, [])
  have hstart := attained_startSinks (S := S) g.vertices.zipIdx.reverse (t, []) ht
  generalize g.vertices.zipIdx.reverse.foldl (startSink S g) (t, []) = start at hfrom hstart
  apply Option.foldlM_exists (Attained S g) _ hstart
  intro helper hmem s hs
  rw [byPriority, List.mem_insertionSort] at hmem
  rcases hfrom helper hmem with hmem | ⟨x, hx, heq⟩
  · exact absurd hmem List.not_mem_nil
  · rw [List.mem_reverse, List.mem_zipIdx_iff_getElem?] at hx
    apply calculateSinkDistance_ends hg.placed hacyclic hlight ⟨x.2, heq ▸ hg.isAt hx⟩ .stop hs
    exact Nat.lt_of_le_of_lt (depth_le false helper.node) hfuel

/-- How much longer a source distance may still get. -/
def slack (t : PathLengths ν) (b : Bool) (n : ν) : Nat :=
  match t.find .source b n with
  | some l => 26000 - l
  | none => 26001

/-- How often the loops of `calculateSourceDistances` go round at most. -/
def left (g : BoostGraph ν ε) (s : SourceSearch ν) : Nat :=
  total (fun n => slack s.lengths false n + slack s.lengths true n) g.vertices +
    ((s.queueOf false).length + (s.queueOf true).length)

theorem slack_le (t : PathLengths ν) (b : Bool) (n : ν) : slack t b n ≤ 26001 := by
  rw [slack]
  split
  · omega
  · exact Nat.le_refl _

theorem slack_store (hshort : isShorter (t.find .source b n) len = true) (hlen : len ≤ 26000)
    (b' : Bool) (m : ν) :
    slack (t.store .source b n len) b' m ≤ slack t b' m ∧
      (b' = b → m = n → slack (t.store .source b n len) b' m < slack t b' m) := by
  rw [slack, slack, find_store]
  by_cases h : b' = b ∧ m = n
  · obtain ⟨rfl, rfl⟩ := h
    rw [if_pos ⟨rfl, rfl, rfl⟩]
    have hlt : 26000 - len < match t.find .source b' m with
        | some l => 26000 - l
        | none => 26001 := by
      cases hf : t.find .source b' m with
      | none => exact Nat.lt_succ_of_le (Nat.sub_le _ _)
      | some l =>
        rw [hf] at hshort
        have hlt : l < len := of_decide_eq_true hshort
        exact Nat.sub_lt_sub_left (Nat.lt_of_lt_of_le hlt hlen) hlt
    exact ⟨Nat.le_of_lt hlt, fun _ _ => hlt⟩
  · rw [if_neg fun h' => h ⟨h'.2.1, h'.2.2⟩]
    exact ⟨Nat.le_refl _, fun hb hm => absurd ⟨hb, hm⟩ h⟩

theorem length_enqueue (queue : List (Nat × Nat)) :
    (SourceSearch.enqueue nd len queue).length ≤ queue.length + 1 := by
  induction queue with
  | nil => exact Nat.le_refl _
  | cons x queue ih =>
    rw [SourceSearch.enqueue]
    split
    · exact Nat.le_refl _
    · split
      · exact Nat.le_succ _
      · exact Nat.succ_le_succ ih

/-- What goes into a queue has made a distance longer. -/
theorem left_visitOutEdge (s : SourceSearch ν) (x : ε × Nat × ν)
    (hlen : (looping && S.isBackEdge x.1) = false → len + S.edgeWeight x.1 x.2.2 ≤ 26000)
    (hx : x.2.2 ∈ g.vertices) : left g (visitOutEdge S len looping s x) ≤ left g s := by
  rw [visitOutEdge]
  split
  · exact Nat.le_refl _
  · next hskip =>
    have hlen := hlen (Bool.eq_false_of_not_eq_true hskip)
    generalize len + S.edgeWeight x.1 x.2.2 = destLen at hlen ⊢
    generalize (looping || S.isBackEdge x.1) = loop
    have hslack : ∀ b n, slack (if looping then s.lengths else s.lengths.raiseHeight destLen) b n =
        slack s.lengths b n := by
      intro b n
      split
      · rfl
      · rw [slack, slack, find_raiseHeight]
    dsimp only
    generalize (if looping then s.lengths else s.lengths.raiseHeight destLen) = t at hslack ⊢
    have htotal : total (fun n => slack t false n + slack t true n) g.vertices =
        total (fun n => slack s.lengths false n + slack s.lengths true n) g.vertices := by
      simp only [hslack]
    split
    · next hshort =>
      have hstore := slack_store hshort hlen
      have hlt : total (fun n => slack (t.store .source loop x.2.2 destLen) false n +
            slack (t.store .source loop x.2.2 destLen) true n) g.vertices <
          total (fun n => slack t false n + slack t true n) g.vertices := by
        apply total_lt _ hx
        · cases loop with
          | false =>
            exact Nat.add_lt_add_of_lt_of_le ((hstore false x.2.2).2 rfl rfl) (hstore true x.2.2).1
          | true =>
            exact Nat.add_lt_add_of_le_of_lt (hstore false x.2.2).1 ((hstore true x.2.2).2 rfl rfl)
        · exact fun n _ => Nat.add_le_add (hstore false n).1 (hstore true n).1
      have hqueue : (SourceSearch.enqueue x.2.1 destLen (s.queueOf loop)).length ≤
          (s.queueOf loop).length + 1 := length_enqueue _
      have hsame := fun b => @queueOf_congr ν (t.store .source loop x.2.2 destLen) b s
      rw [left, left, lengths_setQueue, queueOf_setQueue, queueOf_setQueue, hsame, hsame]
      cases loop with
      | false =>
        simp only [if_true, Bool.true_eq_false, if_false]
        omega
      | true =>
        simp only [if_true, Bool.false_eq_true, if_false]
        omega
    · rw [left, left, queueOf_congr, queueOf_congr]
      exact Nat.le_of_eq (congrArg (· + _) htotal)

theorem left_visitOutEdges (hg : g.Placed) (hlight : Light S g) {s : SourceSearch ν}
    (hs : Following S g s) (hat : g.IsAt n nd) (hpath : SourcePath S g looping n len)
    {xs : List (ε × Nat × ν)} (hxs : ∀ x ∈ xs, x ∈ g.outEnds nd) :
    left g (xs.foldl (visitOutEdge S len looping) s) ≤ left g s := by
  induction xs generalizing s with
  | nil => exact Nat.le_refl _
  | cons x xs ih =>
    obtain ⟨hx, hxs⟩ := List.forall_mem_cons.1 hxs
    obtain ⟨hjoins, hhead⟩ := hg.joins_outEnds hat hx
    apply Nat.le_trans (ih (hs.visitOutEdge hpath hjoins hhead) hxs)
    apply left_visitOutEdge s x
    · exact fun hskip => hlight.weighs (hpath.visit hjoins hskip).weighs
    · exact List.mem_of_getElem? hhead.1

theorem left_pop {s : SourceSearch ν} {queue : List (Nat × Nat)}
    (hqueue : s.queueOf b = x :: queue) : left g (s.setQueue b queue) + 1 = left g s := by
  rw [left, left, lengths_setQueue, queueOf_setQueue, queueOf_setQueue]
  cases b with
  | false =>
    rw [hqueue, List.length_cons]
    simp only [if_true, Bool.true_eq_false, if_false]
    omega
  | true =>
    rw [hqueue, List.length_cons]
    simp only [if_true, Bool.false_eq_true, if_false]
    omega

/-- The loops end, since no distance gets longer than the longest path. -/
theorem followSources_ends (hg : g.Placed) (hlight : Light S g) {s : SourceSearch ν}
    (hs : Following S g s) (hfuel : left g s ≤ fuel) :
    ∃ s', followSources S g looping fuel s = some s' ∧ left g s' ≤ left g s := by
  induction fuel generalizing s with
  | zero =>
    have hlen : (s.queueOf looping).length = 0 := by
      rw [left] at hfuel
      cases looping with
      | false => omega
      | true => omega
    rw [followSources, List.length_eq_zero_iff.1 hlen]
    exact ⟨s, rfl, Nat.le_refl _⟩
  | succ fuel ih =>
    rw [followSources]
    split
    · exact ⟨s, rfl, Nat.le_refl _⟩
    · next nd len queue hqueue =>
      obtain ⟨n, hat, hpath⟩ : ∃ n, g.IsAt n nd ∧ SourcePath S g looping n len :=
        hs.queue looping (nd, len) (hqueue ▸ List.mem_cons_self)
      have hpop := left_pop (g := g) hqueue
      have hnext := hs.pop hqueue
      have hle : left g ((g.outEnds nd).foldl (visitOutEdge S len looping)
          (s.setQueue looping queue)) ≤ left g (s.setQueue looping queue) :=
        left_visitOutEdges hg hlight hnext hat hpath fun _ hx => hx
      obtain ⟨s', hs', hle'⟩ := ih (hnext.visitOutEdges hg hat hpath fun _ hx => hx) (by omega)
      exact ⟨s', hs', by omega⟩

theorem length_startSources (xs : List (ν × Nat)) (s : SourceSearch ν) :
    ((xs.foldl (startSource S g len) s).queueOf false).length +
        ((xs.foldl (startSource S g len) s).queueOf true).length ≤
      (s.queueOf false).length + (s.queueOf true).length + xs.length := by
  induction xs generalizing s with
  | nil => exact Nat.le_refl _
  | cons x xs ih =>
    rw [List.foldl_cons, List.length_cons]
    apply Nat.le_trans (ih _)
    rw [startSource]
    split
    · omega
    · have hqueue : (SourceSearch.enqueue x.2 len s.queue).length ≤ s.queue.length + 1 :=
        length_enqueue _
      simp only [SourceSearch.queueOf, Bool.false_eq_true, if_false, if_true]
      omega

theorem left_le (s : SourceSearch ν) : left g s ≤
    52002 * g.vertices.length + ((s.queueOf false).length + (s.queueOf true).length) := by
  rw [left, ← total_const 52002]
  apply Nat.add_le_add_right
  apply total_le
  intro n _
  exact Nat.add_le_add (slack_le s.lengths false n) (slack_le s.lengths true n)

theorem calculateSourceDistances_ends (hg : g.Wf) (hlight : Light S g) (ht : Attained S g t)
    (hfuel : 52003 * g.vertices.length ≤ fuel) :
    ∃ t', calculateSourceDistances S g fuel none 0 false t = some t' := by
  have hstart : Starts S g false 0 none := rfl
  obtain ⟨s, hs⟩ : ∃ s, startSources S g none 0 false (t.raiseHeight 0) = some s := ⟨_, rfl⟩
  have hfollow := following_startSources hg ht hstart hs
  have hleft : left g s ≤ fuel := by
    have hle := left_le (g := g) s
    cases hs
    have hqueue : ((g.vertices.zipIdx.foldl (startSource S g 0)
          ⟨t.raiseHeight 0, [], []⟩).queueOf false).length +
        ((g.vertices.zipIdx.foldl (startSource S g 0)
          ⟨t.raiseHeight 0, [], []⟩).queueOf true).length ≤ 0 + 0 + g.vertices.zipIdx.length :=
      length_startSources _ _
    rw [List.length_zipIdx] at hqueue
    omega
  obtain ⟨s₁, h₁, hle₁⟩ : ∃ s₁, followSources S g false fuel s = some s₁ ∧ left g s₁ ≤ left g s :=
    followSources_ends hg.placed hlight hfollow hleft
  have hfollow₁ := hfollow.followSources hg.placed h₁
  obtain ⟨s₂, h₂, _⟩ : ∃ s₂, followSources S g true fuel s₁ = some s₂ ∧ left g s₂ ≤ left g s₁ :=
    followSources_ends hg.placed hlight hfollow₁ (Nat.le_trans hle₁ hleft)
  exact ⟨s₂.lengths, by rw [calculateSourceDistances, hs]; simp [h₁, h₂]⟩

/-- With enough fuel the lengths of a graph whose cycles all have a back edge are calculated. -/
theorem calculatePathLengths_ends (hg : g.Wf) (hacyclic : Acyclic S g) (hlight : Light S g)
    (hsort : S.allowLoopEdges = false → ∃ order, S.topologicalSort g = some order)
    (ht : Attained S g t) (hfuel : 52003 * g.vertices.length + 2 ≤ fuel) :
    ∃ t', calculatePathLengths S g fuel t = some t' := by
  obtain ⟨t₁, h₁⟩ := calculateSourceDistances_ends hg hlight ht (by omega : _ ≤ fuel)
  have hstart : Starts S g false 0 none := rfl
  have ht₁ := calculateSourceDistances_attained hg ht hstart h₁
  rw [calculatePathLengths, h₁]
  cases hallow : S.allowLoopEdges with
  | true =>
    simp only [if_true]
    exact calculateSinkDistances_ends hg hacyclic hlight ht₁ (by omega)
  | false =>
    obtain ⟨order, horder⟩ := hsort hallow
    exact ⟨calculatePathLengthsFast S g order t₁, by simp [horder]⟩

end BoostGraph

end OpenAsip
