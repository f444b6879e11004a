import OpenAsip.PathGraphRuns

namespace OpenAsip
set_option autoImplicit true

namespace BoostGraph
open PathLengths
variable {ν ε : Type} {S : GraphSetup ν ε} {g g' : BoostGraph ν ε}

/-- The weight of a path from a node, which may go through one back edge or through none. -/
inductive SinkPath (S : GraphSetup ν ε) (g : BoostGraph ν ε) : Bool → ν → Nat → Prop
  | stop : SinkPath S g b n 0
  | forward : g.Joins e u v → S.isBackEdge e = false → SinkPath S g b v k →
    SinkPath S g b u (k + S.edgeWeight e v)
  | back : g.Joins e u v → S.isBackEdge e = true → SinkPath S g false v k →
    SinkPath S g true u (k + S.edgeWeight e v)

/-- The weight of such a path to a node. -/
inductive SourcePath (S : GraphSetup ν ε) (g : BoostGraph ν ε) : Bool → ν → Nat → Prop
  | start : SourcePath S g b n 0
  | forward : SourcePath S g b u k → g.Joins e u v → S.isBackEdge e = false →
    SourcePath S g b v (k + S.edgeWeight e v)
  | back : SourcePath S g false u k → g.Joins e u v → S.isBackEdge e = true →
    SourcePath S g true v (k + S.edgeWeight e v)

theorem SinkPath.mono (hjoins : ∀ e u v, g.Joins e u v → g'.Joins e u v)
    (h : SinkPath S g b n k) : SinkPath S g' b n k := by
  induction h with
  | stop => exact .stop
  | forward he hb _ ih => exact .forward (hjoins _ _ _ he) hb ih
  | back he hb _ ih => exact .back (hjoins _ _ _ he) hb ih

theorem SourcePath.mono (hjoins : ∀ e u v, g.Joins e u v → g'.Joins e u v)
    (h : SourcePath S g b n k) : SourcePath S g' b n k := by
  induction h with
  | start => exact .start
  | forward _ he hb ih => exact .forward ih (hjoins _ _ _ he) hb
  | back _ he hb ih => exact .back ih (hjoins _ _ _ he) hb

theorem SinkPath.relax (h : SinkPath S g b n k) : SinkPath S g true n k := by
  induction h with
  | stop => exact .stop
  | forward he hb _ ih => exact .forward he hb ih
  | back he hb hp _ => exact .back he hb hp

/-- A path that is made longer by an edge into its first node. -/
theorem SinkPath.visit (h : SinkPath S g looping v len) (he : g.Joins e u v)
    (hskip : (looping && S.isBackEdge e) = false) :
    SinkPath S g (looping || S.isBackEdge e) u (len + S.edgeWeight e v) := by
  cases hb : S.isBackEdge e with
  | false =>
    rw [Bool.or_false]
    exact .forward he hb h
  | true =>
    rw [hb, Bool.and_true] at hskip
    rw [Bool.or_true]
    exact .back he hb (hskip ▸ h)

/-- A path that is made longer by an edge out of its last node. -/
theorem SourcePath.visit (h : SourcePath S g looping u len) (he : g.Joins e u v)
    (hskip : (looping && S.isBackEdge e) = false) :
    SourcePath S g (looping || S.isBackEdge e) v (len + S.edgeWeight e v) := by
  cases hb : S.isBackEdge e with
  | false =>
    rw [Bool.or_false]
    exact .forward h he hb
  | true =>
    rw [hb, Bool.and_true] at hskip
    rw [Bool.or_true]
    exact .back (hskip ▸ h) he hb

/-- A path to a node and one from it that do not both go through a back edge. -/
theorem SourcePath.append (h : SourcePath S g b n k) (hb : b = true → b' = false)
    (hpath : SinkPath S g b' n k') : ∃ m, SinkPath S g (b || b') m (k' + k) := by
  induction h generalizing b' k' with
  | @start b n =>
    refine ⟨n, ?_⟩
    rw [Nat.add_zero]
    cases b with
    | false => exact hpath
    | true => exact hpath.relax
  | @forward b u k e v _ he hforward ih =>
    obtain ⟨m, hm⟩ := ih hb (.forward he hforward hpath)
    exact ⟨m, by rwa [Nat.add_assoc, Nat.add_comm (S.edgeWeight e v)] at hm⟩
  | @back u k e v _ he hback ih =>
    cases hb rfl
    obtain ⟨m, hm⟩ := ih (by simp) (.back he hback hpath)
    exact ⟨m, by rwa [Nat.add_assoc, Nat.add_comm (S.edgeWeight e v)] at hm⟩

/-- The weight of some path with at most one back edge. -/
def Weighs (S : GraphSetup ν ε) (g : BoostGraph ν ε) (k : Nat) : Prop :=
  k = 0 ∨ ∃ n, SinkPath S g true n k

theorem SinkPath.weighs (h : SinkPath S g b n k) : Weighs S g k :=
  .inr ⟨n, h.relax⟩

theorem SourcePath.weighs (h : SourcePath S g b n k) : Weighs S g k := by
  have hstop : SinkPath S g false n 0 := .stop
  obtain ⟨m, hm⟩ := h.append (fun _ => rfl) hstop
  rw [Nat.zero_add] at hm
  exact hm.weighs

variable [DecidableEq ν] {t t' : PathLengths ν} {n : ν} {len fuel : Nat}

/-- Every distance is the weight of a path, and so is the height. -/
structure Attained (S : GraphSetup ν ε) (g : BoostGraph ν ε) (t : PathLengths ν) : Prop where
  sink : ∀ b n l, t.find .sink b n = some l → SinkPath S g b n l
  source : ∀ b n l, t.find .source b n = some l → SourcePath S g b n l
  height : ∀ h, t.height = some h → Weighs S g h

theorem Attained.mono (h : Attained S g t) (hjoins : ∀ e u v, g.Joins e u v → g'.Joins e u v) :
    Attained S g' t where
  sink b n l hl := (h.sink b n l hl).mono hjoins
  source b n l hl := (h.source b n l hl).mono hjoins
  height k hk := (h.height k hk).imp id fun ⟨n, hn⟩ => ⟨n, hn.mono hjoins⟩

theorem Attained.storeSink (h : Attained S g t) (hpath : SinkPath S g b n len) :
    Attained S g (t.store .sink b n len) where
  sink b' m l hl := by
    rw [find_store] at hl
    split at hl
    · next heq =>
      obtain ⟨_, rfl, rfl⟩ := heq
      cases hl
      exact hpath
    · exact h.sink b' m l hl
  source b' m l hl := by
    rw [find_store, if_neg (by simp)] at hl
    exact h.source b' m l hl
  height k hk := h.height k (height_store.symm.trans hk)

theorem Attained.storeSource (h : Attained S g t) (hpath : SourcePath S g b n len) :
    Attained S g (t.store .source b n len) where
  sink b' m l hl := by
    rw [find_store, if_neg (by simp)] at hl
    exact h.sink b' m l hl
  source b' m l hl := by
    rw [find_store] at hl
    split at hl
    · next heq =>
      obtain ⟨_, rfl, rfl⟩ := heq
      cases hl
      exact hpath
    · exact h.source b' m l hl
  height k hk := h.height k (height_store.symm.trans hk)

theorem Attained.raiseHeight (h : Attained S g t) (hk : Weighs S g len) :
    Attained S g (t.raiseHeight len) where
  sink b n l hl := h.sink b n l (find_raiseHeight.symm.trans hl)
  source b n l hl := h.source b n l (find_raiseHeight.symm.trans hl)
  height k hk' := by
    cases hk'
    rcases Nat.le_total (t.height.getD 0) len with hle | hle
    · rwa [Nat.max_eq_right hle]
    · rw [Nat.max_eq_left hle]
      cases hheight : t.height with
      | none => exact .inl rfl
      | some l => exact h.height l hheight

theorem Attained.sinkPath (ht : Attained S g t) (b : Bool) (n : ν) :
    SinkPath S g b n (t.distance .sink b n) := by
  rw [distance]
  cases hf : t.find .sink b n with
  | none => exact .stop
  | some l => exact ht.sink b n l hf

theorem Attained.sourcePath (ht : Attained S g t) (b : Bool) (n : ν) :
    SourcePath S g b n (t.distance .source b n) := by
  rw [distance]
  cases hf : t.find .source b n with
  | none => exact .start
  | some l => exact ht.source b n l hf

theorem Attained.touch (h : Attained S g t) (side : PathEnd) (b : Bool) (n : ν) :
    Attained S g (t.touch side b n) where
  sink b' m l hl := by
    rw [find_touch] at hl
    split at hl
    · next heq =>
      obtain ⟨rfl, rfl, rfl⟩ := heq
      cases hl
      exact h.sinkPath b' m
    · exact h.sink b' m l hl
  source b' m l hl := by
    rw [find_touch] at hl
    split at hl
    · next heq =>
      obtain ⟨rfl, rfl, rfl⟩ := heq
      cases hl
      exact h.sourcePath b' m
    · exact h.source b' m l hl
  height k hk := h.height k (height_touch.symm.trans hk)

/-- The lengths in the tables and in the queue are those of paths. -/
structure AttainedQueue (S : GraphSetup ν ε) (g : BoostGraph ν ε)
    (acc : PathLengths ν × List (PathLengthHelper ν)) : Prop where
  lengths : Attained S g acc.1
  queue : ∀ helper ∈ acc.2, (∃ nd, g.IsAt helper.node nd) ∧
    SinkPath S g helper.looping helper.node helper.len

theorem AttainedQueue.visitInEdge {acc : PathLengths ν × List (PathLengthHelper ν)}
    (h : AttainedQueue S g acc) (hnode : SinkPath S g looping node len) {x : ε × Nat × ν}
    (hx : g.Joins x.1 x.2.2 node) (hat : g.IsAt x.2.2 x.2.1) :
    AttainedQueue S g (visitInEdge S node len looping acc x) := by
  rw [BoostGraph.visitInEdge]
  split
  · exact h
  · next hskip =>
    have hpath := hnode.visit hx (Bool.eq_false_of_not_eq_true hskip)
    have hraise : Attained S g (acc.1.raiseHeight (len + S.edgeWeight x.1 node)) :=
      h.lengths.raiseHeight hpath.weighs
    dsimp only
    split
    · have hlengths := (hraise.storeSink hpath).touch .source false x.2.2
      refine ⟨hlengths, fun helper hmem => ?_⟩
      rcases List.mem_append.1 hmem with hmem | hmem
      · exact h.queue helper hmem
      · rw [List.mem_singleton] at hmem
        subst hmem
        exact ⟨⟨_, hat⟩, hpath⟩
    · exact ⟨hraise, h.queue⟩

theorem AttainedQueue.visitInEdges {acc : PathLengths ν × List (PathLengthHelper ν)}
    (h : AttainedQueue S g acc) (hg : g.Placed) (hat : g.IsAt node nd)
    (hnode : SinkPath S g looping node len) {xs : List (ε × Nat × ν)}
    (hxs : ∀ x ∈ xs, x ∈ g.inEnds nd) :
    AttainedQueue S g (xs.foldl (BoostGraph.visitInEdge S node len looping) acc) := by
  induction xs generalizing acc with
  | nil => exact h
  | cons x xs ih =>
    obtain ⟨hx, hxs⟩ := List.forall_mem_cons.1 hxs
    obtain ⟨hjoins, htail⟩ := hg.joins_inEnds hat hx
    exact ih (h.visitInEdge hnode hjoins htail) hxs

/-- The round of `calculateSinkDistance` over the edges into a node. -/
theorem attainedQueue_inEnds (hg : g.Placed) (hat : g.IsAt node nd)
    (hnode : SinkPath S g looping node len) (ht : Attained S g t) :
    AttainedQueue S g ((g.inEnds nd).foldl (visitInEdge S node len looping)
      ((t.store .sink looping node len).raiseHeight len, [])) := by
  have hstart : Attained S g ((t.store .sink looping node len).raiseHeight len) :=
    (ht.storeSink hnode).raiseHeight hnode.weighs
  have hqueue : AttainedQueue S g ((t.store .sink looping node len).raiseHeight len, []) :=
    ⟨hstart, fun _ h => absurd h List.not_mem_nil⟩
  exact hqueue.visitInEdges hg hat hnode fun _ hx => hx

theorem calculateSinkDistance_attained (hg : g.Placed) (hn : ∃ nd, g.IsAt node nd)
    (hpath : SinkPath S g looping node len) (ht : Attained S g t)
    (h : calculateSinkDistance S g fuel node len looping t = some t') : Attained S g t' := by
  induction fuel generalizing node len looping t t' with
  | zero => cases h
  | succ fuel ih =>
    rw [calculateSinkDistance] at h
    split at h
    · cases h
    · split at h
      · cases h
        exact ht
      · obtain ⟨nd, hnd⟩ := hn
        obtain ⟨nd', hnd', h⟩ := Option.bind_eq_some_iff.1 h
        cases hnd.2.symm.trans hnd'
        have hnext := attainedQueue_inEnds hg hnd hpath ht
        apply Option.foldlM_invariant _ _ hnext.lengths h
        intro helper hmem s s' hs hcall
        rw [byPriority, List.mem_insertionSort] at hmem
        obtain ⟨hat, hpath⟩ := hnext.queue helper hmem
        exact ih hat hpath hs hcall

/-- What is in the tables and in the queues is the weight of a path. -/
structure Following (S : GraphSetup ν ε) (g : BoostGraph ν ε) (s : SourceSearch ν) : Prop where
  lengths : Attained S g s.lengths
  queue : ∀ b x, x ∈ s.queueOf b → ∃ n, g.IsAt n x.1 ∧ SourcePath S g b n x.2

theorem mem_enqueue {queue : List (Nat × Nat)} (h : x ∈ SourceSearch.enqueue nd len queue) :
    x = (nd, len) ∨ x ∈ queue := by
  induction queue with
  | nil => exact .inl (List.mem_singleton.1 h)
  | cons y queue ih =>
    obtain ⟨nd', len'⟩ := y
    rw [SourceSearch.enqueue] at h
    split at h
    · exact (List.mem_cons.1 h).imp id id
    · split at h
      · next heq =>
        subst heq
        rcases List.mem_cons.1 h with h | h
        · rcases Nat.le_total len' len with hle | hle
          · rw [Nat.max_eq_right hle] at h
            exact .inl h
          · rw [Nat.max_eq_left hle] at h
            exact .inr (h ▸ List.mem_cons_self)
        · exact .inr (List.mem_cons_of_mem _ h)
      · rcases List.mem_cons.1 h with rfl | h
        · exact .inr List.mem_cons_self
        · exact (ih h).imp id (List.mem_cons_of_mem _)

omit [DecidableEq ν] in
theorem queueOf_setQueue {s : SourceSearch ν} {queue : List (Nat × Nat)} :
    (s.setQueue b queue).queueOf b' = if b' = b then queue else s.queueOf b' := by
  cases b <;> cases b' <;> rfl

omit [DecidableEq ν] in
theorem queueOf_congr {s : SourceSearch ν} :
    ({ s with lengths := t } : SourceSearch ν).queueOf b = s.queueOf b := by
  cases b <;> rfl

theorem Following.setQueue {s : SourceSearch ν} (hs : Following S g s)
    (ht : Attained S g t) {queue : List (Nat × Nat)}
    (hqueue : ∀ x ∈ queue, ∃ n, g.IsAt n x.1 ∧ SourcePath S g b n x.2) :
    Following S g ({ s with lengths := t }.setQueue b queue) where
  lengths := by rwa [lengths_setQueue]
  queue b' x hx := by
    rw [queueOf_setQueue] at hx
    split at hx
    · next heq => exact heq ▸ hqueue x hx
    · exact hs.queue b' x (queueOf_congr (t := t) ▸ hx)

theorem Following.visitOutEdge {s : SourceSearch ν} (hs : Following S g s)
    (hpath : SourcePath S g looping n len) {x : ε × Nat × ν} (hx : g.Joins x.1 n x.2.2)
    (hat : g.IsAt x.2.2 x.2.1) : Following S g (visitOutEdge S len looping s x) := by
  rw [BoostGraph.visitOutEdge]
  split
  · exact hs
  · next hskip =>
    have hnext := hpath.visit hx (Bool.eq_false_of_not_eq_true hskip)
    have hlengths : Attained S g (if looping then s.lengths
        else s.lengths.raiseHeight (len + S.edgeWeight x.1 x.2.2)) := by
      split
      · exact hs.lengths
      · exact hs.lengths.raiseHeight hnext.weighs
    dsimp only
    generalize (if looping then s.lengths
      else s.lengths.raiseHeight (len + S.edgeWeight x.1 x.2.2)) = t at hlengths ⊢
    split
    · apply hs.setQueue (hlengths.storeSource hnext)
      intro y hy
      rcases mem_enqueue hy with rfl | hy
      · exact ⟨x.2.2, hat, hnext⟩
      · exact hs.queue _ y hy
    · exact ⟨hlengths, fun b y hy => hs.queue b y (queueOf_congr (t := t) ▸ hy)⟩

theorem Following.visitOutEdges {s : SourceSearch ν} (hs : Following S g s) (hg : g.Placed)
    (hat : g.IsAt n nd) (hpath : SourcePath S g looping n len) {xs : List (ε × Nat × ν)}
    (hxs : ∀ x ∈ xs, x ∈ g.outEnds nd) :
    Following S g (xs.foldl (BoostGraph.visitOutEdge S len looping) s) := by
  induction xs generalizing s with
  | nil => exact hs
  | cons x xs ih =>
    obtain ⟨hx, hxs⟩ := List.forall_mem_cons.1 hxs
    obtain ⟨hjoins, hhead⟩ := hg.joins_outEnds hat hx
    exact ih (hs.visitOutEdge hpath hjoins hhead) hxs

theorem Following.pop {s : SourceSearch ν} {queue : List (Nat × Nat)} (hs : Following S g s)
    (hqueue : s.queueOf b = x :: queue) : Following S g (s.setQueue b queue) :=
  hs.setQueue hs.lengths fun y hy =>
    hs.queue b y (hqueue ▸ List.mem_cons_of_mem _ hy)

theorem Following.followSources {s s' : SourceSearch ν} (hs : Following S g s) (hg : g.Placed)
    (h : followSources S g looping fuel s = some s') : Following S g s' := by
  induction fuel generalizing s with
  | zero =>
    rw [BoostGraph.followSources] at h
    split at h
    · cases h
      exact hs
    · cases h
  | succ fuel ih =>
    rw [BoostGraph.followSources] at h
    split at h
    · cases h
      exact hs
    · next nd len queue hqueue =>
      obtain ⟨n, hat, hpath⟩ := hs.queue looping (nd, len) (hqueue ▸ List.mem_cons_self)
      exact ih ((hs.pop hqueue).visitOutEdges hg hat hpath fun _ hx => hx) h

theorem Following.startSource {s : SourceSearch ν} (hs : Following S g s) {x : ν × Nat}
    (hat : g.IsAt x.1 x.2) : Following S g (startSource S g 0 s x) := by
  rw [BoostGraph.startSource]
  split
  · exact hs
  · have hlengths : Attained S g (s.lengths.store .source false x.1 0) :=
      hs.lengths.storeSource .start
    refine ⟨hlengths, fun b y hy => ?_⟩
    cases b with
    | false =>
      rcases mem_enqueue hy with rfl | hy
      · exact ⟨x.1, hat, .start⟩
      · exact hs.queue false y hy
    | true => exact hs.queue true y hy

theorem Following.startSources (hg : g.Wf) {xs : List (ν × Nat)}
    (hxs : ∀ x ∈ xs, x ∈ g.vertices.zipIdx) {s : SourceSearch ν} (hs : Following S g s) :
    Following S g (xs.foldl (BoostGraph.startSource S g 0) s) := by
  induction xs generalizing s with
  | nil => exact hs
  | cons x xs ih =>
    obtain ⟨hx, hxs⟩ := List.forall_mem_cons.1 hxs
    exact ih hxs (hs.startSource (hg.isAt (List.mem_zipIdx_iff_getElem?.1 hx)))

theorem following_start (ht : Attained S g t) : Following S g ⟨t, [], []⟩ where
  lengths := ht
  queue b x hx := by cases b <;> exact absurd hx List.not_mem_nil

/-- The search starts at every source, or at a node that a path of the length leads to. -/
def Starts (S : GraphSetup ν ε) (g : BoostGraph ν ε) (looping : Bool) (len : Nat) :
    Option ν → Prop
  | some n => (∃ nd, g.IsAt n nd) ∧ SourcePath S g looping n len
  | none => len = 0

theorem following_startSources (hg : g.Wf) (ht : Attained S g t) {startingNode : Option ν}
    (hstart : Starts S g looping len startingNode) {s : SourceSearch ν}
    (h : startSources S g startingNode len looping (t.raiseHeight len) = some s) :
    Following S g s := by
  cases startingNode with
  | none =>
    cases hstart
    cases h
    exact Following.startSources hg (fun _ hx => hx) (following_start (ht.raiseHeight (.inl rfl)))
  | some n =>
    obtain ⟨⟨nd', hat⟩, hpath⟩ := hstart
    obtain ⟨nd, hnd, rfl⟩ := Option.map_eq_some_iff.1 h
    cases hat.2.symm.trans hnd
    have hraise := ht.raiseHeight hpath.weighs
    apply (following_start ht).setQueue (hraise.storeSource hpath)
    intro x hx
    rw [List.mem_singleton] at hx
    subst hx
    exact ⟨n, hat, hpath⟩

theorem calculateSourceDistances_attained (hg : g.Wf) (ht : Attained S g t)
    {startingNode : Option ν} (hstart : Starts S g looping len startingNode)
    (h : calculateSourceDistances S g fuel startingNode len looping t = some t') :
    Attained S g t' := by
  rw [calculateSourceDistances] at h
  obtain ⟨s, hs, h⟩ := Option.bind_eq_some_iff.1 h
  obtain ⟨s₁, h₁, h⟩ := Option.bind_eq_some_iff.1 h
  obtain ⟨s₂, h₂, h⟩ := Option.bind_eq_some_iff.1 h
  cases h
  have hfollow := following_startSources hg ht hstart hs
  exact ((hfollow.followSources hg.placed h₁).followSources hg.placed h₂).lengths

theorem attained_callIf {c : Bool} {call : PathLengths ν → Option (PathLengths ν)}
    (ht : Attained S g t) (hcall : c = true → ∀ t₁, call t = some t₁ → Attained S g t₁)
    (h : callIf c call t = some t') : Attained S g t' := by
  cases c with
  | true => exact hcall rfl t' h
  | false =>
    cases h
    exact ht

theorem calculatePathLengthsOnConnect_attained (hg : g.Wf) (he : g.Joins e nTail nHead)
    (ht : Attained S g t) (h : calculatePathLengthsOnConnect S g fuel nTail nHead e t = some t') :
    Attained S g t' := by
  obtain ⟨td, hd, _, hu, hv⟩ := hg.placed.joins he
  have htail : ∃ nd, g.IsAt nTail nd := ⟨td, hu⟩
  have hhead : ∃ nd, g.IsAt nHead nd := ⟨hd, hv⟩
  rw [calculatePathLengthsOnConnect] at h
  split at h
  · cases h
    exact ht
  · dsimp only at h
    obtain ⟨t₁, h₁, h⟩ := Option.bind_eq_some_iff.1 h
    obtain ⟨t₂, h₂, h⟩ := Option.bind_eq_some_iff.1 h
    obtain ⟨t₃, h₃, h⟩ := Option.bind_eq_some_iff.1 h
    have ht₁ : Attained S g t₁ := by
      apply attained_callIf ht _ h₁
      intro hc t₁ hcall
      rw [Bool.and_eq_true, Bool.not_eq_true'] at hc
      have hpath := (ht.sinkPath true nHead).visit he (by rw [hc.2, Bool.and_false])
      rw [hc.2, Bool.or_false] at hpath
      exact calculateSinkDistance_attained hg.placed htail hpath ht hcall
    have ht₁' : Attained S g
        (if (t.find .sink false nHead).isSome then t₁ else t₁.store .sink false nHead 0) := by
      split
      · exact ht₁
      · exact ht₁.storeSink .stop
    have hpath := (ht₁'.sinkPath false nHead).visit he (Bool.false_and _)
    rw [Bool.false_or] at hpath
    have ht₂ := calculateSinkDistance_attained hg.placed htail hpath ht₁' h₂
    have ht₃ : Attained S g t₃ := by
      apply attained_callIf ht₂ _ h₃
      intro hc t₃ hcall
      rw [Bool.and_eq_true, Bool.not_eq_true'] at hc
      have hpath := (ht₂.sourcePath true nTail).visit he (by rw [hc.2, Bool.and_false])
      rw [hc.2, Bool.or_false] at hpath
      have hstart : Starts S g true _ (some nHead) := ⟨hhead, hpath⟩
      exact calculateSourceDistances_attained hg ht₂ hstart hcall
    have ht₃' : Attained S g
        (if (t.find .source false nTail).isSome then t₃ else t₃.store .source false nTail 0) := by
      split
      · exact ht₃
      · exact ht₃.storeSource .start
    have hpath := (ht₃'.sourcePath false nTail).visit he (Bool.false_and _)
    rw [Bool.false_or] at hpath
    have hstart : Starts S g (S.isBackEdge e) _ (some nHead) := ⟨hhead, hpath⟩
    exact calculateSourceDistances_attained hg ht₃' hstart h

theorem attained_startSinks (xs : List (ν × Nat))
    (acc : PathLengths ν × List (PathLengthHelper ν)) (h : Attained S g acc.1) :
    Attained S g (xs.foldl (startSink S g) acc).1 := by
  induction xs generalizing acc with
  | nil => exact h
  | cons x xs ih =>
    rw [List.foldl_cons]
    apply ih
    rw [startSink]
    split
    · exact h
    · exact h.touch .source false x.1

theorem calculateSinkDistances_attained (hg : g.Wf) (ht : Attained S g t)
    (h : calculateSinkDistances S g fuel t = some t') : Attained S g t' := by
  rw [calculateSinkDistances] at h
  obtain ⟨_, hfrom, _⟩ := startSink_foldl (S := S) (g := g) g.vertices.zipIdx.reverse (t, [])
  have hstart := attained_startSinks (S := S) g.vertices.zipIdx.reverse (t, []) ht
  generalize g.vertices.zipIdx.reverse.foldl (startSink S g) (t, []) = start at h hfrom hstart
  apply Option.foldlM_invariant _ _ hstart h
  intro helper hmem s s' hs hcall
  rw [byPriority, List.mem_insertionSort] at hmem
  rcases hfrom helper hmem with hmem | ⟨x, hx, heq⟩
  · exact absurd hmem List.not_mem_nil
  · rw [List.mem_reverse, List.mem_zipIdx_iff_getElem?] at hx
    exact calculateSinkDistance_attained hg.placed ⟨x.2, heq ▸ hg.isAt hx⟩ .stop hs hcall

theorem calculatePathLengthsFast_attained (hg : g.Wf)
    (hforward : ∀ e u v, g.Joins e u v → S.isBackEdge e = false) (order : List Nat)
    (ht : Attained S g t) : Attained S g (calculatePathLengthsFast S g order t) := by
  rw [calculatePathLengthsFast]
  induction order generalizing t with
  | nil => exact ht
  | cons nd order ih =>
    rw [List.foldl_cons]
    apply ih
    cases hnode : g.vertices[nd]? with
    | none => exact ht
    | some node =>
      have hpath := ht.sinkPath false node
      dsimp only
      generalize t.distance .sink false node = len at hpath ⊢
      have hfold : ∀ (xs : List (ε × Nat × ν)) (t : PathLengths ν), (∀ x ∈ xs, x ∈ g.inEnds nd) →
          Attained S g t → Attained S g (xs.foldl (visitInEdgeFast S node len) t) := by
        intro xs
        induction xs with
        | nil => exact fun _ _ ht => ht
        | cons x xs ihxs =>
          intro t hxs ht
          obtain ⟨hx, hxs⟩ := List.forall_mem_cons.1 hxs
          apply ihxs _ hxs
          have hjoins := (hg.placed.joins_inEnds (hg.isAt hnode) hx).1
          rw [visitInEdgeFast]
          split
          · have hnext := SinkPath.forward hjoins (hforward _ _ _ hjoins) hpath
            exact (ht.storeSink hnext).raiseHeight hnext.weighs
          · exact ht
      exact hfold _ _ (fun _ hx => hx) (ht.touch .sink false node)

theorem calculatePathLengths_attained (hg : g.Wf)
    (hloops : S.allowLoopEdges = false → ∀ e u v, g.Joins e u v → S.isBackEdge e = false)
    (ht : Attained S g t) (h : calculatePathLengths S g fuel t = some t') : Attained S g t' := by
  rw [calculatePathLengths] at h
  obtain ⟨t₁, h₁, h⟩ := Option.bind_eq_some_iff.1 h
  have hstart : Starts S g false 0 none := rfl
  have ht₁ := calculateSourceDistances_attained hg ht hstart h₁
  split at h
  · exact calculateSinkDistances_attained hg ht₁ h
  · next hallow =>
    obtain ⟨order, _, rfl⟩ := Option.map_eq_some_iff.1 h
    exact calculatePathLengthsFast_attained hg
      (hloops (Bool.eq_false_of_not_eq_true hallow)) order ht₁

end BoostGraph

end OpenAsip
