import OpenAsip.PathGraphs
import OpenAsip.SinkDistanceGrowth

namespace OpenAsip
set_option autoImplicit true

/-- What one step preserves holds in the last state of every run that ends. -/
theorem Option.foldlM_invariant {step : σ → α → Option σ} {l : List α} (inv : σ → Prop)
    (hstep : ∀ a ∈ l, ∀ s s', inv s → step s a = some s' → inv s') {s s' : σ} (hs : inv s)
    (h : l.foldlM step s = some s') : inv s' := by
  induction l generalizing s with
  | nil =>
    cases h
    exact hs
  | cons a l ih =>
    rw [List.foldlM_cons] at h
    obtain ⟨s₁, h₁, h⟩ := Option.bind_eq_some_iff.1 h
    exact ih (fun b hb => hstep b (List.mem_cons_of_mem _ hb))
      (hstep a List.mem_cons_self s s₁ hs h₁) h

namespace BoostGraph
open PathLengths
variable {ν ε : Type} [DecidableEq ν] {S : GraphSetup ν ε} {g : BoostGraph ν ε}
  {t t' : PathLengths ν} {n : ν} {len fuel : Nat}

/-- The sink distances of a graph that has them: every node has one, they grow against the edges,
and the height bounds them. -/
structure SinksRight (S : GraphSetup ν ε) (g : BoostGraph ν ε) (t : PathLengths ν) : Prop where
  settled : Rising S g (fun _ _ _ => False) t
  listed : t.height ≠ none → ∀ n ∈ g.nodes, t.find .sink false n ≠ none
  bounded : t.Bounded

theorem Rising.atLeast (h : Rising S g (fun _ _ _ => False) t) (he : g.Joins e u v) {b : Bool}
    (hl : t.find .sink b v = some l) (hpos : b = true → S.isBackEdge e = false ∧ 0 < l) :
    t.AtLeast (b || S.isBackEdge e) u (l + S.edgeWeight e v) :=
  (h e u v he b l hl hpos).resolve_left id

theorem SinksRight.of_keepsSinks (h : SinksRight S g t) (hk : KeepsSinks t t')
    (hheight : t.height = none → t'.height = none) : SinksRight S g t' where
  settled := h.settled.of_find hk.find
  listed hne n hn := by
    rw [hk.find]
    exact h.listed (fun hnone => hne (hheight hnone)) n hn
  bounded := hk.bounded h.bounded

theorem Passes.refl (t : PathLengths ν) : Passes S g (fun _ _ _ => False) t t :=
  (KeepsSinks.refl t).passes

theorem Passes.trans (h : Passes S g (fun _ _ _ => False) t t')
    (h' : Passes S g (fun _ _ _ => False) t' t'') : Passes S g (fun _ _ _ => False) t t'' where
  grows := h.grows.trans h'.grows
  bounded := h'.bounded ∘ h.bounded
  rising _ hr := h'.rising _ (h.rising _ (hr.weaken fun _ _ _ hp => .inl hp))

theorem passes_callIf {c : Bool} {call : PathLengths ν → Option (PathLengths ν)}
    (hcall : ∀ t₁, call t = some t₁ → Passes S g (fun _ _ _ => False) t t₁)
    (h : callIf c call t = some t') : Passes S g (fun _ _ _ => False) t t' := by
  cases c with
  | true => exact hcall t' h
  | false =>
    cases h
    exact .refl _

theorem find_eq_none_of_bounded (hb : t.Bounded) (h : t.height = none) (b : Bool) (n : ν) :
    t.find .sink b n = none := by
  cases hf : t.find .sink b n with
  | none => rfl
  | some l =>
    obtain ⟨k, hk, _⟩ := hb b n l hf
    rw [h] at hk
    cases hk

/-- The lengths of the head of a new edge are passed on through it, and no other edge is left
behind. -/
theorem calculatePathLengthsOnConnect_passes (hg : g.Placed) (htail : ∃ nd, g.IsAt nTail nd)
    (hb : t.Bounded) (hlisted : t.height ≠ none → t.find .sink false nHead ≠ none)
    (h : calculatePathLengthsOnConnect S g fuel nTail nHead e t = some t') :
    Passes S g (fun _ _ _ => False) t t' ∧ (t.height = none → t' = t) ∧
      ∀ b l, t.find .sink b nHead = some l → (b = true → S.isBackEdge e = false) →
        t'.AtLeast (b || S.isBackEdge e) nTail (l + S.edgeWeight e nHead) := by
  rw [calculatePathLengthsOnConnect] at h
  split at h
  · next hnone =>
    cases h
    rw [Option.isNone_iff_eq_none] at hnone
    refine ⟨.refl t, fun _ => rfl, fun b l hl => ?_⟩
    rw [find_eq_none_of_bounded hb hnone] at hl
    cases hl
  · next hsome =>
    rw [Option.isNone_iff_eq_none] at hsome
    dsimp only at h
    obtain ⟨t₁, h₁, h⟩ := Option.bind_eq_some_iff.1 h
    have hhead : (t.find .sink false nHead).isSome = true :=
      Option.isSome_iff_ne_none.2 (hlisted hsome)
    rw [if_pos hhead] at h
    obtain ⟨t₂, h₂, h⟩ := Option.bind_eq_some_iff.1 h
    obtain ⟨t₃, h₃, h⟩ := Option.bind_eq_some_iff.1 h
    have hp₁ : Passes S g (fun _ _ _ => False) t t₁ := by
      apply passes_callIf _ h₁
      intro t₁ h₁
      exact (calculateSinkDistance_passes hg htail h₁).1.mono fun _ _ _ h => h.elim
    obtain ⟨hp₂, hat₂⟩ := calculateSinkDistance_passes hg htail h₂
    have hp₃ : Passes S g (fun _ _ _ => False) t₂ t₃ := by
      apply passes_callIf _ h₃
      intro t₃ h₃
      exact (keepsSinks_calculateSourceDistances h₃).1.passes
    have hp₄ := (keepsSinks_calculateSourceDistances h).1.passes (S := S) (g := g)
    have htouch : Passes S g (fun _ _ _ => False) t₃
        (if (t.find .source false nTail).isSome then t₃ else t₃.store .source false nTail 0) := by
      split
      · exact .refl _
      · exact (keepsSinks_store _ _ _ _).passes
    have hp₂' : Passes S g (fun _ _ _ => False) _ _ := hp₂.mono fun _ _ _ h => h.elim
    have hrest := (hp₃.trans htouch).trans hp₄
    refine ⟨(hp₁.trans hp₂').trans hrest, fun hnone => absurd hnone hsome, fun b l hl hback => ?_⟩
    cases b with
    | false =>
      apply hrest.grows
      obtain ⟨l₁, hl₁, hle⟩ := hp₁.grows false nHead l ⟨l, hl, Nat.le_refl l⟩
      rw [distance, hl₁, Option.getD_some] at hat₂
      exact hat₂.mono (Nat.add_le_add_right hle _)
    | true =>
      apply (hp₂'.trans hrest).grows
      rw [hl, hback rfl] at h₁
      have hcall : calculateSinkDistance S g fuel nTail
          (t.distance .sink true nHead + S.edgeWeight e nHead) true t = some t₁ := h₁
      have hat₁ := (calculateSinkDistance_passes hg htail hcall).2
      rwa [distance, hl, Option.getD_some] at hat₁

/-- Distances that were right before an edge was added are right after it. -/
theorem SinksRight.connect {g' : BoostGraph ν ε} (hs : SinksRight S g t) (hg : g'.Placed)
    (htail : ∃ nd, g'.IsAt nTail nd) (hhead : nHead ∈ g.nodes) (hnodes : g'.nodes = g.nodes)
    (hjoins : ∀ e' u v, g'.Joins e' u v → g.Joins e' u v ∨ e' = e ∧ u = nTail ∧ v = nHead)
    (h : calculatePathLengthsOnConnect S g' fuel nTail nHead e t = some t') :
    SinksRight S g' t' ∧ (t.height = none → t' = t) := by
  obtain ⟨hp, hnone, hedge⟩ := calculatePathLengthsOnConnect_passes hg htail hs.bounded
    (fun hne => hs.listed hne nHead hhead) h
  have hstart : Rising S g' (fun b v l => v = nHead ∧ t.find .sink b v = some l) t := by
    intro e' u v he b l hl hpos
    rcases hjoins e' u v he with he | ⟨rfl, rfl, rfl⟩
    · exact .inr (hs.settled.atLeast he hl hpos)
    · exact .inl ⟨rfl, hl⟩
  have hr := hp.rising _ (hstart.weaken fun _ _ _ h => .inl h)
  refine ⟨⟨fun e' u v he b l hl hpos => ?_, fun hne n hn => ?_, hp.bounded hs.bounded⟩, hnone⟩
  · rcases hr e' u v he b l hl hpos with ⟨rfl, hold⟩ | h
    · rcases hjoins e' u v he with he | ⟨rfl, rfl, _⟩
      · exact .inr (hp.grows _ _ _ (hs.settled.atLeast he hold hpos))
      · exact .inr (hedge b l hold fun hb => (hpos hb).1)
    · exact .inr h
  · have hne' : t.height ≠ none := fun h => hne (by rw [hnone h, h])
    obtain ⟨l, hl⟩ := Option.ne_none_iff_exists'.1 (hs.listed hne' n (hnodes ▸ hn))
    obtain ⟨l', hl', _⟩ := hp.grows false n l ⟨l, hl, Nat.le_refl l⟩
    rw [hl']
    exact Option.some_ne_none l'

/-- What leaves the sink distances and the height alone. -/
def SameSinks (t t' : PathLengths ν) : Prop :=
  (∀ b n, t'.find .sink b n = t.find .sink b n) ∧ t'.height = t.height

theorem SameSinks.refl (t : PathLengths ν) : SameSinks t t := ⟨fun _ _ => rfl, rfl⟩

theorem SameSinks.trans (h : SameSinks t t') (h' : SameSinks t' t'') : SameSinks t t'' :=
  ⟨fun b n => (h'.1 b n).trans (h.1 b n), h'.2.trans h.2⟩

/-- Distances stay right in a graph with fewer nodes and edges, whatever the others have. -/
theorem SinksRight.restrict {g' : BoostGraph ν ε} (h : SinksRight S g t)
    (hjoins : ∀ e u v, g'.Joins e u v → g.Joins e u v) (hnodes : g'.nodes ⊆ g.nodes)
    (hfind : ∀ b n, n ∈ g'.nodes → t'.find .sink b n = t.find .sink b n)
    (hheight : t'.height = t.height) (hbounded : t'.Bounded) : SinksRight S g' t' where
  settled e u v he b l hl hpos := by
    rw [hfind b v he.right] at hl
    obtain ⟨k, hk, hle⟩ := h.settled.atLeast (hjoins e u v he) hl hpos
    exact .inr ⟨k, (hfind _ u he.left).trans hk, hle⟩
  listed hne n hn := by
    rw [hfind false n hn]
    exact h.listed (hheight ▸ hne) n (hnodes hn)
  bounded := hbounded

theorem SinksRight.of_same (h : SinksRight S g t) (hs : SameSinks t t') : SinksRight S g t' where
  settled := h.settled.of_find hs.1
  listed hne n hn := by
    rw [hs.1]
    exact h.listed (hs.2 ▸ hne) n hn
  bounded b n l hl := by
    rw [hs.2]
    exact h.bounded b n l (hs.1 b n ▸ hl)

theorem sameSinks_touch_source (t : PathLengths ν) (b : Bool) (n : ν) :
    SameSinks t (t.touch .source b n) :=
  ⟨(keepsSinks_touch t b n).find, height_touch⟩

theorem sameSinks_store_source (t : PathLengths ν) (b : Bool) (n : ν) (len : Nat) :
    SameSinks t (t.store .source b n len) :=
  ⟨(keepsSinks_store t b n len).find, height_store⟩

/-- `operator[]` stores nothing for a node that is there. -/
theorem sameSinks_touch_sink {b : Bool} (h : t.find .sink b n ≠ none) :
    SameSinks t (t.touch .sink b n) := by
  refine ⟨fun b' n' => ?_, height_touch⟩
  rw [find_touch]
  split
  · next heq =>
    obtain ⟨_, rfl, rfl⟩ := heq
    obtain ⟨l, hl⟩ := Option.ne_none_iff_exists'.1 h
    rw [distance, hl, Option.getD_some]
  · rfl

theorem sameSinks_foldl {σ α : Type} {step : σ → α → σ} (lengths : σ → PathLengths ν) {l : List α}
    (hstep : ∀ x ∈ l, ∀ s, SameSinks t (lengths s) → SameSinks (lengths s) (lengths (step s x)))
    {s : σ} (hs : SameSinks t (lengths s)) : SameSinks t (lengths (l.foldl step s)) := by
  induction l generalizing s with
  | nil => exact hs
  | cons x l ih =>
    rw [List.foldl_cons]
    apply ih fun y hy => hstep y (List.mem_cons_of_mem _ hy)
    exact hs.trans (hstep x List.mem_cons_self s hs)

theorem lookAhead_fst (side : PathEnd) (acc : PathLengths ν × Nat × Nat) (x : ε × Nat × ν) :
    (lookAhead S side n acc x).1 = acc.1.touch side false x.2.2 := by
  rw [lookAhead]
  split
  · rfl
  · rfl

/-- Source distances that get shorter leave the sink distances. -/
theorem sameSinks_sourceDistDecreased (h : sourceDistDecreased S g fuel n t = some t') :
    SameSinks t t' := by
  rw [sourceDistDecreased] at h
  induction fuel generalizing n t t' with
  | zero => cases h
  | succ fuel ih =>
    rw [distDecreased] at h
    split at h
    · cases h
      exact .refl _
    · obtain ⟨nd, _, h⟩ := Option.bind_eq_some_iff.1 h
      dsimp only at h
      have hfold : SameSinks t ((g.endsAhead .source nd).foldl (lookAhead S .source n)
          (t.touch .source false n, 0, 0)).1 := by
        apply sameSinks_foldl Prod.fst
        · intro x _ acc _
          rw [lookAhead_fst]
          exact sameSinks_touch_source _ _ _
        · exact sameSinks_touch_source _ _ _
      generalize (g.endsAhead .source nd).foldl (lookAhead S .source n)
        (t.touch .source false n, 0, 0) = next at h hfold
      split at h
      · have hstart : SameSinks t (if next.2.2 < t.distance .source true n then
            (next.1.store .source false n next.2.1).store .source true n next.2.2
            else next.1.store .source false n next.2.1) := by
          have hst := hfold.trans (sameSinks_store_source next.1 false n next.2.1)
          split
          · exact hst.trans (sameSinks_store_source _ _ _ _)
          · exact hst
        apply Option.foldlM_invariant (SameSinks t) _ hstart h
        intro x _ t₁ t₂ h₁ h₂
        split at h₂
        · exact h₁.trans (ih h₂)
        · cases h₂
          exact h₁
      · cases h
        exact hfold

/-- What the loop over the edges out of a node finds: the longest of the paths that go on. -/
structure LookedAhead (S : GraphSetup ν ε) (t : PathLengths ν) (xs : List (ε × Nat × ν))
    (acc acc' : PathLengths ν × Nat × Nat) : Prop where
  le : acc.2.1 ≤ acc'.2.1
  loopingLe : acc.2.2 ≤ acc'.2.2
  long : ∀ x ∈ xs, S.isBackEdge x.1 = false → ∀ l, t.find .sink false x.2.2 = some l →
    l + S.edgeWeight x.1 x.2.2 ≤ acc'.2.1
  loopingLong : ∀ x ∈ xs, ∀ l, t.find .sink (!S.isBackEdge x.1) x.2.2 = some l →
    l + S.edgeWeight x.1 x.2.2 ≤ acc'.2.2
  longest : ∀ k, acc.2.1 ≤ k → (∀ x ∈ xs, S.isBackEdge x.1 = false →
    ∀ l, t.find .sink false x.2.2 = some l → l + S.edgeWeight x.1 x.2.2 ≤ k) → acc'.2.1 ≤ k

theorem distance_touch_eq {acc : PathLengths ν × Nat × Nat} {x : ε × Nat × ν}
    (hacc : SameSinks t acc.1) (hk : t.find .sink false x.2.2 = some k) :
    SameSinks t (acc.1.touch .sink false x.2.2) := by
  apply hacc.trans (sameSinks_touch_sink _)
  rw [hacc.1, hk]
  exact Option.some_ne_none k

theorem lookAhead_back (hb : S.isBackEdge x.1 = true) {acc : PathLengths ν × Nat × Nat}
    (hacc : SameSinks t acc.1) (hk : t.find .sink false x.2.2 = some k) :
    (lookAhead S .sink n acc x).2.1 = acc.2.1 ∧ acc.2.2 ≤ (lookAhead S .sink n acc x).2.2 ∧
      k + S.edgeWeight x.1 x.2.2 ≤ (lookAhead S .sink n acc x).2.2 := by
  have htouch := distance_touch_eq hacc hk
  rw [lookAhead, hb]
  simp only [if_true, weightAhead, distance, htouch.1, hk, Option.getD_some, true_and]
  exact ⟨Nat.le_max_left _ _, Nat.le_max_right _ _⟩

theorem lookAhead_forward (hb : S.isBackEdge x.1 = false) {acc : PathLengths ν × Nat × Nat}
    (hacc : SameSinks t acc.1) (hk : t.find .sink false x.2.2 = some k) :
    (lookAhead S .sink n acc x).2.1 = max acc.2.1 (k + S.edgeWeight x.1 x.2.2) ∧
      acc.2.2 ≤ (lookAhead S .sink n acc x).2.2 ∧
      ∀ l, t.find .sink true x.2.2 = some l →
        l + S.edgeWeight x.1 x.2.2 ≤ (lookAhead S .sink n acc x).2.2 := by
  have htouch := distance_touch_eq hacc hk
  rw [lookAhead, hb]
  simp only [Bool.false_eq_true, if_false, weightAhead, distance, htouch.1, hk, Option.getD_some,
    true_and]
  cases t.find .sink true x.2.2 with
  | none => exact ⟨Nat.le_refl _, fun _ h => absurd h.symm (Option.some_ne_none _)⟩
  | some l =>
    refine ⟨Nat.le_max_left _ _, fun l' hl' => ?_⟩
    cases hl'
    exact Nat.le_max_right _ _

theorem lookedAhead_foldl {xs : List (ε × Nat × ν)}
    (hlisted : ∀ x ∈ xs, t.find .sink false x.2.2 ≠ none) (acc : PathLengths ν × Nat × Nat)
    (hacc : SameSinks t acc.1) :
    LookedAhead S t xs acc (xs.foldl (lookAhead S .sink n) acc) := by
  induction xs generalizing acc with
  | nil => exact ⟨Nat.le_refl _, Nat.le_refl _, fun _ h => absurd h List.not_mem_nil,
      fun _ h => absurd h List.not_mem_nil, fun _ h _ => h⟩
  | cons x xs ih =>
    obtain ⟨hx, hxs⟩ := List.forall_mem_cons.1 hlisted
    have hsame : SameSinks t (lookAhead S .sink n acc x).1 := by
      rw [lookAhead_fst]
      exact hacc.trans (sameSinks_touch_sink (by rwa [hacc.1]))
    have hrest := ih hxs (lookAhead S .sink n acc x) hsame
    rw [List.foldl_cons]
    obtain ⟨k, hk⟩ := Option.ne_none_iff_exists'.1 hx
    cases hb : S.isBackEdge x.1 with
    | true =>
      obtain ⟨heq, hle, hlast⟩ := lookAhead_back (n := n) hb hacc hk
      refine ⟨heq ▸ hrest.le, Nat.le_trans hle hrest.loopingLe, fun y hy hyb => ?_,
        fun y hy l hl => ?_, fun m hm hlong => ?_⟩
      · rcases List.mem_cons.1 hy with rfl | hy
        · rw [hb] at hyb
          cases hyb
        · exact hrest.long y hy hyb
      · rcases List.mem_cons.1 hy with rfl | hy
        · rw [hb, Bool.not_true, hk] at hl
          cases hl
          exact Nat.le_trans hlast hrest.loopingLe
        · exact hrest.loopingLong y hy l hl
      · exact hrest.longest m (heq ▸ hm) fun y hy => hlong y (List.mem_cons_of_mem _ hy)
    | false =>
      obtain ⟨heq, hle, hloop⟩ := lookAhead_forward (n := n) hb hacc hk
      have hstep := hrest.le
      rw [heq] at hstep
      refine ⟨Nat.le_trans (Nat.le_max_left _ _) hstep, Nat.le_trans hle hrest.loopingLe,
        fun y hy hyb l hl => ?_, fun y hy l hl => ?_, fun m hm hlong => ?_⟩
      · rcases List.mem_cons.1 hy with rfl | hy
        · rw [hk] at hl
          cases hl
          exact Nat.le_trans (Nat.le_max_right _ _) hstep
        · exact hrest.long y hy hyb l hl
      · rcases List.mem_cons.1 hy with rfl | hy
        · rw [hb] at hl
          exact Nat.le_trans (hloop l hl) hrest.loopingLe
        · exact hrest.loopingLong y hy l hl
      · apply hrest.longest m _ fun y hy => hlong y (List.mem_cons_of_mem _ hy)
        rw [heq]
        exact Nat.max_le.2 ⟨hm, hlong x List.mem_cons_self hb k hk⟩

/-- The distances of a node may get shorter as long as they are those of the paths through it. -/
theorem Rising.lower (h : Rising S g (fun _ _ _ => False) t)
    (hother : ∀ b m, m ≠ n → t'.find .sink b m = t.find .sink b m)
    (hlower : ∀ b l, t'.find .sink b n = some l → ∃ l₀, t.find .sink b n = some l₀ ∧ l ≤ l₀)
    (hahead : ∀ e v, g.Joins e n v → ∀ b l, t.find .sink b v = some l →
      (b = true → S.isBackEdge e = false ∧ 0 < l) →
        t'.AtLeast (b || S.isBackEdge e) n (l + S.edgeWeight e v)) :
    Rising S g (fun _ _ _ => False) t' := by
  intro e u v he b l hl hpos
  have hold : ∃ l₀, t.find .sink b v = some l₀ ∧ l ≤ l₀ := by
    by_cases hv : v = n
    · subst hv
      exact hlower b l hl
    · exact ⟨l, (hother b v hv).symm.trans hl, Nat.le_refl l⟩
  obtain ⟨l₀, hl₀, hle⟩ := hold
  have hpos₀ : b = true → S.isBackEdge e = false ∧ 0 < l₀ :=
    fun hbt => ⟨(hpos hbt).1, Nat.lt_of_lt_of_le (hpos hbt).2 hle⟩
  refine .inr (AtLeast.mono ?_ (Nat.add_le_add_right hle _))
  by_cases hu : u = n
  · subst hu
    exact hahead e v he b l₀ hl₀ hpos₀
  · obtain ⟨k, hk, hlek⟩ := h.atLeast he hl₀ hpos₀
    exact ⟨k, (hother _ u hu).trans hk, hlek⟩

omit [DecidableEq ν] in
theorem mem_nodes_of_mem_inEnds {x : ε × Nat × ν} (h : x ∈ g.inEnds nd) : x.2.2 ∈ g.nodes := by
  obtain ⟨e, td, u⟩ := x
  exact List.mem_of_getElem? (mem_inEnds.1 h).2

omit [DecidableEq ν] in
theorem mem_nodes_of_mem_outEnds {x : ε × Nat × ν} (h : x ∈ g.outEnds nd) : x.2.2 ∈ g.nodes := by
  obtain ⟨e, hd, v⟩ := x
  exact List.mem_of_getElem? (mem_outEnds.1 h).2

/-- Storing the paths that are left at a node keeps the distances right. -/
theorem SinksRight.store_ahead (hs : SinksRight S g t) (hg : g.Placed) (hn : g.IsAt n nd)
    (hheight : t.height ≠ none)
    (ha : LookedAhead S t (g.outEnds nd) (t, 0, 0) (t₁, sd, loopingSD)) (hsame : SameSinks t t₁) :
    SinksRight S g (if loopingSD < t.distance .sink true n then
        (t₁.store .sink false n sd).store .sink true n loopingSD
      else t₁.store .sink false n sd) := by
  obtain ⟨old, hold⟩ := Option.ne_none_iff_exists'.1
    (hs.listed hheight n (List.mem_of_getElem? hn.1))
  have hsd : sd ≤ old := by
    apply ha.longest old (Nat.zero_le _)
    intro x hx hb l hl
    obtain ⟨e, hd, v⟩ := x
    have hat := hs.settled.atLeast (hg.joins_outEnds hn hx).1 hl (by simp)
    rw [hb] at hat
    obtain ⟨k, hk, hle⟩ := hat
    cases hold.symm.trans hk
    exact hle
  generalize ht' : (if loopingSD < t.distance .sink true n then
      (t₁.store .sink false n sd).store .sink true n loopingSD
    else t₁.store .sink false n sd) = t'
  have hother : ∀ b m, m ≠ n → t'.find .sink b m = t.find .sink b m := by
    intro b m hm
    rw [← hsame.1, ← ht']
    split
    · rw [find_store, if_neg fun h => hm h.2.2, find_store, if_neg fun h => hm h.2.2]
    · rw [find_store, if_neg fun h => hm h.2.2]
  have hfind : t'.find .sink false n = some sd := by
    rw [← ht']
    split
    · rw [find_store, if_neg (by simp), find_store, if_pos ⟨rfl, rfl, rfl⟩]
    · rw [find_store, if_pos ⟨rfl, rfl, rfl⟩]
  have hlooping : t'.find .sink true n = if loopingSD < t.distance .sink true n then some loopingSD
      else t.find .sink true n := by
    rw [← ht', ← hsame.1]
    split
    · rw [find_store, if_pos ⟨rfl, rfl, rfl⟩]
    · rw [find_store, if_neg (by simp)]
  have hheight' : t'.height = t.height := by
    rw [← ht', ← hsame.2]
    split
    · rw [height_store, height_store]
    · rw [height_store]
  have hlower : ∀ b l, t'.find .sink b n = some l → ∃ l₀, t.find .sink b n = some l₀ ∧ l ≤ l₀ := by
    intro b l hl
    cases b with
    | false =>
      rw [hfind] at hl
      cases hl
      exact ⟨old, hold, hsd⟩
    | true =>
      rw [hlooping] at hl
      split at hl
      · next hlt =>
        cases hl
        rw [distance] at hlt
        cases hf : t.find .sink true n with
        | none =>
          rw [hf, Option.getD_none] at hlt
          cases hlt
        | some l₀ =>
          rw [hf, Option.getD_some] at hlt
          exact ⟨l₀, rfl, Nat.le_of_lt hlt⟩
      · exact ⟨l, hl, Nat.le_refl l⟩
  refine ⟨hs.settled.lower hother hlower fun e v he b l hl hpos => ?_, fun hne m hm => ?_,
    fun b m l hl => ?_⟩
  · obtain ⟨hd, hmem⟩ := hg.mem_outEnds_of_joins hn he
    by_cases hplain : (b || S.isBackEdge e) = false
    · obtain ⟨rfl, hb⟩ := Bool.or_eq_false_iff.1 hplain
      rw [hplain]
      exact ⟨sd, hfind, ha.long _ hmem hb l hl⟩
    · rw [Bool.not_eq_false] at hplain
      have hb : b = !S.isBackEdge e := by
        cases b with
        | false => rw [Bool.false_or] at hplain; rw [hplain]; rfl
        | true => rw [(hpos rfl).1]; rfl
      have hat := hs.settled.atLeast he hl hpos
      rw [hplain] at hat ⊢
      rw [AtLeast, hlooping]
      split
      · exact ⟨loopingSD, rfl, ha.loopingLong _ hmem l (hb ▸ hl)⟩
      · exact hat
  · by_cases hmn : m = n
    · rw [hmn, hfind]
      exact Option.some_ne_none sd
    · rw [hother false m hmn]
      exact hs.listed (hheight' ▸ hne) m hm
  · rw [hheight']
    by_cases hmn : m = n
    · subst hmn
      obtain ⟨l₀, hl₀, hle⟩ := hlower b l hl
      obtain ⟨k, hk, hle'⟩ := hs.bounded b m l₀ hl₀
      exact ⟨k, hk, Nat.le_trans hle hle'⟩
    · exact hs.bounded b m l ((hother b m hmn).symm.trans hl)

/-- Distances that get shorter stay right. -/
theorem SinksRight.sinkDistDecreased (hs : SinksRight S g t) (hg : g.Placed)
    (hn : ∃ nd, g.IsAt n nd) (h : sinkDistDecreased S g fuel n t = some t') :
    SinksRight S g t' ∧ t'.height = t.height ∧
      ∀ b m, m ∉ g.nodes → t'.find .sink b m = t.find .sink b m := by
  rw [BoostGraph.sinkDistDecreased] at h
  induction fuel generalizing n t t' with
  | zero => cases h
  | succ fuel ih =>
    rw [distDecreased] at h
    split at h
    · cases h
      exact ⟨hs, rfl, fun _ _ _ => rfl⟩
    · next hheight =>
      rw [Option.isNone_iff_eq_none] at hheight
      obtain ⟨nd, hnd⟩ := hn
      obtain ⟨nd', hnd', h⟩ := Option.bind_eq_some_iff.1 h
      cases hnd.2.symm.trans hnd'
      have hself := hs.listed hheight n (List.mem_of_getElem? hnd.1)
      have htouch : SameSinks t (t.touch .sink false n) := sameSinks_touch_sink hself
      have hs₁ := hs.of_same htouch
      have hheads : ∀ x ∈ g.outEnds nd, (t.touch .sink false n).find .sink false x.2.2 ≠ none := by
        intro x hx
        rw [htouch.1]
        exact hs.listed hheight _ (mem_nodes_of_mem_outEnds hx)
      have ha := lookedAhead_foldl (S := S) (n := n) hheads (t.touch .sink false n, 0, 0) (.refl _)
      have hfold : SameSinks (t.touch .sink false n)
          ((g.outEnds nd).foldl (lookAhead S .sink n) (t.touch .sink false n, 0, 0)).1 := by
        apply sameSinks_foldl Prod.fst
        · intro x hx acc hacc
          rw [lookAhead_fst]
          exact sameSinks_touch_sink (by
            rw [hacc.1]
            exact hheads x hx)
        · exact .refl _
      dsimp only [endsAhead, endsBehind] at h
      generalize (g.outEnds nd).foldl (lookAhead S .sink n) (t.touch .sink false n, 0, 0) = next
        at h ha hfold
      obtain ⟨t₁, sd, loopingSD⟩ := next
      have hdist : (t.touch .sink false n).distance .sink true n = t.distance .sink true n := by
        rw [distance, htouch.1]
        rfl
      split at h
      · have hstored := hs₁.store_ahead hg hnd (by rwa [height_touch]) ha hfold
        rw [hdist] at hstored
        have hinit : ∀ b m, m ∉ g.nodes → (if loopingSD < t.distance .sink true n then
            (t₁.store .sink false n sd).store .sink true n loopingSD
            else t₁.store .sink false n sd).find .sink b m = t.find .sink b m := by
          intro b m hm
          have hne : m ≠ n := fun heq => hm (heq ▸ List.mem_of_getElem? hnd.1)
          rw [← htouch.1, ← hfold.1]
          split
          · rw [find_store, if_neg fun h => hne h.2.2, find_store, if_neg fun h => hne h.2.2]
          · rw [find_store, if_neg fun h => hne h.2.2]
        apply Option.foldlM_invariant (fun s => SinksRight S g s ∧ s.height = t.height ∧
          ∀ b m, m ∉ g.nodes → s.find .sink b m = t.find .sink b m) _ ⟨hstored, ?_, hinit⟩ h
        · intro x hx s s' hs' hcall
          split at hcall
          · obtain ⟨hr, hh, hout⟩ := ih hs'.1 ⟨_, (hg.joins_inEnds hnd hx).2⟩ hcall
            exact ⟨hr, hh.trans hs'.2.1, fun b m hm => (hout b m hm).trans (hs'.2.2 b m hm)⟩
          · cases hcall
            exact hs'
        · split
          · rw [height_store, height_store, hfold.2, htouch.2]
          · rw [height_store, hfold.2, htouch.2]
      · cases h
        exact ⟨hs₁.of_same hfold, hfold.2.trans htouch.2,
          fun b m _ => (hfold.1 b m).trans (htouch.1 b m)⟩

end BoostGraph

end OpenAsip
