import OpenAsip.SinkDistances
import Mathlib.Logic.Relation

namespace OpenAsip
set_option autoImplicit true

namespace BoostGraph
open PathLengths
variable {ν ε : Type} [DecidableEq ν] {S : GraphSetup ν ε} {g : BoostGraph ν ε}
  {t t' : PathLengths ν} {node : ν} {len fuel : Nat} {looping : Bool}

/-- What a calculation does to sink distances, when the lengths that `P` tells of are still to be
passed on. -/
structure Passes (S : GraphSetup ν ε) (g : BoostGraph ν ε) (P : Bool → ν → Nat → Prop)
    (t t' : PathLengths ν) : Prop where
  grows : Grows t t'
  bounded : t.Bounded → t'.Bounded
  rising : ∀ Q, Rising S g (fun b v l => Q b v l ∨ P b v l) t → Rising S g Q t'

theorem Passes.mono (h : Passes S g P t t') (hPQ : ∀ b v l, P' b v l → P b v l) :
    Passes S g P' t t' :=
  ⟨h.grows, h.bounded, fun Q hr => h.rising Q (hr.weaken fun b v l => Or.imp id (hPQ b v l))⟩

/-- The calls for the nodes of a queue, each of which passes on the length of its node. -/
theorem passes_foldlM {step : PathLengths ν → PathLengthHelper ν → Option (PathLengths ν)}
    {queue : List (PathLengthHelper ν)}
    (hstep : ∀ helper ∈ queue, ∀ t t', step t helper = some t' →
      Passes S g (fun b v l => helper.looping = b ∧ helper.node = v ∧ helper.len = l) t t')
    (h : queue.foldlM step t = some t') : Passes S g (Pending queue) t t' := by
  induction queue generalizing t with
  | nil =>
    cases h
    refine ⟨.refl _, id, fun Q hr => hr.weaken fun b v l h => h.elim id ?_⟩
    rintro ⟨helper, hmem, _⟩
    exact absurd hmem List.not_mem_nil
  | cons helper queue ih =>
    rw [List.foldlM_cons] at h
    obtain ⟨t₁, h₁, h⟩ := Option.bind_eq_some_iff.1 h
    have hfirst := hstep helper List.mem_cons_self t t₁ h₁
    have hrest := ih (fun helper' hmem => hstep helper' (List.mem_cons_of_mem _ hmem)) h
    refine ⟨hfirst.grows.trans hrest.grows, hrest.bounded ∘ hfirst.bounded, fun Q hr => ?_⟩
    apply hrest.rising
    apply hfirst.rising
    apply hr.weaken
    rintro b v l (h | ⟨helper', hmem, heq⟩)
    · exact .inl (.inl h)
    · rcases List.mem_cons.1 hmem with rfl | hmem
      · exact .inr heq
      · exact .inl (.inr ⟨helper', hmem, heq⟩)

omit [DecidableEq ν] in
theorem pending_byPriority {queue : List (PathLengthHelper ν)} :
    Pending (byPriority queue) = Pending queue := by
  funext b v l
  simp only [Pending, byPriority, List.mem_insertionSort]

/-- A call passes the length of its node on, to all nodes that it concerns. -/
theorem calculateSinkDistance_passes (hg : g.Placed) (hn : ∃ nd, g.IsAt node nd)
    (h : calculateSinkDistance S g fuel node len looping t = some t') :
    Passes S g (fun b v l => looping = b ∧ node = v ∧ len = l) t t' ∧
      t'.AtLeast looping node len := by
  induction fuel generalizing node len looping t t' with
  | zero => cases h
  | succ fuel ih =>
    rw [calculateSinkDistance] at h
    split at h
    · cases h
    · split at h
      · next hlt =>
        cases h
        rw [distance] at hlt
        cases hf : t.find .sink looping node with
        | none =>
          rw [hf, Option.getD_none] at hlt
          cases hlt
        | some l =>
          rw [hf, Option.getD_some] at hlt
          refine ⟨⟨.refl t, id, fun Q hr => ?_⟩, l, hf, Nat.le_of_lt hlt⟩
          intro e u v he b k hk hpos
          rcases hr e u v he b k hk hpos with (h | ⟨rfl, rfl, rfl⟩) | h
          · exact .inl h
          · rw [hf] at hk
            cases hk
            exact absurd hlt (Nat.lt_irrefl _)
          · exact .inr h
      · next hge =>
        obtain ⟨nd, hnd⟩ := hn
        obtain ⟨nd', hnd', h⟩ := Option.bind_eq_some_iff.1 h
        cases hnd.2.symm.trans hnd'
        dsimp only at h
        have hle : ∀ l, t.find .sink looping node = some l → l ≤ len := by
          intro l hl
          rw [distance, hl, Option.getD_some] at hge
          exact Nat.le_of_not_lt hge
        have hgrow : Grows t ((t.store .sink looping node len).raiseHeight len) :=
          (grows_store hle).trans (grows_of_find fun b n => find_raiseHeight)
        have hat : ∀ x ∈ g.inEnds nd, g.IsAt x.2.2 x.2.1 :=
          fun x hx => (hg.joins_inEnds hnd hx).2
        generalize hnext : (g.inEnds nd).foldl (visitInEdge S node len looping)
          ((t.store .sink looping node len).raiseHeight len, []) = next at h
        have hvisit := fun P => @visited_foldl ν ε _ g S P node len looping _ hat
          ((t.store .sink looping node len).raiseHeight len, [])
        rw [hnext] at hvisit
        have hqueue : Passes S g (Pending next.2) next.1 t' := by
          rw [← pending_byPriority]
          apply passes_foldlM _ h
          intro helper hmem t₁ t₂ h₁
          apply (ih _ h₁).1
          apply (hvisit fun _ _ _ => True).1.isAt fun _ h => absurd h List.not_mem_nil
          rwa [byPriority, List.mem_insertionSort] at hmem
        have hself : next.1.AtLeast looping node len := by
          apply (hvisit fun _ _ _ => True).1.grows
          refine ⟨len, ?_, Nat.le_refl _⟩
          rw [find_raiseHeight, find_store, if_pos ⟨rfl, rfl, rfl⟩]
        refine ⟨⟨?_, ?_, fun Q hr => ?_⟩, hqueue.grows _ _ _ hself⟩
        · exact (hgrow.trans (hvisit fun _ _ _ => True).1.grows).trans hqueue.grows
        · intro hb
          exact hqueue.bounded ((hvisit fun _ _ _ => True).1.bounded hb.store_raiseHeight)
        · apply hqueue.rising
          have hstart : Rising S g
              (fun b v l => (Q b v l ∨ looping = b ∧ node = v ∧ len = l) ∨
                Pending ([] : List (PathLengthHelper ν)) b v l)
              ((t.store .sink looping node len).raiseHeight len) := by
            have hst := hr.store (b := looping) (n := node) hle (.inr ⟨rfl, rfl, rfl⟩)
            exact (hst.of_find fun b n => find_raiseHeight).weaken fun b v l h => .inl h
          have hr' := (hvisit _).1.rising hstart
          intro e u v he b l hl hpos
          rcases hr' e u v he b l hl hpos with ((h | ⟨rfl, rfl, rfl⟩) | h) | h
          · exact .inl (.inl h)
          · obtain ⟨td, hmem⟩ := hg.mem_inEnds_of_joins hnd he
            exact .inr ((hvisit fun _ _ _ => True).2 _ hmem fun hb => (hpos hb).1)
          · exact .inl (.inr h)
          · exact .inr h

/-- What the calculation of source distances leaves. -/
structure KeepsSinks (t t' : PathLengths ν) : Prop where
  find : ∀ b n, t'.find .sink b n = t.find .sink b n
  height : ∀ h, t.height = some h → ∃ h', t'.height = some h' ∧ h ≤ h'

theorem KeepsSinks.refl (t : PathLengths ν) : KeepsSinks t t :=
  ⟨fun _ _ => rfl, fun h hh => ⟨h, hh, Nat.le_refl h⟩⟩

theorem KeepsSinks.trans (h : KeepsSinks t t') (h' : KeepsSinks t' t'') : KeepsSinks t t'' where
  find b n := (h'.find b n).trans (h.find b n)
  height k hk := by
    obtain ⟨k', hk', hle⟩ := h.height k hk
    obtain ⟨k'', hk'', hle'⟩ := h'.height k' hk'
    exact ⟨k'', hk'', Nat.le_trans hle hle'⟩

theorem KeepsSinks.bounded (h : KeepsSinks t t') (hb : t.Bounded) : t'.Bounded := by
  intro b n l hl
  rw [h.find] at hl
  obtain ⟨k, hk, hle⟩ := hb b n l hl
  obtain ⟨k', hk', hle'⟩ := h.height k hk
  exact ⟨k', hk', Nat.le_trans hle hle'⟩

theorem KeepsSinks.passes (h : KeepsSinks t t') : Passes S g (fun _ _ _ => False) t t' where
  grows := grows_of_find h.find
  bounded := h.bounded
  rising _ hr := (hr.weaken fun _ _ _ hp => hp.elim id False.elim).of_find h.find

theorem keepsSinks_raiseHeight (t : PathLengths ν) (len : Nat) :
    KeepsSinks t (t.raiseHeight len) where
  find _ _ := find_raiseHeight
  height h hh := ⟨max h len, by rw [raiseHeight, hh, Option.getD_some], Nat.le_max_left h len⟩

theorem keepsSinks_store (t : PathLengths ν) (b : Bool) (n : ν) (len : Nat) :
    KeepsSinks t (t.store .source b n len) where
  find b' n' := by rw [find_store, if_neg (by simp)]
  height h hh := ⟨h, by rw [height_store, hh], Nat.le_refl h⟩

theorem keepsSinks_touch (t : PathLengths ν) (b : Bool) (n : ν) :
    KeepsSinks t (t.touch .source b n) where
  find b' n' := by rw [find_touch, if_neg (by simp)]
  height h hh := ⟨h, by rw [height_touch, hh], Nat.le_refl h⟩

theorem keepsSinks_foldl {σ α : Type} {step : σ → α → σ} (lengths : σ → PathLengths ν)
    (hstep : ∀ s x, KeepsSinks (lengths s) (lengths (step s x))) (l : List α) (s : σ) :
    KeepsSinks (lengths s) (lengths (l.foldl step s)) := by
  induction l generalizing s with
  | nil => exact .refl _
  | cons x l ih =>
    rw [List.foldl_cons]
    exact (hstep s x).trans (ih _)

omit [DecidableEq ν] in
@[simp]
theorem lengths_setQueue {s : SourceSearch ν} {queue : List (Nat × Nat)} :
    (s.setQueue looping queue).lengths = s.lengths := by
  cases looping <;> rfl

theorem keepsSinks_visitOutEdge (s : SourceSearch ν) (x : ε × Nat × ν) :
    KeepsSinks s.lengths (visitOutEdge S len looping s x).lengths := by
  rw [visitOutEdge]
  split
  · exact .refl _
  · dsimp only
    have hraise : KeepsSinks s.lengths
        (if looping then s.lengths else s.lengths.raiseHeight (len + S.edgeWeight x.1 x.2.2)) := by
      split
      · exact .refl _
      · exact keepsSinks_raiseHeight _ _
    generalize (if looping then s.lengths
      else s.lengths.raiseHeight (len + S.edgeWeight x.1 x.2.2)) = lengths at hraise ⊢
    split
    · rw [lengths_setQueue]
      exact hraise.trans (keepsSinks_store _ _ _ _)
    · exact hraise

theorem keepsSinks_followSources {s s' : SourceSearch ν}
    (h : followSources S g looping fuel s = some s') : KeepsSinks s.lengths s'.lengths := by
  induction fuel generalizing s with
  | zero =>
    rw [followSources] at h
    split at h
    · cases h
      exact .refl _
    · cases h
  | succ fuel ih =>
    rw [followSources] at h
    split at h
    · cases h
      exact .refl _
    · next nd len queue hqueue =>
      have hfold : KeepsSinks (s.setQueue looping queue).lengths
          ((g.outEnds nd).foldl (visitOutEdge S len looping) (s.setQueue looping queue)).lengths :=
        keepsSinks_foldl SourceSearch.lengths keepsSinks_visitOutEdge _ _
      rw [lengths_setQueue] at hfold
      exact hfold.trans (ih h)

theorem keepsSinks_startSource (s : SourceSearch ν) (x : ν × Nat) :
    KeepsSinks s.lengths (startSource S g len s x).lengths := by
  rw [startSource]
  split
  · exact .refl _
  · exact keepsSinks_store s.lengths false x.1 len

theorem keepsSinks_startSources {startingNode : Option ν} {s : SourceSearch ν}
    (h : startSources S g startingNode len looping t = some s) : KeepsSinks t s.lengths := by
  cases startingNode with
  | none =>
    cases h
    exact keepsSinks_foldl SourceSearch.lengths keepsSinks_startSource _ ⟨t, [], []⟩
  | some n =>
    obtain ⟨nd, _, rfl⟩ := Option.map_eq_some_iff.1 h
    rw [lengths_setQueue]
    exact keepsSinks_store t looping n len

theorem keepsSinks_calculateSourceDistances {startingNode : Option ν}
    (h : calculateSourceDistances S g fuel startingNode len looping t = some t') :
    KeepsSinks t t' ∧ t'.height ≠ none := by
  rw [calculateSourceDistances] at h
  obtain ⟨s, hs, h⟩ := Option.bind_eq_some_iff.1 h
  obtain ⟨s₁, h₁, h⟩ := Option.bind_eq_some_iff.1 h
  obtain ⟨s₂, h₂, h⟩ := Option.bind_eq_some_iff.1 h
  cases h
  have hall := ((keepsSinks_startSources hs).trans (keepsSinks_followSources h₁)).trans
    (keepsSinks_followSources h₂)
  refine ⟨(keepsSinks_raiseHeight t len).trans hall, ?_⟩
  obtain ⟨k, hk, _⟩ := hall.height _ rfl
  rw [hk]
  exact Option.some_ne_none k

end BoostGraph

end OpenAsip
