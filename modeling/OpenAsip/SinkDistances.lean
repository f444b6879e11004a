import OpenAsip.BoostGraphEdges
import OpenAsip.PathLengths

namespace OpenAsip
set_option autoImplicit true

namespace PathLengths
variable {ν : Type} [DecidableEq ν] {t t' : PathLengths ν} {side side' : PathEnd} {b b' : Bool}
  {n n' : ν} {len len' : Nat}

@[simp]
theorem find_raiseHeight : (t.raiseHeight len).find side b n = t.find side b n := by
  cases side <;> cases b <;> rfl

@[simp]
theorem height_store : (t.store side b n len).height = t.height := by
  cases side <;> cases b <;> rfl

@[simp]
theorem height_touch : (t.touch side b n).height = t.height := by
  cases side <;> cases b <;> rfl

theorem find_setDistances (m : StdMap ν Nat) :
    (t.setDistances m side b).find side' b' n =
      if side' = side ∧ b' = b then m.lookup n else t.find side' b' n := by
  cases side <;> cases b <;> cases side' <;> cases b' <;> rfl

theorem find_store :
    (t.store side b n len).find side' b' n' =
      if side' = side ∧ b' = b ∧ n' = n then some len else t.find side' b' n' := by
  rw [store, find_setDistances, StdMap.lookup_store]
  by_cases h : side' = side ∧ b' = b
  · obtain ⟨rfl, rfl⟩ := h
    simp [find]
  · rw [if_neg h, if_neg fun h' => h ⟨h'.1, h'.2.1⟩]

theorem find_touch :
    (t.touch side b n).find side' b' n' =
      if side' = side ∧ b' = b ∧ n' = n then some (t.distance side b n)
      else t.find side' b' n' := by
  rw [touch, find_setDistances]
  by_cases h : side' = side ∧ b' = b
  · obtain ⟨rfl, rfl⟩ := h
    rw [if_pos ⟨rfl, rfl⟩, distance, find]
    by_cases hn : n' = n
    · subst hn
      rw [if_pos ⟨rfl, rfl, rfl⟩]
      cases h : List.lookup n' (t.distances side' b') with
      | none => rw [StdMap.lookup_insert_self h, Option.getD_none]
      | some l => rw [StdMap.insert, h, Option.isSome_some, if_pos rfl, h, Option.getD_some]
    · rw [StdMap.lookup_insert_ne hn, if_neg fun h => hn h.2.2]
      rfl
  · rw [if_neg h, if_neg fun h' => h ⟨h'.1, h'.2.1⟩]

/-- A table of sink distances has the node with a length that is not shorter. -/
def AtLeast (t : PathLengths ν) (b : Bool) (n : ν) (len : Nat) : Prop :=
  ∃ l, t.find .sink b n = some l ∧ len ≤ l

def Grows (t t' : PathLengths ν) : Prop := ∀ b n len, t.AtLeast b n len → t'.AtLeast b n len

/-- No sink distance is longer than the height. -/
def Bounded (t : PathLengths ν) : Prop :=
  ∀ b n l, t.find .sink b n = some l → ∃ h, t.height = some h ∧ l ≤ h

theorem AtLeast.mono (h : t.AtLeast b n len) (hle : len' ≤ len) : t.AtLeast b n len' := by
  obtain ⟨l, hl, hlen⟩ := h
  exact ⟨l, hl, Nat.le_trans hle hlen⟩

theorem Grows.refl (t : PathLengths ν) : Grows t t := fun _ _ _ h => h

theorem Grows.trans (h : Grows t t') (h' : Grows t' t'') : Grows t t'' :=
  fun b n len hl => h' b n len (h b n len hl)

theorem grows_of_find (h : ∀ b n, t'.find .sink b n = t.find .sink b n) : Grows t t' := by
  rintro b n len ⟨l, hl, hle⟩
  exact ⟨l, (h b n).trans hl, hle⟩

theorem grows_store (h : ∀ l, t.find .sink b n = some l → l ≤ len) :
    Grows t (t.store .sink b n len) := by
  rintro b' n' len' ⟨l, hl, hle⟩
  rw [AtLeast]
  simp only [find_store, true_and]
  split
  · next heq =>
    obtain ⟨rfl, rfl⟩ := heq
    exact ⟨len, rfl, Nat.le_trans hle (h l hl)⟩
  · exact ⟨l, hl, hle⟩

theorem isShorter_iff {l : Option Nat} : isShorter l len ↔ ∀ k, l = some k → k < len := by
  cases l with
  | none => simp [isShorter]
  | some k => simp [isShorter]

theorem Bounded.raiseHeight (h : t.Bounded) : (t.raiseHeight len).Bounded := by
  intro b n l hl
  rw [find_raiseHeight] at hl
  obtain ⟨k, hk, hle⟩ := h b n l hl
  refine ⟨max k len, ?_, Nat.le_trans hle (Nat.le_max_left k len)⟩
  rw [PathLengths.raiseHeight, hk, Option.getD_some]

omit [DecidableEq ν] in
theorem le_height_raiseHeight (t : PathLengths ν) (len : Nat) :
    ∃ h, (t.raiseHeight len).height = some h ∧ len ≤ h :=
  ⟨_, rfl, Nat.le_max_right _ _⟩

theorem Bounded.store (h : t.Bounded) (hlen : ∃ k, t.height = some k ∧ len ≤ k) :
    (t.store .sink b n len).Bounded := by
  intro b' n' l hl
  rw [height_store]
  rw [find_store] at hl
  split at hl
  · cases hl
    exact hlen
  · exact h b' n' l hl

theorem Bounded.store_raiseHeight (h : t.Bounded) :
    ((t.store .sink b n len).raiseHeight len).Bounded := by
  intro b' n' l hl
  rw [find_raiseHeight, find_store] at hl
  split at hl
  · cases hl
    exact le_height_raiseHeight _ _
  · obtain ⟨k, hk, hle⟩ := h b' n' l hl
    refine ⟨max k len, ?_, Nat.le_trans hle (Nat.le_max_left k len)⟩
    rw [PathLengths.raiseHeight, height_store, hk, Option.getD_some]

end PathLengths

namespace BoostGraph
open PathLengths
variable {ν ε : Type} [DecidableEq ν]

/-- The place of a node is the one that looking for it gives. -/
def IsAt (g : BoostGraph ν ε) (n : ν) (nd : Nat) : Prop :=
  g.vertices[nd]? = some n ∧ g.descriptor n = some nd

/-- What the calculation of paths needs of a graph. -/
def Placed (g : BoostGraph ν ε) : Prop :=
  ∀ e td hd, (e, td, hd) ∈ g.edges → ∃ u v, g.IsAt u td ∧ g.IsAt v hd

variable {g : BoostGraph ν ε} {S : GraphSetup ν ε}

theorem Wf.isAt (hg : g.Wf) (h : g.vertices[nd]? = some n) : g.IsAt n nd :=
  ⟨h, hg.descriptor_eq_some_iff.2 h⟩

theorem Wf.placed (hg : g.Wf) : g.Placed := by
  intro e td hd h
  obtain ⟨htd, hhd⟩ := hg.ends h
  exact ⟨_, _, hg.isAt (List.getElem?_eq_getElem htd), hg.isAt (List.getElem?_eq_getElem hhd)⟩

theorem Placed.joins (hg : g.Placed) (h : g.Joins e u v) :
    ∃ td hd, (e, td, hd) ∈ g.edges ∧ g.IsAt u td ∧ g.IsAt v hd := by
  obtain ⟨td, hd, he, hu, hv⟩ := h
  obtain ⟨u', v', hu', hv'⟩ := hg e td hd he
  cases Option.some.inj (hu'.1.symm.trans hu)
  cases Option.some.inj (hv'.1.symm.trans hv)
  exact ⟨td, hd, he, hu', hv'⟩

omit [DecidableEq ν] in
theorem mem_inEnds :
    (e, td, u) ∈ g.inEnds nd ↔ (e, td, nd) ∈ g.edges ∧ g.vertices[td]? = some u := by
  rw [inEnds, List.mem_filterMap]
  constructor
  · rintro ⟨⟨e', td', hd'⟩, hmem, h⟩
    split at h
    · next heq =>
      obtain ⟨u', hu', heq'⟩ := Option.map_eq_some_iff.1 h
      cases heq'
      dsimp only at heq
      subst heq
      exact ⟨hmem, hu'⟩
    · cases h
  · rintro ⟨hmem, hu⟩
    exact ⟨(e, td, nd), hmem, by simp [hu]⟩

omit [DecidableEq ν] in
theorem mem_outEnds :
    (e, hd, v) ∈ g.outEnds nd ↔ (e, nd, hd) ∈ g.edges ∧ g.vertices[hd]? = some v := by
  rw [outEnds, List.mem_filterMap]
  constructor
  · rintro ⟨⟨e', td', hd'⟩, hmem, h⟩
    split at h
    · next heq =>
      obtain ⟨v', hv', heq'⟩ := Option.map_eq_some_iff.1 h
      cases heq'
      dsimp only at heq
      subst heq
      exact ⟨hmem, hv'⟩
    · cases h
  · rintro ⟨hmem, hv⟩
    exact ⟨(e, nd, hd), hmem, by simp [hv]⟩

/-- The edges into a node, with their tails. -/
theorem Placed.joins_inEnds (hg : g.Placed) (hv : g.IsAt v nd) (h : (e, td, u) ∈ g.inEnds nd) :
    g.Joins e u v ∧ g.IsAt u td := by
  obtain ⟨hmem, hu⟩ := mem_inEnds.1 h
  obtain ⟨u', v', hu', _⟩ := hg e td nd hmem
  cases Option.some.inj (hu'.1.symm.trans hu)
  exact ⟨⟨td, nd, hmem, hu, hv.1⟩, hu'⟩

theorem Placed.mem_inEnds_of_joins (hg : g.Placed) (hv : g.IsAt v nd) (h : g.Joins e u v) :
    ∃ td, (e, td, u) ∈ g.inEnds nd := by
  obtain ⟨td, hd, hmem, hu, hv'⟩ := hg.joins h
  cases Option.some.inj (hv'.2.symm.trans hv.2)
  exact ⟨td, mem_inEnds.2 ⟨hmem, hu.1⟩⟩

theorem Placed.joins_outEnds (hg : g.Placed) (hu : g.IsAt u nd) (h : (e, hd, v) ∈ g.outEnds nd) :
    g.Joins e u v ∧ g.IsAt v hd := by
  obtain ⟨hmem, hv⟩ := mem_outEnds.1 h
  obtain ⟨u', v', _, hv'⟩ := hg e nd hd hmem
  cases Option.some.inj (hv'.1.symm.trans hv)
  exact ⟨⟨nd, hd, hmem, hu.1, hv⟩, hv'⟩

theorem Placed.mem_outEnds_of_joins (hg : g.Placed) (hu : g.IsAt u nd) (h : g.Joins e u v) :
    ∃ hd, (e, hd, v) ∈ g.outEnds nd := by
  obtain ⟨td, hd, hmem, hu', hv⟩ := hg.joins h
  cases Option.some.inj (hu'.2.symm.trans hu.2)
  exact ⟨hd, mem_outEnds.2 ⟨hmem, hv.1⟩⟩

/-- Along every edge the sink distance grows by its weight, except where the length of the head is
still to be passed on. What comes through a back edge goes through no other one, and a zero in its
table need not stand for a path. -/
def Rising (S : GraphSetup ν ε) (g : BoostGraph ν ε) (P : Bool → ν → Nat → Prop)
    (t : PathLengths ν) : Prop :=
  ∀ e u v, g.Joins e u v → ∀ b l, t.find .sink b v = some l →
    (b = true → S.isBackEdge e = false ∧ 0 < l) →
      P b v l ∨ t.AtLeast (b || S.isBackEdge e) u (l + S.edgeWeight e v)

/-- The lengths that are in the queue. -/
def Pending (queue : List (PathLengthHelper ν)) (b : Bool) (n : ν) (len : Nat) : Prop :=
  ∃ helper ∈ queue, helper.looping = b ∧ helper.node = n ∧ helper.len = len

variable {t t' : PathLengths ν} {P Q : Bool → ν → Nat → Prop}

theorem Rising.weaken (h : Rising S g P t) (hPQ : ∀ b v l, P b v l → Q b v l) :
    Rising S g Q t :=
  fun e u v he b l hl hpos => (h e u v he b l hl hpos).imp (hPQ b v l) id

/-- A longer length that is stored has to be passed on. -/
theorem Rising.store (h : Rising S g P t) (hlen : ∀ l, t.find .sink b n = some l → l ≤ len)
    (hP : P b n len) : Rising S g P (t.store .sink b n len) := by
  intro e u v he b' l hl hpos
  rw [find_store] at hl
  split at hl
  · next heq =>
    obtain ⟨_, rfl, rfl⟩ := heq
    cases hl
    exact .inl hP
  · exact (h e u v he b' l hl hpos).imp id (grows_store hlen _ u _)

theorem Rising.of_find (h : Rising S g P t)
    (hfind : ∀ b n, t'.find .sink b n = t.find .sink b n) : Rising S g P t' := by
  intro e u v he b l hl hpos
  rw [hfind] at hl
  exact (h e u v he b l hl hpos).imp id (grows_of_find hfind _ u _)

/-- What visiting an edge into a node leaves of the lengths and of the queue. -/
structure Visited (S : GraphSetup ν ε) (g : BoostGraph ν ε) (P : Bool → ν → Nat → Prop)
    (acc acc' : PathLengths ν × List (PathLengthHelper ν)) : Prop where
  grows : Grows acc.1 acc'.1
  rising : Rising S g (fun b v l => P b v l ∨ Pending acc.2 b v l) acc.1 →
    Rising S g (fun b v l => P b v l ∨ Pending acc'.2 b v l) acc'.1
  bounded : acc.1.Bounded → acc'.1.Bounded
  isAt : (∀ helper ∈ acc.2, ∃ nd, g.IsAt helper.node nd) →
    ∀ helper ∈ acc'.2, ∃ nd, g.IsAt helper.node nd

theorem Visited.refl (acc : PathLengths ν × List (PathLengthHelper ν)) : Visited S g P acc acc :=
  ⟨Grows.refl _, id, id, id⟩

theorem Visited.trans {acc acc' acc'' : PathLengths ν × List (PathLengthHelper ν)}
    (h : Visited S g P acc acc') (h' : Visited S g P acc' acc'') : Visited S g P acc acc'' :=
  ⟨h.grows.trans h'.grows, h'.rising ∘ h.rising, h'.bounded ∘ h.bounded, h'.isAt ∘ h.isAt⟩

/-- An edge that is visited passes the length on to its tail. -/
theorem visited_visitInEdge (acc : PathLengths ν × List (PathLengthHelper ν)) {x : ε × Nat × ν}
    (hx : g.IsAt x.2.2 x.2.1) :
    Visited S g P acc (visitInEdge S node len looping acc x) ∧
      ((looping = true → S.isBackEdge x.1 = false) →
        (visitInEdge S node len looping acc x).1.AtLeast (looping || S.isBackEdge x.1) x.2.2
          (len + S.edgeWeight x.1 node)) := by
  obtain ⟨t, queue⟩ := acc
  rw [visitInEdge]
  split
  · next hskip =>
    refine ⟨.refl _, fun hb => ?_⟩
    rw [Bool.and_eq_true] at hskip
    rw [hb hskip.1] at hskip
    cases hskip.2
  · dsimp only
    split
    · next hshort =>
      rw [isShorter_iff, find_raiseHeight] at hshort
      generalize hloop : (looping || S.isBackEdge x.1) = loop at *
      have hfind : ∀ b n, (((t.raiseHeight (len + S.edgeWeight x.1 node)).store .sink loop x.2.2
          (len + S.edgeWeight x.1 node)).touch .source false x.2.2).find .sink b n =
          (t.store .sink loop x.2.2 (len + S.edgeWeight x.1 node)).find .sink b n := by
        intro b n
        simp [find_touch, find_store]
      have hle : ∀ l, t.find .sink loop x.2.2 = some l → l ≤ len + S.edgeWeight x.1 node :=
        fun l hl => Nat.le_of_lt (hshort l hl)
      refine ⟨⟨(grows_store hle).trans (grows_of_find hfind), fun hr => ?_, fun hb => ?_, ?_⟩, ?_⟩
      · apply Rising.of_find _ hfind
        apply Rising.store _ hle
        · exact .inr ⟨_, List.mem_append_right _ List.mem_cons_self, rfl, rfl, rfl⟩
        · refine hr.weaken fun b v l h => h.imp id ?_
          rintro ⟨helper, hmem, heq⟩
          exact ⟨helper, List.mem_append_left _ hmem, heq⟩
      · have hst := hb.raiseHeight.store (b := loop) (n := x.2.2)
          (le_height_raiseHeight t (len + S.edgeWeight x.1 node))
        intro b n l hl
        rw [find_touch, if_neg (by simp)] at hl
        rw [height_touch]
        exact hst b n l hl
      · intro hq helper hmem
        rcases List.mem_append.1 hmem with h | h
        · exact hq helper h
        · rw [List.mem_singleton] at h
          subst h
          exact ⟨_, hx⟩
      · intro _
        refine ⟨_, ?_, Nat.le_refl _⟩
        rw [hfind, find_store, if_pos ⟨rfl, rfl, rfl⟩]
    · next hlong =>
      rw [isShorter_iff, find_raiseHeight] at hlong
      refine ⟨⟨grows_of_find fun b n => find_raiseHeight, fun hr => ?_, Bounded.raiseHeight, id⟩,
        ?_⟩
      · exact hr.of_find fun b n => find_raiseHeight
      · intro _
        simp only [not_forall, Nat.not_lt] at hlong
        obtain ⟨l, hl, hle⟩ := hlong
        exact ⟨l, by rw [find_raiseHeight, hl], hle⟩

theorem visited_foldl {xs : List (ε × Nat × ν)} (hxs : ∀ x ∈ xs, g.IsAt x.2.2 x.2.1)
    (acc : PathLengths ν × List (PathLengthHelper ν)) :
    Visited S g P acc (xs.foldl (visitInEdge S node len looping) acc) ∧
      ∀ x ∈ xs, (looping = true → S.isBackEdge x.1 = false) →
        (xs.foldl (visitInEdge S node len looping) acc).1.AtLeast (looping || S.isBackEdge x.1)
          x.2.2 (len + S.edgeWeight x.1 node) := by
  induction xs generalizing acc with
  | nil => exact ⟨.refl _, fun _ h => absurd h List.not_mem_nil⟩
  | cons x xs ih =>
    obtain ⟨hx, hxs⟩ := List.forall_mem_cons.1 hxs
    obtain ⟨hv, hpass⟩ := @visited_visitInEdge ν ε _ g S P node len looping acc x hx
    obtain ⟨hvs, hpasses⟩ := ih hxs (visitInEdge S node len looping acc x)
    rw [List.foldl_cons]
    refine ⟨hv.trans hvs, fun y hy hback => ?_⟩
    rcases List.mem_cons.1 hy with rfl | hy
    · exact hvs.grows _ _ _ (hpass hback)
    · exact hpasses y hy hback

end BoostGraph

end OpenAsip
