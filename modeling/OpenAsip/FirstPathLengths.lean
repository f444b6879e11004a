import OpenAsip.PathLengthEnds

namespace OpenAsip
set_option autoImplicit true

namespace BoostGraph
open PathLengths
variable {ν ε : Type} [DecidableEq ν] {S : GraphSetup ν ε} {g : BoostGraph ν ε}
  {t t' : PathLengths ν} {n : ν} {fuel : Nat}

/-- Lengths that have not been calculated do not change before they are. -/
def Late (t t' : PathLengths ν) : Prop := t' = t ∨ t'.height ≠ none

omit [DecidableEq ν] in
theorem Late.trans (h : Late t t') (h' : Late t' t'') : Late t t'' := by
  rcases h' with rfl | h'
  · exact h
  · exact .inr h'

theorem late_addNode (t : PathLengths ν) (n : ν) : Late t (t.addNode n) := by
  rw [PathLengths.addNode]
  split
  · next h =>
    right
    simp only [height_store]
    exact Option.isSome_iff_ne_none.1 h
  · exact .inl rfl

theorem late_eraseNode (t : PathLengths ν) (n : ν) : Late t (t.eraseNode n) := by
  rw [PathLengths.eraseNode]
  split
  · next h => exact .inr (Option.isSome_iff_ne_none.1 h)
  · exact .inl rfl

theorem height_lookAhead (xs : List (ε × Nat × ν)) (acc : PathLengths ν × Nat × Nat) :
    (xs.foldl (lookAhead S side n) acc).1.height = acc.1.height := by
  induction xs generalizing acc with
  | nil => rfl
  | cons x xs ih =>
    rw [List.foldl_cons, ih, lookAhead_fst, height_touch]

theorem height_distDecreased [DecidableEq ε] (hheight : t.height ≠ none)
    (h : distDecreased S g side fuel n t = some t') : t'.height ≠ none := by
  induction fuel generalizing n t t' with
  | zero => cases h
  | succ fuel ih =>
    rw [distDecreased, Option.isNone_eq_false_iff.2 (Option.isSome_iff_ne_none.2 hheight)] at h
    simp only [Bool.false_eq_true, if_false] at h
    obtain ⟨nd, _, h⟩ := Option.bind_eq_some_iff.1 h
    have hnext : ((g.endsAhead side nd).foldl (lookAhead S side n)
        (t.touch side false n, 0, 0)).1.height = _ := height_lookAhead _ _
    rw [height_touch] at hnext
    split at h
    · apply Option.foldlM_invariant (fun s => s.height ≠ none) _ _ h
      · intro x _ s s' hs hcall
        split at hcall
        · exact ih hs hcall
        · cases hcall
          exact hs
      · split
        · rw [height_store, height_store, hnext]
          exact hheight
        · rw [height_store, hnext]
          exact hheight
    · cases h
      rw [hnext]
      exact hheight

theorem late_distDecreased [DecidableEq ε] (h : distDecreased S g side fuel n t = some t') :
    Late t t' := by
  by_cases hheight : t.height = none
  · cases fuel with
    | zero => cases h
    | succ fuel =>
      rw [distDecreased, hheight] at h
      cases h
      exact .inl rfl
  · exact .inr (height_distDecreased hheight h)

theorem late_calculatePathLengthsOnConnect
    (h : calculatePathLengthsOnConnect S g fuel nTail nHead e t = some t') : Late t t' := by
  rw [calculatePathLengthsOnConnect] at h
  split at h
  · cases h
    exact .inl rfl
  · obtain ⟨t₁, _, h⟩ := Option.bind_eq_some_iff.1 h
    obtain ⟨t₂, _, h⟩ := Option.bind_eq_some_iff.1 h
    obtain ⟨t₃, _, h⟩ := Option.bind_eq_some_iff.1 h
    exact .inr (keepsSinks_calculateSourceDistances h).2

theorem height_visitInEdges (xs : List (ε × Nat × ν))
    (acc : PathLengths ν × List (PathLengthHelper ν)) (hheight : acc.1.height ≠ none) :
    (xs.foldl (visitInEdge S n len looping) acc).1.height ≠ none := by
  induction xs generalizing acc with
  | nil => exact hheight
  | cons x xs ih =>
    rw [List.foldl_cons]
    apply ih
    rw [visitInEdge]
    split
    · exact hheight
    · dsimp only
      split
      · rw [height_touch, height_store]
        exact Option.some_ne_none _
      · exact Option.some_ne_none _

theorem height_calculateSinkDistance
    (h : calculateSinkDistance S g fuel n len looping t = some t') (hheight : t.height ≠ none) :
    t'.height ≠ none := by
  induction fuel generalizing n len looping t t' with
  | zero => cases h
  | succ fuel ih =>
    rw [calculateSinkDistance] at h
    split at h
    · cases h
    · split at h
      · cases h
        exact hheight
      · obtain ⟨nd, _, h⟩ := Option.bind_eq_some_iff.1 h
        apply Option.foldlM_invariant (fun s => s.height ≠ none) _ _ h
        · exact fun helper _ s s' hs hcall => ih hcall hs
        · exact height_visitInEdges _ _ (Option.some_ne_none _)

theorem height_calculatePathLengthsFast (order : List Nat) (hheight : t.height ≠ none) :
    (calculatePathLengthsFast S g order t).height ≠ none := by
  rw [calculatePathLengthsFast]
  induction order generalizing t with
  | nil => exact hheight
  | cons nd order ih =>
    rw [List.foldl_cons]
    apply ih
    split
    · next node _ =>
      have hfold : ∀ (len : Nat) (xs : List (ε × Nat × ν)) (t : PathLengths ν), t.height ≠ none →
          (xs.foldl (visitInEdgeFast S node len) t).height ≠ none := by
        intro len xs
        induction xs with
        | nil => exact fun _ ht => ht
        | cons x xs ihxs =>
          intro t ht
          apply ihxs
          rw [visitInEdgeFast]
          split
          · exact Option.some_ne_none _
          · exact ht
      apply hfold
      rw [height_touch]
      exact hheight
    · exact hheight

theorem height_calculatePathLengths (h : calculatePathLengths S g fuel t = some t') :
    t'.height ≠ none := by
  rw [calculatePathLengths] at h
  obtain ⟨t₁, h₁, h⟩ := Option.bind_eq_some_iff.1 h
  have hheight := (keepsSinks_calculateSourceDistances h₁).2
  split at h
  · rw [calculateSinkDistances] at h
    have hstart : ∀ (xs : List (ν × Nat)) (acc : PathLengths ν × List (PathLengthHelper ν)),
        acc.1.height ≠ none → (xs.foldl (startSink S g) acc).1.height ≠ none := by
      intro xs
      induction xs with
      | nil => exact fun _ hacc => hacc
      | cons x xs ih =>
        intro acc hacc
        apply ih
        rw [startSink]
        split
        · exact hacc
        · rw [height_touch]
          exact hacc
    apply Option.foldlM_invariant (fun s => s.height ≠ none) _ (hstart _ _ hheight) h
    exact fun helper _ s s' hs hcall => height_calculateSinkDistance hcall hs
  · obtain ⟨order, _, rfl⟩ := Option.map_eq_some_iff.1 h
    exact height_calculatePathLengthsFast order hheight

end BoostGraph

namespace PathGraph
open PathLengths BoostGraph
variable {ν ε : Type} [DecidableEq ν] [DecidableEq ε] {S : GraphSetup ν ε} {fuel : Nat}
  {p p' : PathGraph ν ε}

theorem late_addEdge (h : p.addEdge S fuel nTail nHead e = some p') :
    Late p.lengths p'.lengths := by
  obtain ⟨td, _, h⟩ := Option.bind_eq_some_iff.1 h
  obtain ⟨hd, _, h⟩ := Option.bind_eq_some_iff.1 h
  obtain ⟨t, ht, h⟩ := Option.bind_eq_some_iff.1 h
  cases h
  exact late_calculatePathLengthsOnConnect ht

theorem late_takeEdge (h : p.takeEdge S fuel oldTail oldHead e = some p') :
    Late p.lengths p'.lengths := by
  obtain ⟨t₁, h₁, h⟩ := Option.bind_eq_some_iff.1 h
  obtain ⟨t₂, h₂, h⟩ := Option.bind_eq_some_iff.1 h
  cases h
  exact (late_distDecreased h₁).trans (late_distDecreased h₂)

omit [DecidableEq ν] [DecidableEq ε] in
theorem late_callIf {c : Bool} {step : PathGraph ν ε → Option (PathGraph ν ε)}
    (hstep : ∀ q, step p = some q → Late p.lengths q.lengths)
    (h : callIf c step p = some p') : Late p.lengths p'.lengths := by
  cases c with
  | true => exact hstep p' h
  | false =>
    cases h
    exact .inl rfl

theorem late_connectNodes (h : p.connectNodes S fuel creatingSG nTail nHead e = some p') :
    Late p.lengths p'.lengths := by
  rw [connectNodes] at h
  split at h
  · split at h
    · cases h
      exact .inl rfl
    · cases h
  · obtain ⟨td, _, h⟩ := Option.bind_eq_some_iff.1 h
    obtain ⟨hd, _, h⟩ := Option.bind_eq_some_iff.1 h
    split at h
    · cases h
    · split at h
      · split at h
        · cases h
        · exact late_addEdge h
      · cases h
        exact .inl rfl

omit [DecidableEq ν] in
theorem lengths_removeEdge (e : ε) (p : PathGraph ν ε) : (p.removeEdge e).lengths = p.lengths := by
  rw [removeEdge]
  split
  · rfl
  · rfl

omit [DecidableEq ν] in
theorem lengths_removeEdges (es : List ε) (p : PathGraph ν ε) :
    (es.foldl (fun p e => p.removeEdge e) p).lengths = p.lengths := by
  induction es generalizing p with
  | nil => rfl
  | cons e es ih =>
    rw [List.foldl_cons, ih, lengths_removeEdge]

omit [DecidableEq ε] in
theorem height_wasLongest (t : PathLengths ν) (side : PathEnd) (near far : ν) (w w' : Nat) :
    (t.wasLongest side near far w w').1.height = t.height := by
  rw [wasLongest]
  dsimp only
  split
  · rw [height_touch, height_touch]
  · split
    · rw [height_touch, height_touch]
    · simp only [height_touch]

theorem late_disconnectNodes (h : p.disconnectNodes S fuel nTail nHead = some p') :
    Late p.lengths p'.lengths := by
  rw [disconnectNodes] at h
  obtain ⟨td, _, h⟩ := Option.bind_eq_some_iff.1 h
  obtain ⟨hd, _, h⟩ := Option.bind_eq_some_iff.1 h
  dsimp only at h
  have hlengths := lengths_removeEdges
    ((p.graph.edges.filter fun x => x.2 = (td, hd)).map Prod.fst) p
  generalize ((p.graph.edges.filter fun x => x.2 = (td, hd)).map Prod.fst).foldl
    (fun p e => p.removeEdge e) p = q at h hlengths
  split at h
  · cases h
    exact .inl hlengths
  · next hheight =>
    have hheight : q.lengths.height ≠ none := fun hnone => hheight (by rw [hnone]; rfl)
    obtain ⟨t₁, h₁, h⟩ := Option.bind_eq_some_iff.1 h
    obtain ⟨t₂, h₂, h⟩ := Option.bind_eq_some_iff.1 h
    cases h
    right
    have hcall : ∀ {c : Bool} {side g n t t'},
        callIf c (distDecreased S g side fuel n) t = some t' → t.height ≠ none →
        t'.height ≠ none := by
      intro c side g n t t' h ht
      cases c with
      | true => exact height_distDecreased ht h
      | false =>
        cases h
        exact ht
    have ht₁ := hcall h₁ (by rw [height_wasLongest]; exact hheight)
    apply hcall h₂
    split
    · exact ht₁
    · rw [height_wasLongest]
      exact ht₁

omit [DecidableEq ν] [DecidableEq ε] in
theorem late_foldlM {es : List ε} {step : PathGraph ν ε → ε → Option (PathGraph ν ε)}
    (hstep : ∀ q e q', step q e = some q' → Late q.lengths q'.lengths)
    (h : es.foldlM step p = some p') : Late p.lengths p'.lengths := by
  apply Option.foldlM_invariant (fun q => Late p.lengths q.lengths) _ (.inl rfl) h
  intro e _ q q' hq hmove
  exact hq.trans (hstep q e q' hmove)

theorem late_moveToHead (h : p.moveToHead S fuel source destination e = some p') :
    Late p.lengths p'.lengths := by
  obtain ⟨tail, _, h⟩ := Option.bind_eq_some_iff.1 h
  obtain ⟨q, hq, h⟩ := Option.bind_eq_some_iff.1 h
  apply (late_takeEdge hq).trans
  exact late_callIf (p := q.forgetEdge e) (fun _ => late_addEdge) h

theorem late_moveToTail (h : p.moveToTail S fuel source destination e = some p') :
    Late p.lengths p'.lengths := by
  obtain ⟨head, _, h⟩ := Option.bind_eq_some_iff.1 h
  obtain ⟨q, hq, h⟩ := Option.bind_eq_some_iff.1 h
  apply (late_takeEdge hq).trans
  exact late_callIf (p := q.forgetEdge e) (fun _ => late_addEdge) h

theorem late_moveInEdges (h : p.moveInEdges S fuel source destination = some p') :
    Late p.lengths p'.lengths := by
  rw [moveInEdges] at h
  split at h
  · split at h
    · cases h
    · cases h
      exact .inl rfl
  · exact late_foldlM (fun _ _ _ => late_moveToHead) h

theorem late_moveOutEdges (h : p.moveOutEdges S fuel source destination = some p') :
    Late p.lengths p'.lengths := by
  rw [moveOutEdges] at h
  split at h
  · split at h
    · cases h
    · cases h
      exact .inl rfl
  · exact late_foldlM (fun _ _ _ => late_moveToTail) h

theorem late_moveInEdge (h : p.moveInEdge S fuel original new e tail = some p') :
    Late p.lengths p'.lengths := by
  rw [moveInEdge] at h
  split at h
  · obtain ⟨q, hq, h⟩ := Option.bind_eq_some_iff.1 h
    apply (late_callIf (fun _ => late_takeEdge) hq).trans
    exact late_callIf (fun _ => late_addEdge) h
  · cases h
    exact .inl rfl

theorem late_moveOutEdge (h : p.moveOutEdge S fuel original new e head = some p') :
    Late p.lengths p'.lengths := by
  rw [moveOutEdge] at h
  split at h
  · obtain ⟨q, hq, h⟩ := Option.bind_eq_some_iff.1 h
    apply (late_callIf (fun _ => late_takeEdge) hq).trans
    exact late_callIf (fun _ => late_addEdge) h
  · cases h
    exact .inl rfl

theorem late_replaceNodeWithLastNode (h : p.replaceNodeWithLastNode S fuel dest = some p') :
    Late p.lengths p'.lengths := by
  rw [replaceNodeWithLastNode] at h
  obtain ⟨succs, _, h⟩ := Option.bind_eq_some_iff.1 h
  obtain ⟨preds, _, h⟩ := Option.bind_eq_some_iff.1 h
  obtain ⟨⟨g, lastNode, nd⟩, _, h⟩ := Option.bind_eq_some_iff.1 h
  obtain ⟨t₁, h₁, h⟩ := Option.bind_eq_some_iff.1 h
  obtain ⟨t₂, h₂, h⟩ := Option.bind_eq_some_iff.1 h
  cases h
  have hfold : ∀ {side t t'} {ns : List ν},
      ns.foldlM (fun t n => distDecreased S g side fuel n t) t = some t' → Late t t' := by
    intro side t t' ns h
    apply Option.foldlM_invariant (Late t) _ (.inl rfl) h
    intro n _ s s' hs hcall
    exact hs.trans (late_distDecreased hcall)
  exact ((late_eraseNode _ _).trans (hfold h₁)).trans (hfold h₂)

omit [DecidableEq ε] in
theorem late_height (h : p.height S fuel = some (k, p')) : Late p.lengths p'.lengths := by
  rw [PathGraph.height] at h
  split at h
  · cases h
    exact .inl rfl
  · obtain ⟨t, _, h⟩ := Option.bind_eq_some_iff.1 h
    obtain ⟨k', hk', h⟩ := Option.bind_eq_some_iff.1 h
    cases h
    exact .inr (ne_of_eq_of_ne hk' (Option.some_ne_none _))

omit [DecidableEq ε] in
theorem late_maxSinkDistance (h : p.maxSinkDistance S fuel n = some (d, p')) :
    Late p.lengths p'.lengths := by
  rw [PathGraph.maxSinkDistance] at h
  split at h
  · cases h
    exact .inl rfl
  · split at h
    · cases h
      exact .inl rfl
    · obtain ⟨t, ht, h⟩ := Option.bind_eq_some_iff.1 h
      obtain ⟨l, _, h⟩ := Option.bind_eq_some_iff.1 h
      cases h
      exact .inr (height_calculatePathLengths ht)

omit [DecidableEq ε] in
theorem late_maxSourceDistance (h : p.maxSourceDistance S fuel n = some (d, p')) :
    Late p.lengths p'.lengths := by
  rw [PathGraph.maxSourceDistance] at h
  split at h
  · cases h
    exact .inl rfl
  · split at h
    · cases h
      exact .inl rfl
    · obtain ⟨t, ht, h⟩ := Option.bind_eq_some_iff.1 h
      obtain ⟨l, _, h⟩ := Option.bind_eq_some_iff.1 h
      cases h
      exact .inr (keepsSinks_calculateSourceDistances ht).2

theorem late_step (hp : Right S p) (h : Step S p p') : Late p.lengths p'.lengths := by
  obtain ⟨c, fuel, _, h⟩ := h
  cases c with
  | addNode n =>
    cases h
    exact late_addNode _ _
  | connectNodes creatingSG nTail nHead e => exact late_connectNodes h
  | removeEdge e =>
    cases h
    exact .inl (lengths_removeEdge e p)
  | dropEdge e =>
    rw [call, dropEdge] at h
    split at h
    · cases h
      exact .inl rfl
    · cases h
  | disconnectNodes nTail nHead => exact late_disconnectNodes h
  | moveInEdges source destination => exact late_moveInEdges h
  | moveOutEdges source destination => exact late_moveOutEdges h
  | moveInEdge originalHeadNode newHeadNode edge tail => exact late_moveInEdge h
  | moveOutEdge originalTailNode newTailNode edge head => exact late_moveOutEdge h
  | removeNode n =>
    rw [call, removeNode] at h
    split at h
    · exact late_replaceNodeWithLastNode h
    · split at h
      · cases h
        exact .inl rfl
      · cases h
  | dropNode n =>
    rw [call, dropNode] at h
    split at h
    · exact late_replaceNodeWithLastNode h
    · cases h
      exact .inl rfl
  | height =>
    obtain ⟨⟨k, p₁⟩, h₁, rfl⟩ := Option.map_eq_some_iff.1 h
    exact late_height h₁
  | maxSinkDistance n =>
    obtain ⟨⟨d, p₁⟩, h₁, rfl⟩ := Option.map_eq_some_iff.1 h
    exact late_maxSinkDistance h₁
  | maxSourceDistance n =>
    obtain ⟨⟨d, p₁⟩, h₁, rfl⟩ := Option.map_eq_some_iff.1 h
    exact late_maxSourceDistance h₁
  | findAllPaths =>
    cases h
    exact .inl rfl
  | hasPath src dest =>
    obtain ⟨⟨path, p₁⟩, h₁, rfl⟩ := Option.map_eq_some_iff.1 h
    cases hp.hasPath_state h₁
    exact .inl rfl
  | findNode n =>
    cases h
    exact .inl rfl
  | findEdge e =>
    cases h
    exact .inl rfl

theorem late_steps (hp : Right S p) (h : Relation.ReflTransGen (Step S) p p') :
    Late p.lengths p'.lengths := by
  induction h with
  | refl => exact .inl rfl
  | tail hrun hstep ih => exact ih.trans (late_step (hp.steps hrun) hstep)

omit [DecidableEq ε] in
theorem attained_empty {g : BoostGraph ν ε} : Attained S g PathLengths.empty where
  sink b n l hl := by cases b <;> cases hl
  source b n l hl := by cases b <;> cases hl
  height h hh := by cases hh

omit [DecidableEq ν] [DecidableEq ε] in
theorem calculable_of_acyclic {g : BoostGraph ν ε} (hacyclic : Acyclic S g)
    (hsort : ∀ order, S.topologicalSort g = some order → TopologicalOrder g order) :
    Calculable S g := by
  rw [Calculable]
  split
  · intro n _
    apply GraphSearch.exists_end (l := g.vertices) hacyclic
    intro u v hforward
    obtain ⟨e, he, _⟩ := hforward
    exact he.left
  · exact hsort

omit [DecidableEq ε] in
/-- The first lengths are calculated to the end and are those of the longest paths. -/
theorem Right.height_first (hp : Right S p) (hlengths : p.lengths = PathLengths.empty)
    (hacyclic : Acyclic S p.graph) (hlight : Light S p.graph)
    (hsort : ∀ order, S.topologicalSort p.graph = some order → TopologicalOrder p.graph order)
    (hsorted : S.allowLoopEdges = false → ∃ order, S.topologicalSort p.graph = some order)
    (hfuel : 52003 * p.graph.vertices.length + 2 ≤ fuel) :
    ∃ h p', p.height S fuel = some (h, p') ∧ p'.graph = p.graph ∧ p'.lengths.height = some h ∧
      Right S p' ∧ Attained S p'.graph p'.lengths := by
  have hattained : Attained S p.graph p.lengths := hlengths ▸ attained_empty
  have hheight : p.lengths.height = none := by rw [hlengths]; rfl
  obtain ⟨t, ht⟩ := calculatePathLengths_ends hp.wf hacyclic hlight hsorted hattained hfuel
  have hright := hp.calculated hheight (calculable_of_acyclic hacyclic hsort) ht
  have hattained' := calculatePathLengths_attained hp.wf hp.loops hattained ht
  obtain ⟨h, hh⟩ := Option.ne_none_iff_exists'.1 (height_calculatePathLengths ht)
  refine ⟨h, { p with lengths := t }, ?_, rfl, hh, hright, hattained'⟩
  rw [PathGraph.height, hheight]
  simp [ht, hh]

end PathGraph

end OpenAsip
