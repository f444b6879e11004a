import OpenAsip.PathWeights

namespace OpenAsip
set_option autoImplicit true

namespace PathGraph
open PathLengths BoostGraph
variable {ν ε : Type} [DecidableEq ν] {S : GraphSetup ν ε} {fuel : Nat} {p p' : PathGraph ν ε}

/-- No path without a back edge is longer than the sink distance. -/
theorem Right.sinkPath_le_distance (hp : Right S p) (hheight : p.lengths.height ≠ none)
    (h : SinkPath S p.graph b n k) (hb : b = false) (hn : n ∈ p.graph.nodes) :
    k ≤ p.lengths.distance .sink false n := by
  induction h with
  | stop => exact Nat.zero_le _
  | @forward e u v b k he hforward _ ih =>
    obtain ⟨l, hl⟩ := Option.ne_none_iff_exists'.1 (hp.sinks.listed hheight v he.right)
    have hk := ih hb he.right
    rw [distance, hl, Option.getD_some] at hk
    have hat := hp.sinks.settled.atLeast he hl (by simp)
    rw [hforward, Bool.or_self] at hat
    obtain ⟨m, hm, hle⟩ := hat
    rw [distance, hm, Option.getD_some]
    omega
  | back he _ _ _ => cases hb

/-- No path through one back edge is longer than the longer sink distance. -/
theorem Right.sinkPath_le (hp : Right S p) (hheight : p.lengths.height ≠ none)
    (h : SinkPath S p.graph b n k) : k ≤ farthest p.lengths n := by
  induction h with
  | stop => exact Nat.zero_le _
  | forward he hforward _ ih =>
    exact Nat.le_trans (Nat.add_le_add_right ih _) (hp.farthest_add_le he hforward hheight)
  | @back e u v k he hback hpath _ =>
    have hk := hp.sinkPath_le_distance hheight hpath rfl he.right
    obtain ⟨l, hl⟩ := Option.ne_none_iff_exists'.1 (hp.sinks.listed hheight v he.right)
    rw [distance, hl, Option.getD_some] at hk
    have hat := hp.sinks.settled.atLeast he hl (by simp)
    rw [hback, Bool.or_true] at hat
    obtain ⟨m, hm, hle⟩ := hat
    have hu : p.lengths.distance .sink true u = m := by rw [distance, hm, Option.getD_some]
    rw [farthest, hu]
    omega

theorem Right.farthest_le_height (hp : Right S p) (hheight : p.lengths.height = some h) (n : ν) :
    farthest p.lengths n ≤ h := by
  have hle : ∀ b, p.lengths.distance .sink b n ≤ h := by
    intro b
    rw [distance]
    cases hf : p.lengths.find .sink b n with
    | none => exact Nat.zero_le h
    | some l =>
      obtain ⟨k, hk, hle⟩ := hp.sinks.bounded b n l hf
      cases hheight.symm.trans hk
      exact hle
  exact Nat.max_le.2 ⟨hle true, hle false⟩

theorem sinkPath_farthest (h : Attained S p.graph p.lengths) (n : ν) :
    SinkPath S p.graph true n (farthest p.lengths n) := by
  rw [PathGraph.farthest]
  rcases Nat.le_total (p.lengths.distance .sink true n) (p.lengths.distance .sink false n)
    with hle | hle
  · rw [Nat.max_eq_right hle]
    exact (h.sinkPath false n).relax
  · rw [Nat.max_eq_left hle]
    exact h.sinkPath true n

theorem attained_addNode (hp : Right S p) (ha : Attained S p.graph p.lengths) (n : ν) :
    Attained S (p.addNode n).graph (p.addNode n).lengths := by
  apply Attained.mono (g := p.graph) _ fun _ _ _ h => hp.wf.joins_addNode.2 h
  rw [PathGraph.addNode, PathLengths.addNode]
  dsimp only
  split
  · apply Attained.storeSink _ .stop
    apply Attained.storeSource _ .start
    apply Attained.storeSink _ .stop
    exact ha.storeSource .start
  · exact ha

theorem attained_height (hp : Right S p) (ha : Attained S p.graph p.lengths)
    (h : p.height S fuel = some (k, p')) : Attained S p'.graph p'.lengths := by
  rw [PathGraph.height] at h
  split at h
  · cases h
    exact ha
  · obtain ⟨t, ht, h⟩ := Option.bind_eq_some_iff.1 h
    obtain ⟨k', _, h⟩ := Option.bind_eq_some_iff.1 h
    cases h
    exact calculatePathLengths_attained hp.wf hp.loops ha ht

theorem attained_maxSinkDistance (hp : Right S p) (ha : Attained S p.graph p.lengths)
    (h : p.maxSinkDistance S fuel n = some (d, p')) : Attained S p'.graph p'.lengths := by
  rw [PathGraph.maxSinkDistance] at h
  split at h
  · cases h
    exact ha
  · split at h
    · cases h
      exact ha
    · obtain ⟨t, ht, h⟩ := Option.bind_eq_some_iff.1 h
      obtain ⟨k', _, h⟩ := Option.bind_eq_some_iff.1 h
      cases h
      exact calculatePathLengths_attained hp.wf hp.loops ha ht

theorem attained_maxSourceDistance (hp : Right S p) (ha : Attained S p.graph p.lengths)
    (h : p.maxSourceDistance S fuel n = some (d, p')) : Attained S p'.graph p'.lengths := by
  rw [PathGraph.maxSourceDistance] at h
  split at h
  · cases h
    exact ha
  · split at h
    · cases h
      exact ha
    · obtain ⟨t, ht, h⟩ := Option.bind_eq_some_iff.1 h
      obtain ⟨k', _, h⟩ := Option.bind_eq_some_iff.1 h
      cases h
      have hstart : Starts S p.graph false 0 none := rfl
      exact calculateSourceDistances_attained hp.wf ha hstart ht

variable [DecidableEq ε]

/-- The calls that take nothing away. -/
def Adds : Call ν ε → Prop
  | .addNode _ | .connectNodes _ _ _ _ | .height | .maxSinkDistance _ | .maxSourceDistance _
  | .findAllPaths | .hasPath _ _ | .findNode _ | .findEdge _ => True
  | _ => False

def AddingStep (S : GraphSetup ν ε) (p p' : PathGraph ν ε) : Prop :=
  ∃ c fuel, Adds c ∧ Allowed S p c ∧ p.call S fuel c = some p'

theorem AddingStep.step (h : AddingStep S p p') : Step S p p' := by
  obtain ⟨c, fuel, _, hallowed, h⟩ := h
  exact ⟨c, fuel, hallowed, h⟩

theorem attained_addEdge (hp : Right S p) (ha : Attained S p.graph p.lengths)
    (he : ∀ u v, ¬p.graph.Joins e u v) (h : p.addEdge S fuel nTail nHead e = some p') :
    Attained S p'.graph p'.lengths := by
  rw [addEdge] at h
  obtain ⟨td, htd, h⟩ := Option.bind_eq_some_iff.1 h
  obtain ⟨hd, hhd, h⟩ := Option.bind_eq_some_iff.1 h
  obtain ⟨t', ht', h⟩ := Option.bind_eq_some_iff.1 h
  cases h
  have hu := hp.wf.descriptor_eq_some_iff.1 htd
  have hv := hp.wf.descriptor_eq_some_iff.1 hhd
  have hwf' : (p.graph.addEdge e (td, hd)).Wf := by
    apply hp.wf.addEdge
    · intro ed hed
      obtain ⟨u, v, huv⟩ := hp.wf.exists_joins hed
      exact he u v huv
    · exact ⟨(List.getElem?_eq_some_iff.1 hu).1, (List.getElem?_eq_some_iff.1 hv).1⟩
  apply calculatePathLengthsOnConnect_attained hwf' _ _ ht'
  · exact (joins_addEdge hu hv).2 (.inr ⟨rfl, rfl, rfl⟩)
  · exact ha.mono fun _ _ _ h => (joins_addEdge hu hv).2 (.inl h)

theorem attained_connectNodes (hp : Right S p) (ha : Attained S p.graph p.lengths)
    (he : ∀ u v, ¬p.graph.Joins e u v)
    (h : p.connectNodes S fuel creatingSG nTail nHead e = some p') :
    Attained S p'.graph p'.lengths := by
  rw [PathGraph.connectNodes] at h
  split at h
  · split at h
    · cases h
      exact ha
    · cases h
  · obtain ⟨td, _, h⟩ := Option.bind_eq_some_iff.1 h
    obtain ⟨hd, _, h⟩ := Option.bind_eq_some_iff.1 h
    split at h
    · cases h
    · split at h
      · split at h
        · cases h
        · exact attained_addEdge hp ha he h
      · cases h
        exact ha

/-- What takes nothing away leaves every distance the weight of a path. -/
theorem attained_step (hp : Right S p) (ha : Attained S p.graph p.lengths)
    (h : AddingStep S p p') : Attained S p'.graph p'.lengths := by
  obtain ⟨c, fuel, hadds, hallowed, h⟩ := h
  cases c with
  | addNode n =>
    cases h
    exact attained_addNode hp ha n
  | connectNodes creatingSG nTail nHead e => exact attained_connectNodes hp ha hallowed h
  | height =>
    obtain ⟨⟨k, p₁⟩, h₁, rfl⟩ := Option.map_eq_some_iff.1 h
    exact attained_height hp ha h₁
  | maxSinkDistance n =>
    obtain ⟨⟨d, p₁⟩, h₁, rfl⟩ := Option.map_eq_some_iff.1 h
    exact attained_maxSinkDistance hp ha h₁
  | maxSourceDistance n =>
    obtain ⟨⟨d, p₁⟩, h₁, rfl⟩ := Option.map_eq_some_iff.1 h
    exact attained_maxSourceDistance hp ha h₁
  | findAllPaths =>
    cases h
    exact ha
  | hasPath src dest =>
    obtain ⟨⟨path, p₁⟩, h₁, rfl⟩ := Option.map_eq_some_iff.1 h
    exact hp.hasPath_state h₁ ▸ ha
  | findNode n =>
    cases h
    exact ha.mono fun _ _ _ h => h
  | findEdge e =>
    cases h
    exact ha.mono fun _ _ _ h => h
  | _ => exact hadds.elim

theorem attained_steps (hp : Right S p) (ha : Attained S p.graph p.lengths)
    (h : Relation.ReflTransGen (AddingStep S) p p') :
    Right S p' ∧ Attained S p'.graph p'.lengths := by
  induction h with
  | refl => exact ⟨hp, ha⟩
  | tail _ hstep ih => exact ⟨ih.1.step hstep.step, attained_step ih.1 ih.2 hstep⟩

end PathGraph

end OpenAsip
