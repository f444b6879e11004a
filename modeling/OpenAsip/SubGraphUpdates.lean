import OpenAsip.BoostGraphSwaps
import OpenAsip.SubGraphViews

namespace OpenAsip
set_option autoImplicit true

namespace BoostGraph
open ViewTree
variable {ν ε : Type}

/-- The graph is the one that its nodes induce, and has no stale descriptor. -/
structure Shows (J : ε → ν → ν → Prop) (g : BoostGraph ν ε) : Prop where
  wf : g.Wf
  joins : ∀ e u v, g.Joins e u v ↔ J e u v ∧ u ∈ g.nodes ∧ v ∈ g.nodes

/-- A subgraph of the graph. -/
def Sub (h g : BoostGraph ν ε) : Prop := h.nodes ⊆ g.nodes ∧ h.hasParent = true

/-- An update of the graphs that are affected, which changes their nodes, and of the edges. It goes
through the tree because a graph with an affected part is affected. -/
structure Update (f : BoostGraph ν ε → Visit (BoostGraph ν ε)) (A : Set ν → Prop)
    (δ : Set ν → Set ν) (J J' : ε → ν → ν → Prop) (C : BoostGraph ν ε → Prop) : Prop where
  mono : ∀ N M, N ⊆ M → A N → A M
  image : ∀ N M, N ⊆ M → δ N ⊆ δ M
  same : ∀ N, ¬A N → δ N = N
  joins : ∀ g, Shows J g → C g → ¬A g.nodes →
    ∀ e u v, u ∈ g.nodes → v ∈ g.nodes → (J' e u v ↔ J e u v)
  leave : ∀ g, Shows J g → C g → ¬A g.nodes → f g = .leave
  change : ∀ g, Shows J g → C g → A g.nodes → ∃ g', f g = .change g' ∧ Shows J' g' ∧
    g'.nodes = δ g.nodes ∧ g'.hasParent = g.hasParent

section
variable {f : BoostGraph ν ε → Visit (BoostGraph ν ε)} {A : Set ν → Prop} {δ : Set ν → Set ν}
  {J J' : ε → ν → ν → Prop} {C : BoostGraph ν ε → Prop} {g h : BoostGraph ν ε}

theorem Update.of (hf : Update f A δ J J' C) (hg : Shows J g) (hC : C g) :
    (Visit.of f g).nodes = δ g.nodes ∧ (Visit.of f g).hasParent = g.hasParent := by
  rw [Visit.of]
  by_cases hA : A g.nodes
  · obtain ⟨g', h, _, hn, hp⟩ := hf.change g hg hC hA
    rw [h]
    exact ⟨hn, hp⟩
  · rw [hf.leave g hg hC hA, hf.same _ hA]
    exact ⟨rfl, rfl⟩

theorem Update.leave_iff (hf : Update f A δ J J' C) (hg : Shows J g) (hC : C g) :
    f g = .leave ↔ ¬A g.nodes := by
  constructor
  · intro hl hA
    obtain ⟨g', h, _⟩ := hf.change g hg hC hA
    rw [h] at hl
    cases hl
  · exact hf.leave g hg hC

theorem Update.fail (hf : Update f A δ J J' C) (hg : Shows J g) (hC : C g) : f g ≠ .fail := by
  by_cases hA : A g.nodes
  · obtain ⟨g', h, _⟩ := hf.change g hg hC hA
    simp [h]
  · simp [hf.leave g hg hC hA]

theorem Update.respects (hf : Update f A δ J J' C) :
    Respects f (fun g => Shows J g ∧ C g) (Shows J') Sub where
  change {g g'} hg h := by
    have hA : A g.nodes := by
      by_contra hA
      rw [hf.leave g hg.1 hg.2 hA] at h
      cases h
    obtain ⟨g'', h', hs, _⟩ := hf.change g hg.1 hg.2 hA
    cases h'.symm.trans h
    exact hs
  leave {g} hg h := by
    have hA := (hf.leave_iff hg.1 hg.2).1 h
    refine ⟨hg.1.wf, fun e u v => (hg.1.joins e u v).trans ?_⟩
    constructor
    · rintro ⟨hJ, hu, hv⟩
      exact ⟨(hf.joins g hg.1 hg.2 hA e u v hu hv).2 hJ, hu, hv⟩
    · rintro ⟨hJ, hu, hv⟩
      exact ⟨(hf.joins g hg.1 hg.2 hA e u v hu hv).1 hJ, hu, hv⟩
  below {g h} hg hh hsub hl := by
    rw [hf.leave_iff hg.1 hg.2] at hl
    exact hf.leave h hh.1 hh.2 fun hA => hl (hf.mono _ _ hsub.1 hA)
  rel {g h} hg hh hsub := by
    obtain ⟨hn, _⟩ := hf.of hg.1 hg.2
    obtain ⟨hn', hp'⟩ := hf.of hh.1 hh.2
    refine ⟨?_, hp'.trans hsub.2⟩
    rw [hn, hn']
    exact hf.image _ _ hsub.1

end

end BoostGraph

end OpenAsip
