import OpenAsip.SubGraphConstruction
import OpenAsip.SubGraphVisits

namespace OpenAsip
set_option autoImplicit true

namespace BoostGraph
open ViewTree
variable {ν ε : Type} [DecidableEq ν] [DecidableEq ε]

/-- Every graph of the tree is the one that its nodes induce. -/
structure Sim (t : ViewTree (BoostGraph ν ε)) (s : Views ν ε) : Prop where
  nodes : map BoostGraph.nodes t = s.nodes
  nested : Nested (Shows s.joins) Sub t
  ends : ∀ e u v, s.joins e u v → u ∈ s.nodes.view ∧ v ∈ s.nodes.view

section
variable {t c : ViewTree (BoostGraph ν ε)} {s s' : Views ν ε} {path : List Nat}
  {f : BoostGraph ν ε → Visit (BoostGraph ν ε)} {A : Set ν → Prop} {δ : Set ν → Set ν}
  {J J' : ε → ν → ν → Prop} {C : BoostGraph ν ε → Prop} {n : ν}

omit [DecidableEq ν] [DecidableEq ε]

theorem Sim.root (hs : Sim t s) : t.view.nodes = s.nodes.view := by
  rw [← hs.nodes, view_map]

theorem Sim.has_iff (hs : Sim t s) (hc : get? path t = some c) :
    s.Has path n ↔ n ∈ c.view.nodes := by
  rw [Views.Has, ← hs.nodes, get?_map, hc, Option.map_some]
  constructor
  · rintro ⟨_, ⟨⟩, h⟩
    rwa [view_map] at h
  · intro h
    exact ⟨_, rfl, by rwa [view_map]⟩

theorem Sim.exists_get? (hs : Sim t s) (hN : get? path s.nodes = some N) :
    ∃ c, get? path t = some c := by
  rw [← hs.nodes, get?_map, Option.map_eq_some_iff] at hN
  obtain ⟨c, hc, _⟩ := hN
  exact ⟨c, hc⟩

theorem Sim.every (hs : Sim t s) (h : s.Every P) (hc : get? path t = some c) :
    P c.view.nodes := by
  rw [← view_map BoostGraph.nodes c]
  apply h path
  rw [← hs.nodes, get?_map, hc, Option.map_some]

theorem Sim.subset_root (hs : Sim t s) (hc : get? path t = some c) :
    c.view.nodes ⊆ s.nodes.view := by
  rw [← hs.root]
  exact hs.nested.le (Q := fun h g => h.nodes ⊆ g.nodes) (fun _ _ h => h.1)
    (fun _ => Set.Subset.rfl) (fun _ _ _ h h' => h.trans h') hc

theorem Sim.joins_inj (hs : Sim t s) (h : s.joins e u v) (h' : s.joins e u' v') :
    u = u' ∧ v = v' := by
  have hview := hs.nested.view
  have hj : ∀ u v, s.joins e u v → t.view.Joins e u v := by
    intro u v h
    rw [hview.joins, hs.root]
    exact ⟨h, hs.ends e u v h⟩
  exact hview.wf.joins_inj (hj u v h) (hj u' v' h')

theorem Sim.congr (hs : Sim t s) (hnodes : s'.nodes = s.nodes)
    (hjoins : ∀ e u v, s'.joins e u v ↔ s.joins e u v) : Sim t s' := by
  have heq : s'.joins = s.joins := by
    funext e u v
    exact propext (hjoins e u v)
  refine ⟨hs.nodes.trans hnodes.symm, ?_, ?_⟩
  · rw [heq]
    exact hs.nested
  · rw [heq, hnodes]
    exact hs.ends

theorem Sim.hasParent (hs : Sim t s) (hc : get? path t = some c) (hne : path ≠ []) :
    c.view.hasParent = true := by
  cases path with
  | nil => exact absurd rfl hne
  | cons i path =>
    obtain ⟨g, hsub⟩ := hs.nested.exists_rel hc
    exact hsub.2

/-- An update from the top of a tree. -/
theorem Update.down (hf : Update f A δ J J' C) (h : Nested (Shows J) Sub t)
    (hC : ∀ path c, get? path t = some c → C c.view) :
    ∃ t', ViewTree.down f t = some t' ∧ Nested (Shows J') Sub t' ∧
      map BoostGraph.nodes t' = map (δ ∘ BoostGraph.nodes) t ∧
      t'.view.hasParent = t.view.hasParent := by
  have hn := h.and hC
  obtain ⟨t', ht'⟩ := hn.exists_down fun g hg => hf.fail hg.1 hg.2
  refine ⟨t', ht', hn.down hf.respects ht', ?_, ?_⟩
  · exact map_of_down hf.respects hn (fun g hg _ => (hf.of hg.1 hg.2).1) ht'
  · rw [view_of_down ht']
    exact (hf.of hn.view.1 hn.view.2).2

/-- An update that starts anywhere. -/
theorem Update.upFrom (hf : Update f A δ J J' C) (h : Nested (Shows J) Sub t)
    (hc : get? path t = some c) (hCc : C c.view)
    (hC : A c.view.nodes → ∀ path c, get? path t = some c → C c.view) :
    ∃ t', (ViewTree.upFrom f path t).map Prod.fst = some t' ∧ (¬A c.view.nodes → t' = t) ∧
      (A c.view.nodes → Nested (Shows J') Sub t' ∧
        map BoostGraph.nodes t' = map (δ ∘ BoostGraph.nodes) t) := by
  have hview := (h.get? hc).view
  by_cases hA : A c.view.nodes
  · have hn := h.and (hC hA)
    have hvisit : f c.view ≠ .leave := fun hl => (hf.leave_iff hview hCc).1 hl hA
    obtain ⟨_, t', hup, hdown⟩ := hn.upFrom hf.respects (fun g hg => hf.fail hg.1 hg.2) hc hvisit
    obtain ⟨t'', hdown', hnested, hnodes, _⟩ := hf.down h (hC hA)
    cases hdown'.symm.trans hdown
    exact ⟨t', by rw [hup, Option.map_some], absurd hA, fun _ => ⟨hnested, hnodes⟩⟩
  · refine ⟨t, ?_, fun _ => rfl, fun h => absurd h hA⟩
    rw [upFrom_of_leave hc ((hf.leave_iff hview hCc).2 hA), Option.map_some]

end

end BoostGraph

end OpenAsip
