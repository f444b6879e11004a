import Mathlib.Logic.Function.Basic

namespace OpenAsip
set_option autoImplicit true

/-- Values arrive at places. A place where one value arrives holds it afterwards, and a place where
nothing arrives keeps what it holds. Nothing is said of places where different values arrive. -/
def Delivered (f f' : ι → α) (arrives : ι → α → Prop) : Prop :=
  ∀ p, (∀ v, arrives p v → (∀ v', arrives p v' → v' = v) → f' p = v) ∧
    ((∀ v, ¬ arrives p v) → f' p = f p)

namespace Delivered

theorem none (f : ι → α) (h : ∀ p v, ¬ arrives p v) : Delivered f f arrives := by
  intro p
  exact ⟨fun v hv => (h p v hv).elim, fun _ => rfl⟩

theorem congr (h : Delivered f f' arrives) (hiff : ∀ p v, arrives p v ↔ arrives' p v) :
    Delivered f f' arrives' := by
  intro p
  constructor
  · intro v hv huniq
    exact (h p).1 v ((hiff p v).2 hv) fun v' hv' => huniq v' ((hiff p v').1 hv')
  · intro hnone
    exact (h p).2 fun v hv => hnone v ((hiff p v).1 hv)

/-- Deliveries one after the other are one delivery. -/
theorem trans (h : Delivered f f' arrives) (h' : Delivered f' f'' arrives') :
    Delivered f f'' fun p v => arrives p v ∨ arrives' p v := by
  intro p
  by_cases hlater : ∃ v, arrives' p v
  · obtain ⟨w, hw⟩ := hlater
    constructor
    · intro v _ huniq
      have hv : w = v := huniq w (.inr hw)
      exact (h' p).1 v (hv ▸ hw) fun v' hv' => huniq v' (.inr hv')
    · intro hnone
      exact (hnone w (.inr hw)).elim
  · have hkeep : f'' p = f' p := (h' p).2 fun v hv => hlater ⟨v, hv⟩
    constructor
    · intro v hv huniq
      rw [hkeep]
      rcases hv with hv | hv
      · exact (h p).1 v hv fun v' hv' => huniq v' (.inl hv')
      · exact (hlater ⟨v, hv⟩).elim
    · intro hnone
      rw [hkeep]
      exact (h p).2 fun v hv => hnone v (.inl hv)

theorem update [DecidableEq ι] (f : ι → α) (p : ι) (v : α) :
    Delivered f (Function.update f p v) fun q w => q = p ∧ w = v := by
  intro q
  constructor
  · rintro w ⟨rfl, rfl⟩ _
    exact Function.update_self ..
  · intro hnone
    apply Function.update_of_ne
    intro he
    exact hnone v ⟨he, rfl⟩

/-- A list of writes. -/
theorem foldl_update [DecidableEq ι] (g : β → ι × α) (f : ι → α) (writes : List β) :
    Delivered f (writes.foldl (fun f x => Function.update f (g x).1 (g x).2) f)
      fun p v => ∃ x ∈ writes, g x = (p, v) := by
  induction writes generalizing f with
  | nil => exact none f fun p v ⟨x, hx, _⟩ => List.not_mem_nil hx
  | cons y writes ih =>
    apply ((update f (g y).1 (g y).2).trans (ih _)).congr
    intro p v
    constructor
    · rintro (⟨rfl, rfl⟩ | ⟨x, hx, hg⟩)
      · exact ⟨y, List.mem_cons_self, rfl⟩
      · exact ⟨x, List.mem_cons_of_mem y hx, hg⟩
    · rintro ⟨x, hx, hg⟩
      rcases List.mem_cons.1 hx with rfl | hx
      · rw [hg]
        exact .inl ⟨rfl, rfl⟩
      · exact .inr ⟨x, hx, hg⟩

end Delivered

end OpenAsip
