import Mathlib.Algebra.BigOperators.Group.List.Basic
import Mathlib.Algebra.Order.Ring.Nat
import Mathlib.Logic.Function.Basic

namespace OpenAsip
set_option autoImplicit true

/-! Ranges of numbers that follow one another without gaps. -/

universe u v

variable {κ : Type u} {start start' len len' : κ → Nat}

/-- The ranges of the keys lie one after the other from `b` on. -/
def Tiled (start len : κ → Nat) : Nat → List κ → Prop
  | _, [] => True
  | b, k :: ks => start k = b ∧ Tiled start len (b + len k) ks

/-- The length of the ranges together. -/
def extent (len : κ → Nat) (ks : List κ) : Nat := (ks.map len).sum

namespace Tiled

theorem extent_nil : extent len [] = 0 := rfl

theorem extent_cons (k : κ) (ks : List κ) : extent len (k :: ks) = len k + extent len ks := by
  rw [extent, List.map_cons, List.sum_cons]
  rfl

theorem extent_append (l l' : List κ) : extent len (l ++ l') = extent len l + extent len l' := by
  rw [extent, List.map_append, List.sum_append]
  rfl

theorem extent_congr (h : ∀ k ∈ ks, len' k = len k) : extent len' ks = extent len ks := by
  rw [extent, extent, List.map_congr_left h]

theorem append_iff : Tiled start len b (l ++ l') ↔
    Tiled start len b l ∧ Tiled start len (b + extent len l) l' := by
  induction l generalizing b with
  | nil =>
    rw [List.nil_append, extent_nil, Nat.add_zero]
    exact ⟨fun h => ⟨trivial, h⟩, And.right⟩
  | cons k l ih =>
    rw [List.cons_append, Tiled, Tiled, ih, extent_cons, Nat.add_assoc, and_assoc]

theorem congr (hstart : ∀ k ∈ ks, start' k = start k) (hlen : ∀ k ∈ ks, len' k = len k)
    (h : Tiled start len b ks) : Tiled start' len' b ks := by
  induction ks generalizing b with
  | nil => trivial
  | cons k ks ih =>
    constructor
    · rw [hstart k List.mem_cons_self, h.1]
    · rw [hlen k List.mem_cons_self]
      exact ih (fun j hj => hstart j (List.mem_cons_of_mem k hj))
        (fun j hj => hlen j (List.mem_cons_of_mem k hj)) h.2

/-- Ranges that are all moved by the same amount. -/
theorem move {b b' : Nat} {d : Int} (hstart : ∀ k ∈ ks, (start' k : Int) = start k + d)
    (hlen : ∀ k ∈ ks, len' k = len k) (hb : (b' : Int) = b + d) (h : Tiled start len b ks) :
    Tiled start' len' b' ks := by
  induction ks generalizing b b' with
  | nil => trivial
  | cons k ks ih =>
    obtain ⟨hk, hks⟩ := h
    have hk' := hstart k List.mem_cons_self
    have hl' := hlen k List.mem_cons_self
    constructor
    · omega
    · exact ih (fun j hj => hstart j (List.mem_cons_of_mem k hj))
        (fun j hj => hlen j (List.mem_cons_of_mem k hj)) (by omega) hks

/-- A range ends where all of them end or before. -/
theorem bounds (h : Tiled start len b ks) (hk : k ∈ ks) :
    b ≤ start k ∧ start k + len k ≤ b + extent len ks := by
  induction ks generalizing b with
  | nil => cases hk
  | cons j ks ih =>
    rw [extent_cons]
    rcases List.mem_cons.1 hk with rfl | hk
    · have := h.1
      omega
    · have := ih h.2 hk
      omega

end Tiled

/-- A loop that updates each of some distinct keys once. -/
theorem foldl_update {α : Type v} [DecidableEq κ] {l : List κ} (f : α → α) (hl : l.Nodup)
    (g : κ → α) (k : κ) :
    l.foldl (fun g j => Function.update g j (f (g j))) g k = if k ∈ l then f (g k) else g k := by
  induction l generalizing g with
  | nil => rw [List.foldl_nil, if_neg List.not_mem_nil]
  | cons j l ih =>
    obtain ⟨hj, hl⟩ := List.nodup_cons.1 hl
    rw [List.foldl_cons, ih hl]
    by_cases hkj : k = j
    · subst hkj
      rw [if_neg hj, if_pos List.mem_cons_self, Function.update_self]
    · rw [Function.update_of_ne hkj]
      by_cases hk : k ∈ l
      · rw [if_pos hk, if_pos (List.mem_cons_of_mem j hk)]
      · rw [if_neg hk, if_neg (fun h => (List.mem_cons.1 h).elim hkj hk)]

end OpenAsip
