import OpenAsip.BitStrings

namespace OpenAsip
set_option autoImplicit true

/-- No string of the list is a prefix of a string at another position. -/
def PrefixFree (codes : List (List Bool)) : Prop :=
  codes.Pairwise fun a b => ¬ a <+: b ∧ ¬ b <+: a

/-- No string of the list is a suffix of a string at another position. -/
def SuffixFree (codes : List (List Bool)) : Prop :=
  codes.Pairwise fun a b => ¬ a <:+ b ∧ ¬ b <:+ a

instance (codes : List (List Bool)) : Decidable (PrefixFree codes) :=
  inferInstanceAs (Decidable (codes.Pairwise _))

instance (codes : List (List Bool)) : Decidable (SuffixFree codes) :=
  inferInstanceAs (Decidable (codes.Pairwise _))

/-- The order of a canonical code: widths do not decrease, and a word starts after all
extensions of the words before it. -/
structure Precedes (v w v' w' : Nat) : Prop where
  width_le : w ≤ w'
  value_le : (v + 1) * 2 ^ (w' - w) ≤ v'

theorem Precedes.value_lt (h : Precedes v w v' w') : v < v' := by
  have hp := Nat.two_pow_pos (w' - w)
  calc v < v + 1 := Nat.lt_succ_self v
    _ ≤ (v + 1) * 2 ^ (w' - w) := Nat.le_mul_of_pos_right _ hp
    _ ≤ v' := h.value_le

/-- Putting zeros before both words keeps their order. -/
theorem Precedes.widen (h : Precedes v w v' w') (k : Nat) : Precedes v (w + k) v' (w' + k) := by
  refine ⟨Nat.add_le_add_right h.width_le k, ?_⟩
  rw [Nat.add_sub_add_right]
  exact h.value_le

/-- The word after `p`, extended by zeros, follows every word that `p` follows. -/
theorem Precedes.extend (h : Precedes v w p l) (k : Nat) :
    Precedes v w ((p + 1) * 2 ^ k) (l + k) := by
  refine ⟨Nat.le_trans h.width_le (Nat.le_add_right l k), ?_⟩
  have hk : l + k - w = (l - w) + k := by
    have hw := h.width_le
    omega
  rw [hk, Nat.pow_add, ← Nat.mul_assoc]
  exact Nat.mul_le_mul_right _ (Nat.le_succ_of_le h.value_le)

theorem Precedes.next (p l k : Nat) : Precedes p l ((p + 1) * 2 ^ k) (l + k) := by
  refine ⟨Nat.le_add_right l k, ?_⟩
  rw [Nat.add_sub_cancel_left]

theorem Precedes.not_prefix (h : Precedes v w v' w') (hv : v' < 2 ^ w') :
    ¬ toBits w v <+: toBits w' v' := by
  intro hp
  obtain ⟨hw, he⟩ := toBits_prefix_iff.1 hp
  have hd : v + 1 ≤ v' / 2 ^ (w' - w) :=
    (Nat.le_div_iff_mul_le (Nat.two_pow_pos _)).2 h.value_le
  have hlt : v' / 2 ^ (w' - w) < 2 ^ w := by
    rw [Nat.div_lt_iff_lt_mul (Nat.two_pow_pos _), ← Nat.pow_add, Nat.add_sub_cancel' hw]
    exact hv
  rw [Nat.mod_eq_of_lt (Nat.lt_of_succ_lt (Nat.lt_of_le_of_lt hd hlt)), Nat.mod_eq_of_lt hlt] at he
  omega

theorem Precedes.not_prefix_symm (h : Precedes v w v' w') (hv : v' < 2 ^ w') :
    ¬ toBits w' v' <+: toBits w v := by
  intro hp
  have hl : w' ≤ w := by simpa only [length_toBits] using hp.length_le
  obtain rfl : w = w' := Nat.le_antisymm h.width_le hl
  have he := hp.eq_of_length (by simp only [length_toBits])
  exact h.not_prefix hv (he ▸ List.prefix_refl _)

/-- A list of words in canonical order is prefix free. -/
theorem prefixFree_of_precedes (words : List (Nat × Nat)) (hb : ∀ c ∈ words, c.1 < 2 ^ c.2)
    (h : words.Pairwise fun c d => Precedes c.1 c.2 d.1 d.2) :
    PrefixFree (words.map fun c => toBits c.2 c.1) := by
  rw [PrefixFree, List.pairwise_map]
  exact h.imp_of_mem fun _ hd hp => ⟨hp.not_prefix (hb _ hd), hp.not_prefix_symm (hb _ hd)⟩

end OpenAsip
