import OpenAsip.FixBits

namespace OpenAsip
set_option autoImplicit true

namespace Pig

namespace InstructionBitVector

/-- A reference moved to the right. -/
def shiftReference (n : Nat) (r : Reference) : Reference := (r.1, r.2.map (IndexBound.shift n))

theorem rebase_eq (h : TableOk size r.2) (hs : n + size ≤ 2 ^ 32) :
    rebase n r = shiftReference n r := by
  rw [rebase, shiftReference]
  congr 1
  apply List.map_congr_left
  intro b hb
  have hlt := h.end_lt b hb
  have hle := h.start_le b hb
  rw [IndexBound.incr, IndexBound.shift, Nat.mod_eq_of_lt (by omega), Nat.mod_eq_of_lt (by omega)]

theorem covers_shift {indexes : IndexBoundTable} :
    Covers (indexes.map (IndexBound.shift n)) i ↔ n ≤ i ∧ Covers indexes (i - n) := by
  constructor
  · rintro ⟨b, hb, hcov⟩
    obtain ⟨c, hc, rfl⟩ := List.mem_map.1 hb
    have h1 : c.slotStartIndex + n ≤ i := hcov.1
    have h2 : i ≤ c.slotEndIndex + n := hcov.2
    refine ⟨by omega, c, hc, ?_, ?_⟩
    · omega
    · omega
  · rintro ⟨hn, c, hc, h1, h2⟩
    refine ⟨_, List.mem_map_of_mem hc, ?_, ?_⟩
    · change c.slotStartIndex + n ≤ i
      omega
    · change i ≤ c.slotEndIndex + n
      omega

theorem TableOk.shift (h : TableOk size indexes) (n : Nat) :
    TableOk (n + size) (indexes.map (IndexBound.shift n)) := by
  constructor
  · intro b hb
    obtain ⟨c, hc, rfl⟩ := List.mem_map.1 hb
    exact Nat.add_pos_left (h.start_pos c hc) n
  · intro b hb
    obtain ⟨c, hc, rfl⟩ := List.mem_map.1 hb
    exact Nat.add_le_add_right (h.start_le c hc) n
  · intro b hb
    obtain ⟨c, hc, rfl⟩ := List.mem_map.1 hb
    have hlt := h.end_lt c hc
    change c.slotEndIndex + n < n + size
    omega
  · intro b hb
    obtain ⟨c, hc, rfl⟩ := List.mem_map.1 hb
    exact h.limm c hc
  · apply List.pairwise_map.2
    apply h.apart.imp
    intro b c hbc
    change b.slotEndIndex + n < c.slotStartIndex + n ∨ c.slotEndIndex + n < b.slotStartIndex + n
    omega

theorem TableOk.mono (h : TableOk size indexes) (hs : size ≤ size') : TableOk size' indexes where
  start_pos := h.start_pos
  start_le := h.start_le
  end_lt := fun b hb => Nat.lt_of_lt_of_le (h.end_lt b hb) hs
  limm := h.limm
  apart := h.apart

theorem boundsLayout_shift (n : Nat) (bounds : List IndexBound) :
    boundsLayout (bounds.map (IndexBound.shift n)) currentBit stopBit =
      (boundsLayout bounds currentBit stopBit).map fun p => (p.1 + n, p.2) := by
  induction bounds generalizing currentBit stopBit with
  | nil => rfl
  | cons b bounds ih =>
    have hwidth : (b.shift n).width = b.width := by
      rw [IndexBound.width, IndexBound.width]
      change b.slotEndIndex + n + 1 - (b.slotStartIndex + n) = _
      omega
    have hrange (c : Nat) : (List.range b.width).map (fun j => (b.slotEndIndex + n - j, c + j)) =
        ((List.range b.width).map fun j => (b.slotEndIndex - j, c + j)).map
          fun p => (p.1 + n, p.2) := by
      rw [List.map_map]
      apply List.map_congr_left
      intro j hj
      have hlt := List.mem_range.1 hj
      rw [IndexBound.width] at hlt
      simp only [Function.comp_apply, Prod.mk.injEq, and_true]
      omega
    rw [List.map_cons, boundsLayout, boundsLayout, hwidth, ih, List.map_append]
    congr 1
    change List.filter _ ((List.range b.width).map fun j =>
      (b.slotEndIndex + n - j, (layoutEntry b currentBit stopBit).1 + j)) = _
    rw [hrange, List.filter_map]
    rfl

theorem layout_shift (n : Nat) (indexes : IndexBoundTable) :
    layout (indexes.map (IndexBound.shift n)) =
      (layout indexes).map fun p => (p.1 + n, p.2) := by
  rw [layout, ← List.map_reverse, boundsLayout_shift, layout]

theorem availableSize_shift (n : Nat) (indexes : IndexBoundTable) :
    availableSize (indexes.map (IndexBound.shift n)) = availableSize indexes := by
  rw [availableSize, List.foldl_map]
  congr 1
  funext size b
  rw [IndexBound.shift, Nat.add_sub_add_right]

theorem WideEnough.shift (h : WideEnough indexes value) (n : Nat) :
    WideEnough (indexes.map (IndexBound.shift n)) value := by
  constructor
  · rw [availableSize_shift]
    exact h.size_le
  · intro k hk
    obtain ⟨i, hi⟩ := h.covered k hk
    refine ⟨i + n, ?_⟩
    rw [layout_shift]
    exact List.mem_map_of_mem (f := fun p : Nat × Nat => (p.1 + n, p.2)) hi

theorem Readable.shift (h : Readable indexes value) (n : Nat) :
    Readable (indexes.map (IndexBound.shift n)) value := by
  intro p hp
  rw [← List.map_reverse, boundsLayout_shift] at hp
  obtain ⟨q, hq, rfl⟩ := List.mem_map.1 hp
  exact h q hq

theorem insertBoundary_spec (hs : boundaries.Pairwise (· < ·))
    (hm : ∃ b ∈ boundaries, position ≤ b) :
    ∃ boundaries', insertBoundary position boundaries = .ok boundaries' ∧
      boundaries'.Pairwise (· < ·) ∧ ∀ b ∈ boundaries', b = position ∨ b ∈ boundaries := by
  induction boundaries with
  | nil =>
    obtain ⟨b, hb, -⟩ := hm
    cases hb
  | cons c boundaries ih =>
    rw [insertBoundary]
    obtain ⟨hc, hrest⟩ := List.pairwise_cons.1 hs
    split
    · rename_i hlt
      refine ⟨_, rfl, List.pairwise_cons.2 ⟨?_, hs⟩, fun b hb => List.mem_cons.1 hb⟩
      intro b hb
      rcases List.mem_cons.1 hb with rfl | hb
      · exact hlt
      · exact Nat.lt_trans hlt (hc b hb)
    · split
      · exact ⟨_, rfl, hs, fun b hb => .inr hb⟩
      · rename_i hgt hne
        have hlt : c < position := by omega
        have hm' : ∃ b ∈ boundaries, position ≤ b := by
          obtain ⟨b, hb, hle⟩ := hm
          rcases List.mem_cons.1 hb with rfl | hb
          · omega
          · exact ⟨b, hb, hle⟩
        obtain ⟨rest, hok, hsorted, hmem⟩ := ih hrest hm'
        rw [hok]
        refine ⟨_, rfl, List.pairwise_cons.2 ⟨?_, hsorted⟩, ?_⟩
        · intro b hb
          rcases hmem b hb with rfl | hb
          · exact hlt
          · exact hc b hb
        · intro b hb
          rcases List.mem_cons.1 hb with rfl | hb
          · exact .inr List.mem_cons_self
          · exact (hmem b hb).imp_right (List.mem_cons_of_mem c)

/-- Marking a starting point changes the boundaries only, which stay strictly increasing. -/
theorem markInstructionStartingPoint_spec (v : InstructionBitVector) (position : Nat)
    (hs : v.instructionBoundaries.Pairwise (· < ·)) :
    ∃ boundaries, v.markInstructionStartingPoint position =
        .ok { v with instructionBoundaries := boundaries } ∧ boundaries.Pairwise (· < ·) := by
  rw [markInstructionStartingPoint]
  cases hl : v.instructionBoundaries.getLast? with
  | none => exact ⟨_, rfl, List.pairwise_singleton _ _⟩
  | some back =>
    dsimp only
    split
    · rename_i hlt
      refine ⟨_, rfl, List.pairwise_append.2 ⟨hs, List.pairwise_singleton _ _, ?_⟩⟩
      intro a ha b hb
      obtain ⟨init, hinit⟩ := List.getLast?_eq_some_iff.1 hl
      rw [hinit] at hs ha
      rw [List.mem_singleton.1 hb]
      rcases List.mem_append.1 ha with ha | ha
      · have hab := (List.pairwise_append.1 hs).2.2 a ha back (List.mem_singleton_self _)
        omega
      · rw [List.mem_singleton.1 ha]
        exact hlt
    · rename_i hge
      obtain ⟨boundaries, hok, hsorted, -⟩ := insertBoundary_spec hs
        ⟨back, List.mem_of_getLast? hl, Nat.le_of_not_lt hge⟩
      rw [hok]
      exact ⟨boundaries, rfl, hsorted⟩

end InstructionBitVector

end Pig

end OpenAsip
