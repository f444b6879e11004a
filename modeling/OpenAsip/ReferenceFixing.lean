import OpenAsip.FixBits

namespace OpenAsip
set_option autoImplicit true

namespace Pig
open MathTools

namespace InstructionBitVector

/-- The indexes of the bounds from the right, with the bits of the address that they stand for: a
slice of a long immediate has its own bits, any other range counts on from the range before. -/
def rangeLayout : List IndexBound → Nat → List (Nat × Nat)
  | [], _ => []
  | b :: bounds, currentBit =>
    match b.limm with
    | none =>
      ((List.range b.width).map fun j => (b.slotEndIndex - j, currentBit + j)) ++
        rangeLayout bounds (currentBit + b.width)
    | some l =>
      (((List.range b.width).map fun j => (b.slotEndIndex - j, l.limmRightIndex + j)).filter
        fun p => p.2 ≤ l.limmLeftIndex) ++ rangeLayout bounds (l.limmRightIndex + b.width)

/-- The value that the vector holds at the bounds of a table. -/
def tableValue (bits : List Bool) (indexes : IndexBoundTable) : Nat :=
  (rangeLayout indexes.reverse 0).foldl
    (fun n p => n ||| (bits.getD p.1 false).toNat <<< p.2) 0

/-- The table has a place for every bit of the address. -/
def Fits (indexes : IndexBoundTable) (value : Nat) : Prop :=
  ∀ k, value.testBit k = true → ∃ i, (i, k) ∈ rangeLayout indexes.reverse 0

/-- A table in a vector of `size` bits: ranges inside it and apart from each other, and slices whose
indexes are `limmWidth` bits apart, which `fixBits` asserts. -/
structure Inside (size : Nat) (indexes : IndexBoundTable) : Prop where
  start_le : ∀ b ∈ indexes, b.slotStartIndex ≤ b.slotEndIndex
  end_lt : ∀ b ∈ indexes, b.slotEndIndex < size
  limm : ∀ b ∈ indexes, ∀ l ∈ b.limm, l.limmLeftIndex + 1 = l.limmRightIndex + l.limmWidth
  apart : indexes.Pairwise fun b c =>
    b.slotEndIndex < c.slotStartIndex ∨ c.slotEndIndex < b.slotStartIndex

theorem Inside.tableOk (h : Inside size indexes) (hs : ∀ b ∈ indexes, 0 < b.slotStartIndex) :
    TableOk size indexes :=
  ⟨hs, h.start_le, h.end_lt, h.limm, h.apart⟩

/-- What a call should do: it throws when the address does not fit, and else writes it, and nothing
else, into the ranges. -/
def FixesReference (bits : List Bool) (indexes : IndexBoundTable) (value : Nat) : Prop :=
  match fixBits bits indexes value with
  | .ok bits' => Fits indexes value ∧ bits'.length = bits.length ∧
      (∀ i, ¬ Covers indexes i → bits'[i]? = bits[i]?) ∧ tableValue bits' indexes = value
  | .error e => e = .exception .outOfRange ∧ ¬ Fits indexes value

theorem mem_rangeLayout_cons :
    p ∈ rangeLayout (b :: bounds) currentBit ↔
      (∃ j, j < b.width ∧ p = (b.slotEndIndex - j, (layoutEntry b currentBit none).1 + j) ∧
        ∀ stop ∈ (layoutEntry b currentBit none).2, p.2 ≤ stop) ∨
      p ∈ rangeLayout bounds ((layoutEntry b currentBit none).1 + b.width) := by
  rw [rangeLayout, layoutEntry]
  cases b.limm with
  | none =>
    dsimp only
    rw [List.mem_append, List.mem_map]
    apply or_congr_left
    constructor
    · rintro ⟨j, hj, rfl⟩
      exact ⟨j, List.mem_range.1 hj, rfl, fun stop hs => absurd hs (Option.not_mem_none stop)⟩
    · rintro ⟨j, hj, rfl, -⟩
      exact ⟨j, List.mem_range.2 hj, rfl⟩
  | some l =>
    dsimp only
    rw [List.mem_append, List.mem_filter, List.mem_map]
    apply or_congr_left
    constructor
    · rintro ⟨⟨j, hj, rfl⟩, hle⟩
      refine ⟨j, List.mem_range.1 hj, rfl, ?_⟩
      rintro stop ⟨⟩
      exact of_decide_eq_true hle
    · rintro ⟨j, hj, rfl, hle⟩
      exact ⟨⟨j, List.mem_range.2 hj, rfl⟩, decide_eq_true (hle _ rfl)⟩

/-- The slice of a bound does not depend on the bits before it. -/
theorem layoutEntry_stop (b : IndexBound) (currentBit : Nat) (stop stop' : Option Nat) :
    (layoutEntry b currentBit stop).1 = (layoutEntry b currentBit stop').1 := by
  rw [layoutEntry, layoutEntry]
  cases b.limm <;> rfl

theorem boundsLayout_subset (bounds : List IndexBound) (currentBit : Nat) (stop : Option Nat) :
    boundsLayout bounds currentBit stop ⊆ rangeLayout bounds currentBit := by
  induction bounds generalizing currentBit stop with
  | nil => exact List.Subset.refl _
  | cons b bounds ih =>
    intro p hp
    rw [mem_rangeLayout_cons, layoutEntry_stop b currentBit none stop]
    obtain ⟨j, hj, hp, hle⟩ | hp := mem_boundsLayout_cons.1 hp
    · refine .inl ⟨j, hj, hp, fun s hs => hle s ?_⟩
      rw [layoutEntry] at hs ⊢
      cases hl : b.limm with
      | none =>
        rw [hl] at hs
        cases hs
      | some l =>
        rw [hl] at hs
        exact hs
    · exact .inr (ih _ _ hp)

theorem fixRange_bits {image : List Bool}
    (h : fixRange value stopBit count index currentBit image = .ok image') :
    ∀ j < count, currentBit + j ≤ stopBit → currentBit + j < 32 := by
  induction count generalizing index currentBit image with
  | zero => exact fun j hj => (Nat.not_lt_zero j hj).elim
  | succ count ih =>
    rw [fixRange] at h
    split at h
    case isFalse => cases h
    case isTrue =>
      obtain ⟨b, hb, h⟩ := Except.bind_ok h
      intro j hj hle
      cases j with
      | zero =>
        rw [newBit, if_pos (Nat.add_zero currentBit ▸ hle)] at hb
        rw [Nat.add_zero]
        by_contra hlt
        rw [bit, if_neg hlt] at hb
        cases hb
      | succ j =>
        have := ih h j (by omega) (by omega)
        omega

/-- A call that returns met no range at index 0 and read no bit that an `int` shift cannot reach. -/
theorem fixBounds_ok_inv {image : List Bool}
    (h : fixBounds value bounds currentBit stopBit image = .ok image') :
    (∀ b ∈ bounds, 0 < b.slotStartIndex) ∧
      ∀ p ∈ boundsLayout bounds currentBit (some stopBit), p.2 < 32 := by
  induction bounds generalizing currentBit stopBit image with
  | nil => exact ⟨nofun, nofun⟩
  | cons b bounds ih =>
    obtain ⟨entry, hentry, h⟩ := Except.bind_ok h
    have hpair : layoutEntry b currentBit (some stopBit) = (entry.1, some entry.2) := by
      rw [enterBound] at hentry
      rw [layoutEntry]
      cases hl : b.limm with
      | none =>
        rw [hl] at hentry
        cases hentry
        rfl
      | some l =>
        rw [hl] at hentry
        dsimp only at hentry
        split at hentry
        case isTrue =>
          cases hentry
          rfl
        case isFalse => cases hentry
    split at h
    case isTrue => cases h
    case isFalse hs =>
      obtain ⟨image₁, hrange, h⟩ := Except.bind_ok h
      obtain ⟨hstart, hbits⟩ := ih h
      refine ⟨List.forall_mem_cons.2 ⟨Nat.pos_of_ne_zero hs, hstart⟩, ?_⟩
      intro p hp
      obtain ⟨j, hj, rfl, hle⟩ | hp := mem_boundsLayout_cons.1 hp
      · rw [hpair] at hle ⊢
        exact fixRange_bits hrange j hj (hle _ rfl)
      · rw [hpair] at hp
        exact hbits p hp

theorem fixRange_no_exception {image : List Bool} (c : ExceptionClass) :
    fixRange value stopBit count index currentBit image ≠ .error (.exception c) := by
  induction count generalizing index currentBit image with
  | zero => nofun
  | succ count ih =>
    intro h
    rw [fixRange] at h
    split at h
    case isFalse => cases h
    case isTrue =>
      cases hb : newBit value stopBit currentBit with
      | ok b =>
        rw [hb] at h
        exact ih h
      | error e =>
        rw [hb] at h
        cases h
        rw [newBit] at hb
        split at hb
        case isTrue =>
          rw [bit] at hb
          split at hb <;> cases hb
        case isFalse => cases hb

/-- Behind the capacity check nothing is thrown any more. -/
theorem fixBounds_no_exception {image : List Bool} (c : ExceptionClass) :
    fixBounds value bounds currentBit stopBit image ≠ .error (.exception c) := by
  induction bounds generalizing currentBit stopBit image with
  | nil => nofun
  | cons b bounds ih =>
    intro h
    rw [fixBounds] at h
    cases he : enterBound b currentBit stopBit with
    | error e =>
      rw [he] at h
      cases h
      rw [enterBound] at he
      split at he
      · cases he
      · split at he <;> cases he
    | ok entry =>
      rw [he] at h
      change (if b.slotStartIndex = 0 then _ else _) = _ at h
      split at h
      case isTrue => cases h
      case isFalse =>
        cases hr : fixRange value entry.2 b.width b.slotEndIndex entry.1 image with
        | ok image₁ =>
          rw [hr] at h
          exact ih h
        | error e =>
          rw [hr] at h
          cases h
          exact fixRange_no_exception c hr

/-- A range after a slice counts on behind the last bit of the slice, and `fixBits` writes zeros
there. -/
theorem fixBounds_zeroed {image image' : List Bool} (layoutStop : Option Nat) (hv : value < 2 ^ 32)
    (hok : TableOk image.length bounds) (hstop : ∀ stop ∈ layoutStop, stopBit = stop)
    (h : fixBounds value bounds currentBit stopBit image = .ok image')
    (hp : p ∈ rangeLayout bounds currentBit) (hn : p ∉ boundsLayout bounds currentBit layoutStop) :
    image'[p.1]? = some false := by
  induction bounds generalizing currentBit stopBit layoutStop image with
  | nil => cases hp
  | cons b bounds ih =>
    obtain ⟨entry, hentry, h⟩ := Except.bind_ok h
    have hpair : entry.1 = (layoutEntry b currentBit layoutStop).1 ∧
        ∀ stop ∈ (layoutEntry b currentBit layoutStop).2, entry.2 = stop := by
      rw [enterBound] at hentry
      rw [layoutEntry]
      cases hl : b.limm with
      | none =>
        rw [hl] at hentry
        cases hentry
        exact ⟨rfl, hstop⟩
      | some l =>
        rw [hl] at hentry
        dsimp only at hentry
        rw [if_pos (hok.limm b List.mem_cons_self l hl)] at hentry
        cases hentry
        exact ⟨rfl, fun stop hs => Option.some.inj hs⟩
    obtain ⟨hfst, hsnd⟩ := hpair
    rw [if_neg (Nat.pos_iff_ne_zero.1 (hok.start_pos b List.mem_cons_self))] at h
    obtain ⟨image₁, hrange, h⟩ := Except.bind_ok h
    obtain ⟨hlen, -, hin⟩ := fixRange_spec hv (Nat.sub_le _ _) hrange
    have htail : TableOk image₁.length bounds := hlen ▸ hok.tail
    rw [mem_rangeLayout_cons, layoutEntry_stop b currentBit none layoutStop, ← hfst] at hp
    rw [mem_boundsLayout_cons, ← hfst, not_or] at hn
    obtain ⟨j, hj, rfl, -⟩ | hp := hp
    · have hcov : IndexBound.Covers b (b.slotEndIndex - j) := by
        rw [IndexBound.width] at hj
        constructor
        · omega
        · exact Nat.sub_le _ _
      have hrest : Fixed image₁ image' bounds value
          (boundsLayout bounds (entry.1 + b.width) (some entry.2)) :=
        fixBounds_spec hv htail (fun k hk hlt => absurd (hk _ rfl) (Nat.not_le_of_lt hlt)) h
      rw [hrest.outside _ (hok.not_covers_tail hcov), hin j hj]
      have hhigh : ¬ entry.1 + j ≤ entry.2 := by
        intro hle
        refine hn.1 ⟨j, hj, rfl, fun stop hs => ?_⟩
        rw [← hsnd stop hs]
        exact hle
      rw [decide_eq_false hhigh, Bool.false_and]
    · exact ih _ htail hsnd h hp hn.2

/-- After a call that returns, an index of the layout holds its bit of the address or, behind a
slice, a zero. -/
theorem tableValue_eq_iff {image image' : List Bool} (hv : value < 2 ^ 32)
    (hok : TableOk image.length indexes) (h : fixBits image indexes value = .ok image') :
    tableValue image' indexes = value ↔
      ∀ k, value.testBit k = true → ∃ i, (i, k) ∈ layout indexes := by
  have hwritten := (fixBits_spec hv hok h).written
  have hget (i k : Nat) (hi : (i, k) ∈ layout indexes) :
      image'.getD i false = value.testBit k := by
    rw [List.getD_eq_getElem?_getD, hwritten (i, k) hi]
    rfl
  have hlayout (i k : Nat) (hi : (i, k) ∈ rangeLayout indexes.reverse 0)
      (hb : image'.getD i false = true) : (i, k) ∈ layout indexes := by
    by_contra hn
    rw [fixBits] at h
    split at h
    case isTrue => cases h
    case isFalse =>
      have hzero := fixBounds_zeroed none hv hok.reverse
        (fun stop hs => absurd hs (Option.not_mem_none stop)) h hi hn
      rw [List.getD_eq_getElem?_getD, hzero] at hb
      cases hb
  constructor
  · intro heq k hk
    rw [← heq, tableValue, testBit_foldl_or] at hk
    obtain hk | ⟨i, hi, hb⟩ := hk
    · rw [Nat.zero_testBit] at hk
      cases hk
    · exact ⟨i, hlayout i k hi hb⟩
  · intro hcov
    apply Nat.eq_of_testBit_eq
    intro k
    rw [Bool.eq_iff_iff, tableValue, testBit_foldl_or]
    constructor
    · rintro (h0 | ⟨i, hi, hb⟩)
      · rw [Nat.zero_testBit] at h0
        cases h0
      · rw [← hget i k (hlayout i k hi hb), hb]
    · intro hk
      obtain ⟨i, hi⟩ := hcov k hk
      exact .inr ⟨i, boundsLayout_subset _ _ _ hi, (hget i k hi).trans hk⟩

/-- The call does what it should exactly when the capacity check rejects the address only if it does
not fit, and otherwise no range starts at index 0, no bit from 32 on is read, and every bit of the
address has a place before the end of the slice in front of it. -/
theorem fixBits_correct_iff (bits : List Bool) (indexes : IndexBoundTable) (value : Nat)
    (hv : value < 2 ^ 32) (h : Inside bits.length indexes) :
    FixesReference bits indexes value ↔
      if availableSize indexes < requiredBits value then ¬ Fits indexes value
      else (∀ b ∈ indexes, 0 < b.slotStartIndex) ∧ Readable indexes value ∧
        ∀ k, value.testBit k = true → ∃ i, (i, k) ∈ layout indexes := by
  by_cases hsize : availableSize indexes < requiredBits value
  · rw [if_pos hsize, FixesReference, fixBits, if_pos hsize]
    exact and_iff_right rfl
  · rw [if_neg hsize]
    have hok (image' : List Bool) (hf : fixBits bits indexes value = .ok image') :
        (∀ b ∈ indexes, 0 < b.slotStartIndex) ∧ Readable indexes value := by
      rw [fixBits, if_neg hsize] at hf
      obtain ⟨hstart, hread⟩ := fixBounds_ok_inv hf
      exact ⟨fun b hb => hstart b (List.mem_reverse.2 hb), hread⟩
    constructor
    · intro hfixes
      rw [FixesReference] at hfixes
      cases hf : fixBits bits indexes value with
      | ok image' =>
        rw [hf] at hfixes
        obtain ⟨hstart, hread⟩ := hok image' hf
        exact ⟨hstart, hread, (tableValue_eq_iff hv (h.tableOk hstart) hf).1 hfixes.2.2.2⟩
      | error e =>
        rw [hf] at hfixes
        obtain ⟨rfl, -⟩ := hfixes
        rw [fixBits, if_neg hsize] at hf
        exact absurd hf (fixBounds_no_exception .outOfRange)
    · rintro ⟨hstart, hread, hcov⟩
      have htable := h.tableOk hstart
      obtain ⟨image', hf⟩ := fixBits_ok hv htable ⟨Nat.le_of_not_lt hsize, hcov⟩ hread
      have hfixed := fixBits_spec hv htable hf
      rw [FixesReference, hf]
      refine ⟨fun k hk => ?_, hfixed.length_eq, hfixed.outside,
        (tableValue_eq_iff hv htable hf).2 hcov⟩
      obtain ⟨i, hi⟩ := hcov k hk
      exact ⟨i, boundsLayout_subset _ _ _ hi⟩

theorem fixBits_correct_iff_shortImmediate :
    FixesReference (List.replicate 6 false) [⟨1, 4, none⟩] 5 ↔
      if availableSize [⟨1, 4, none⟩] < requiredBits 5 then ¬ Fits [⟨1, 4, none⟩] 5
      else (∀ b ∈ [IndexBound.mk 1 4 none], 0 < b.slotStartIndex) ∧ Readable [⟨1, 4, none⟩] 5 ∧
        ∀ k, Nat.testBit 5 k = true → ∃ i, (i, k) ∈ layout [⟨1, 4, none⟩] :=
  fixBits_correct_iff _ _ _ (by decide)
    ⟨by decide, by decide, by decide, List.pairwise_singleton _ _⟩

/-- A short immediate at the left end of the vector. -/
theorem fixBits_start_zero :
    ¬ ∀ (bits : List Bool) (indexes : IndexBoundTable) (value : Nat), value < 2 ^ 32 →
      Inside bits.length indexes → FixesReference bits indexes value := by
  intro h
  have hfixes := h (List.replicate 4 false) [⟨0, 3, none⟩] 5 (by decide)
    ⟨by decide, by decide, by decide, List.pairwise_singleton _ _⟩
  have hf : fixBits (List.replicate 4 false) [⟨0, 3, none⟩] 5 = .error .undefined := by decide
  rw [FixesReference, hf] at hfixes
  exact absurd hfixes.1 (by decide)

end InstructionBitVector

end Pig

end OpenAsip
