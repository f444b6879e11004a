import OpenAsip.InstructionBitVector

namespace OpenAsip
set_option autoImplicit true

namespace Pig
open MathTools

namespace InstructionBitVector

/-- A reference covers an index. -/
def Covers (indexes : IndexBoundTable) (i : Nat) : Prop := ∃ b ∈ indexes, IndexBound.Covers b i

/-- The bounds of a reference in a vector of `size` bits: after bit 0, inside the vector, apart from
each other, and with the slices of a long immediate that `fixBits` asserts. -/
structure TableOk (size : Nat) (indexes : IndexBoundTable) : Prop where
  start_pos : ∀ b ∈ indexes, 0 < b.slotStartIndex
  start_le : ∀ b ∈ indexes, b.slotStartIndex ≤ b.slotEndIndex
  end_lt : ∀ b ∈ indexes, b.slotEndIndex < size
  limm : ∀ b ∈ indexes, ∀ l ∈ b.limm, l.limmLeftIndex + 1 = l.limmRightIndex + l.limmWidth
  apart : indexes.Pairwise fun b c =>
    b.slotEndIndex < c.slotStartIndex ∨ c.slotEndIndex < b.slotStartIndex

theorem TableOk.singleton {b : IndexBound} (hs : 0 < b.slotStartIndex)
    (hle : b.slotStartIndex ≤ b.slotEndIndex)
    (hlt : b.slotEndIndex < size)
    (hlimm : ∀ l ∈ b.limm, l.limmLeftIndex + 1 = l.limmRightIndex + l.limmWidth) :
    TableOk size [b] := by
  refine ⟨?_, ?_, ?_, ?_, List.pairwise_singleton _ _⟩
  all_goals
    intro c hc
    cases List.mem_singleton.1 hc
    assumption

theorem newBit_spec (hv : value < 2 ^ 32) (h : newBit value stopBit currentBit = .ok b) :
    b = (decide (currentBit ≤ stopBit) && value.testBit currentBit) := by
  rw [newBit] at h
  split at h
  · rename_i hle
    rw [decide_eq_true hle, Bool.true_and]
    exact (bit_ok hv h).2
  · rename_i hle
    cases h
    rw [decide_eq_false hle, Bool.false_and]

theorem newBit_ok (value : Nat) (h : currentBit ≤ stopBit → currentBit < 32) :
    ∃ b, newBit value stopBit currentBit = .ok b := by
  rw [newBit]
  split
  · rename_i hle
    rw [bit, if_pos (h hle)]
    exact ⟨_, rfl⟩
  · exact ⟨false, rfl⟩

theorem fixRange_spec {image image' : List Bool} (hv : value < 2 ^ 32) (hc : count ≤ index + 1)
    (h : fixRange value stopBit count index currentBit image = .ok image') :
    image'.length = image.length ∧
      (∀ i, i + count ≤ index ∨ index < i → image'[i]? = image[i]?) ∧
      ∀ j, j < count → image'[index - j]? =
        some (decide (currentBit + j ≤ stopBit) && value.testBit (currentBit + j)) := by
  induction count generalizing index currentBit image with
  | zero =>
    cases h
    exact ⟨rfl, fun _ _ => rfl, fun j hj => (Nat.not_lt_zero j hj).elim⟩
  | succ count ih =>
    rw [fixRange] at h
    split at h
    · rename_i hlt
      obtain ⟨b, hb, h⟩ := Except.bind_ok h
      have hbit := newBit_spec hv hb
      have hc' : count ≤ index - 1 + 1 := by omega
      obtain ⟨hlen, hout, hin⟩ := ih hc' h
      refine ⟨by rw [hlen, List.length_set], ?_, ?_⟩
      · intro i hi
        rw [hout i (by omega), List.getElem?_set_ne (by omega)]
      · intro j hj
        cases j with
        | zero =>
          rw [Nat.sub_zero, Nat.add_zero, hout index (by omega), List.getElem?_set_self hlt, hbit]
        | succ j =>
          have hj' := hin j (by omega)
          rwa [Nat.sub_sub, Nat.add_assoc, Nat.add_comm 1 j] at hj'
    · cases h

/-- The loops stay in the vector, so only a bit that `MathTools::bit` cannot read stops them. -/
theorem fixRange_ok {image : List Bool} (hc : count ≤ index + 1) (hi : index < image.length)
    (hbits : ∀ j, j < count → currentBit + j ≤ stopBit → currentBit + j < 32) :
    ∃ image', fixRange value stopBit count index currentBit image = .ok image' := by
  induction count generalizing index currentBit image with
  | zero => exact ⟨image, rfl⟩
  | succ count ih =>
    rw [fixRange, if_pos hi]
    have hfirst : currentBit ≤ stopBit → currentBit < 32 := hbits 0 (Nat.succ_pos count)
    obtain ⟨b, hb⟩ := newBit_ok value hfirst
    rw [hb]
    apply ih
    · omega
    · rw [List.length_set]
      omega
    · intro j hj hle
      have hlt := hbits (j + 1) (by omega) (by omega)
      omega

/-- The bit of the value at which a bound is entered, as `boundsLayout` sees it. -/
def layoutEntry (b : IndexBound) (currentBit : Nat) (stopBit : Option Nat) : Nat × Option Nat :=
  match b.limm with
  | none => (currentBit, stopBit)
  | some l => (l.limmRightIndex, some l.limmLeftIndex)

theorem mem_boundsLayout_cons :
    p ∈ boundsLayout (b :: bounds) currentBit stopBit ↔
      (∃ j, j < b.width ∧ p = (b.slotEndIndex - j, (layoutEntry b currentBit stopBit).1 + j) ∧
        ∀ stop ∈ (layoutEntry b currentBit stopBit).2, p.2 ≤ stop) ∨
      p ∈ boundsLayout bounds ((layoutEntry b currentBit stopBit).1 + b.width)
        (layoutEntry b currentBit stopBit).2 := by
  rw [boundsLayout]
  change p ∈ _ ++ boundsLayout bounds ((layoutEntry b currentBit stopBit).1 + b.width)
    (layoutEntry b currentBit stopBit).2 ↔ _
  rw [List.mem_append, List.mem_filter, List.mem_map]
  apply or_congr_left
  constructor
  · rintro ⟨⟨j, hj, rfl⟩, hstop⟩
    exact ⟨j, List.mem_range.1 hj, rfl, of_decide_eq_true hstop⟩
  · rintro ⟨j, hj, rfl, hstop⟩
    exact ⟨⟨j, List.mem_range.2 hj, rfl⟩, decide_eq_true hstop⟩

theorem boundsLayout_covered (h : ∀ b ∈ bounds, b.slotStartIndex ≤ b.slotEndIndex)
    (hp : p ∈ boundsLayout bounds currentBit stopBit) : Covers bounds p.1 := by
  induction bounds generalizing currentBit stopBit with
  | nil => cases hp
  | cons b bounds ih =>
    rcases mem_boundsLayout_cons.1 hp with ⟨j, hj, rfl, -⟩ | hp
    · have hle := h b List.mem_cons_self
      rw [IndexBound.width] at hj
      refine ⟨b, List.mem_cons_self, ?_, ?_⟩
      · dsimp only
        omega
      · exact Nat.sub_le _ _
    · obtain ⟨c, hc, hcov⟩ := ih (fun c hc => h c (List.mem_cons_of_mem b hc)) hp
      exact ⟨c, List.mem_cons_of_mem b hc, hcov⟩

theorem TableOk.tail (h : TableOk size (b :: bounds)) : TableOk size bounds where
  start_pos := fun c hc => h.start_pos c (List.mem_cons_of_mem b hc)
  start_le := fun c hc => h.start_le c (List.mem_cons_of_mem b hc)
  end_lt := fun c hc => h.end_lt c (List.mem_cons_of_mem b hc)
  limm := fun c hc => h.limm c (List.mem_cons_of_mem b hc)
  apart := (List.pairwise_cons.1 h.apart).2

theorem TableOk.reverse (h : TableOk size bounds) : TableOk size bounds.reverse where
  start_pos := fun c hc => h.start_pos c (List.mem_reverse.1 hc)
  start_le := fun c hc => h.start_le c (List.mem_reverse.1 hc)
  end_lt := fun c hc => h.end_lt c (List.mem_reverse.1 hc)
  limm := fun c hc => h.limm c (List.mem_reverse.1 hc)
  apart := List.pairwise_reverse.2 (h.apart.imp Or.symm)

/-- An index of the first bound is in no other one. -/
theorem TableOk.not_covers_tail (h : TableOk size (b :: bounds)) (hi : IndexBound.Covers b i) :
    ¬ Covers bounds i := by
  rintro ⟨c, hc, hic⟩
  have hap := (List.pairwise_cons.1 h.apart).1 c hc
  have h1 := hi.1
  have h2 := hi.2
  have h3 := hic.1
  have h4 := hic.2
  omega

/-- What `fixBits` does to an image: it writes the value at the indexes of the bounds. -/
structure Fixed (image image' : List Bool) (bounds : List IndexBound) (value : Nat)
    (positions : List (Nat × Nat)) : Prop where
  length_eq : image'.length = image.length
  outside : ∀ i, ¬ Covers bounds i → image'[i]? = image[i]?
  written : ∀ p ∈ positions, image'[p.1]? = some (value.testBit p.2)

theorem fixBounds_spec {image image' : List Bool} (hv : value < 2 ^ 32)
    (hok : TableOk image.length bounds)
    (hstop : ∀ k, (∀ stop ∈ layoutStop, k ≤ stop) → stopBit < k → value.testBit k = false)
    (h : fixBounds value bounds currentBit stopBit image = .ok image') :
    Fixed image image' bounds value (boundsLayout bounds currentBit layoutStop) := by
  induction bounds generalizing currentBit stopBit layoutStop image with
  | nil =>
    cases h
    exact ⟨rfl, fun _ _ => rfl, fun p hp => by cases hp⟩
  | cons b bounds ih =>
    obtain ⟨entry, hentry, h⟩ := Except.bind_ok h
    have hle := hok.start_le b List.mem_cons_self
    -- the bits that are let through above the last bit to write are zero in the value
    have hpair : entry.1 = (layoutEntry b currentBit layoutStop).1 ∧
        ∀ k, (∀ stop ∈ (layoutEntry b currentBit layoutStop).2, k ≤ stop) → entry.2 < k →
          value.testBit k = false := by
      rw [enterBound] at hentry
      rw [layoutEntry]
      cases hl : b.limm with
      | none =>
        rw [hl] at hentry
        cases hentry
        exact ⟨rfl, hstop⟩
      | some l =>
        rw [hl] at hentry
        dsimp only at hentry
        rw [if_pos (hok.limm b List.mem_cons_self l hl)] at hentry
        cases hentry
        refine ⟨rfl, fun k hk hlt => ?_⟩
        have hkl := hk _ rfl
        omega
    obtain ⟨hfst, hzero⟩ := hpair
    rw [if_neg (Nat.pos_iff_ne_zero.1 (hok.start_pos b List.mem_cons_self))] at h
    obtain ⟨image₁, hrange, h⟩ := Except.bind_ok h
    have hwidth : b.width ≤ b.slotEndIndex + 1 := Nat.sub_le _ _
    obtain ⟨hlen, hout, hin⟩ := fixRange_spec hv hwidth hrange
    have hrest := ih (hlen ▸ hok.tail) hzero h
    refine ⟨hrest.length_eq.trans hlen, ?_, ?_⟩
    · intro i hi
      rw [hrest.outside i fun ⟨c, hc, hcov⟩ => hi ⟨c, List.mem_cons_of_mem b hc, hcov⟩]
      apply hout
      have hb : ¬ IndexBound.Covers b i := fun hcov => hi ⟨b, List.mem_cons_self, hcov⟩
      rw [IndexBound.Covers] at hb
      rw [IndexBound.width]
      omega
    · intro p hp
      rcases mem_boundsLayout_cons.1 hp with ⟨j, hj, rfl, hle'⟩ | hp
      · have hcov : IndexBound.Covers b (b.slotEndIndex - j) := by
          rw [IndexBound.width] at hj
          constructor
          · omega
          · exact Nat.sub_le _ _
        rw [hrest.outside _ (hok.not_covers_tail hcov), hin j hj, hfst]
        dsimp only
        by_cases hs : (layoutEntry b currentBit layoutStop).1 + j ≤ entry.2
        · rw [decide_eq_true hs, Bool.true_and]
        · rw [hzero _ hle' (Nat.lt_of_not_le hs), Bool.and_false]
      · rw [← hfst] at hp
        exact hrest.written p hp

theorem fixBounds_ok {image : List Bool} (hv : value < 2 ^ 32)
    (hok : TableOk image.length bounds)
    (hread : ∀ p ∈ boundsLayout bounds currentBit (some stopBit), p.2 < 32) :
    ∃ image', fixBounds value bounds currentBit stopBit image = .ok image' := by
  induction bounds generalizing currentBit stopBit image with
  | nil => exact ⟨image, rfl⟩
  | cons b bounds ih =>
    have hentry : ∃ stop, enterBound b currentBit stopBit =
        .ok ((layoutEntry b currentBit (some stopBit)).1, stop) ∧
          (layoutEntry b currentBit (some stopBit)).2 = some stop := by
      rw [enterBound, layoutEntry]
      cases hl : b.limm with
      | none => exact ⟨stopBit, rfl, rfl⟩
      | some l =>
        dsimp only
        rw [if_pos (hok.limm b List.mem_cons_self l hl)]
        exact ⟨_, rfl, rfl⟩
    obtain ⟨stop, hentry, hstop⟩ := hentry
    have hne := Nat.pos_iff_ne_zero.1 (hok.start_pos b List.mem_cons_self)
    rw [fixBounds, hentry]
    change ∃ image', (if b.slotStartIndex = 0 then _ else _) = _
    rw [if_neg hne]
    have hrange : ∃ image₁, fixRange value stop b.width b.slotEndIndex
        (layoutEntry b currentBit (some stopBit)).1 image = .ok image₁ := by
      apply fixRange_ok (Nat.sub_le _ _) (hok.end_lt b List.mem_cons_self)
      intro j hj hle
      apply hread (b.slotEndIndex - j, _)
      apply mem_boundsLayout_cons.2
      refine .inl ⟨j, hj, rfl, ?_⟩
      intro stop' hs
      rw [hstop] at hs
      cases hs
      exact hle
    obtain ⟨image₁, hrange⟩ := hrange
    dsimp only
    rw [hrange]
    have hlen := (fixRange_spec hv (Nat.sub_le _ _) hrange).1
    apply ih (hlen ▸ hok.tail)
    intro p hp
    apply hread p
    apply mem_boundsLayout_cons.2
    rw [hstop]
    exact .inr hp

theorem covers_reverse : Covers indexes.reverse i ↔ Covers indexes i := by
  simp only [Covers, List.mem_reverse]

/-- The bounds are wide enough for an address: `fixBits` does not find them too small, and they have
a place for each of its bits. -/
structure WideEnough (indexes : IndexBoundTable) (value : Nat) : Prop where
  size_le : requiredBits value ≤ availableSize indexes
  covered : ∀ k, value.testBit k = true → ∃ i, (i, k) ∈ layout indexes

/-- `fixBits` asks `MathTools::bit` only for bits that it can read. -/
def Readable (indexes : IndexBoundTable) (value : Nat) : Prop :=
  ∀ p ∈ boundsLayout indexes.reverse 0 (some (requiredBits value)), p.2 < 32

/-- Only the bits below `requiredBits` need a place. -/
theorem wideEnough_iff : WideEnough indexes value ↔
    requiredBits value ≤ availableSize indexes ∧
      ∀ k < requiredBits value, value.testBit k = true → ∃ p ∈ layout indexes, p.2 = k := by
  constructor
  · intro h
    refine ⟨h.size_le, fun k _ hk => ?_⟩
    obtain ⟨i, hi⟩ := h.covered k hk
    exact ⟨(i, k), hi, rfl⟩
  · rintro ⟨hsize, hcov⟩
    refine ⟨hsize, fun k hk => ?_⟩
    have hlt : k < requiredBits value := by
      apply Nat.lt_of_not_le
      intro hle
      rw [Nat.testBit_lt_two_pow (Nat.lt_of_lt_of_le (lt_two_pow_requiredBits value)
        (Nat.pow_le_pow_right Nat.two_pos hle))] at hk
      cases hk
    obtain ⟨p, hp, rfl⟩ := hcov k hlt hk
    exact ⟨p.1, hp⟩

instance : Decidable (WideEnough indexes value) := decidable_of_iff _ wideEnough_iff.symm

instance : Decidable (Readable indexes value) :=
  inferInstanceAs (Decidable (∀ p ∈ boundsLayout _ _ _, p.2 < 32))

theorem fixBits_spec {image image' : List Bool} (hv : value < 2 ^ 32)
    (hok : TableOk image.length indexes) (h : fixBits image indexes value = .ok image') :
    Fixed image image' indexes value (layout indexes) := by
  rw [fixBits] at h
  split at h
  · cases h
  · have hstop : ∀ k, (∀ stop ∈ (none : Option Nat), k ≤ stop) → requiredBits value < k →
        value.testBit k = false := by
      intro k _ hk
      exact Nat.testBit_lt_two_pow (Nat.lt_of_lt_of_le (lt_two_pow_requiredBits value)
        (Nat.pow_le_pow_right Nat.two_pos (Nat.le_of_lt hk)))
    have hf := fixBounds_spec hv hok.reverse hstop h
    exact ⟨hf.length_eq, fun i hi => hf.outside i (mt covers_reverse.1 hi), hf.written⟩

theorem fixBits_ok {image : List Bool} (hv : value < 2 ^ 32) (hok : TableOk image.length indexes)
    (hw : WideEnough indexes value) (hr : Readable indexes value) :
    ∃ image', fixBits image indexes value = .ok image' := by
  rw [fixBits, if_neg (Nat.not_lt.2 hw.size_le)]
  exact fixBounds_ok hv hok.reverse hr

theorem testBit_foldl_or {image : List Bool} (positions : List (Nat × Nat)) (n k : Nat) :
    (positions.foldl (fun n p => n ||| (image.getD p.1 false).toNat <<< p.2) n).testBit k = true ↔
      n.testBit k = true ∨ ∃ i, (i, k) ∈ positions ∧ image.getD i false = true := by
  induction positions generalizing n with
  | nil => simp only [List.foldl_nil, List.not_mem_nil, false_and, exists_false, or_false]
  | cons p positions ih =>
    have hbit : ((image.getD p.1 false).toNat <<< p.2).testBit k = true ↔
        p.2 = k ∧ image.getD p.1 false = true := by
      cases hb : image.getD p.1 false with
      | false => simp only [Bool.toNat_false, Nat.zero_shiftLeft, Nat.zero_testBit,
          Bool.false_eq_true, and_false]
      | true =>
        rw [Bool.toNat_true, Nat.one_shiftLeft, Nat.testBit_two_pow, decide_eq_true_eq]
        exact (and_iff_left rfl).symm
    rw [List.foldl_cons, ih, Nat.testBit_or, Bool.or_eq_true, hbit, or_assoc]
    apply or_congr_right
    constructor
    · rintro (⟨rfl, hb⟩ | ⟨i, hi, hb⟩)
      · exact ⟨p.1, List.mem_cons_self, hb⟩
      · exact ⟨i, List.mem_cons_of_mem p hi, hb⟩
    · rintro ⟨i, hi, hb⟩
      rcases List.mem_cons.1 hi with rfl | hi
      · exact .inl ⟨rfl, hb⟩
      · exact .inr ⟨i, hi, hb⟩

/-- A reference into which an address has been written reads back as that address. -/
theorem readReference_eq {image : List Bool} (hw : WideEnough indexes value)
    (h : ∀ p ∈ layout indexes, image[p.1]? = some (value.testBit p.2)) :
    readReference image indexes = value := by
  have hget (i k : Nat) (hi : (i, k) ∈ layout indexes) :
      image.getD i false = value.testBit k := by
    rw [List.getD_eq_getElem?_getD, h (i, k) hi]
    rfl
  apply Nat.eq_of_testBit_eq
  intro k
  rw [Bool.eq_iff_iff, readReference, testBit_foldl_or]
  constructor
  · rintro (h0 | ⟨i, hi, hb⟩)
    · rw [Nat.zero_testBit] at h0
      cases h0
    · rw [← hget i k hi, hb]
  · intro hk
    obtain ⟨i, hi⟩ := hw.covered k hk
    exact .inr ⟨i, hi, (hget i k hi).trans hk⟩

/-- The references of a vector of `size` bits do not overlap. -/
structure ReferencesOk (size : Nat) (references : List Reference) : Prop where
  table : ∀ r ∈ references, TableOk size r.2
  apart : references.Pairwise fun r s => ∀ i, Covers r.2 i → ¬ Covers s.2 i

/-- What the loop over the references does to an image. -/
structure FixedReferences (address : InstructionId → Option Nat) (references : List Reference)
    (image image' : List Bool) : Prop where
  length_eq : image'.length = image.length
  outside : ∀ i, (∀ r ∈ references, (address r.1).isSome → ¬ Covers r.2 i) →
    image'[i]? = image[i]?
  written : ∀ r ∈ references, ∀ value, address r.1 = some value →
    ∀ p ∈ layout r.2, image'[p.1]? = some (value.testBit p.2)

theorem layout_covered (h : TableOk size indexes) (hp : p ∈ layout indexes) :
    Covers indexes p.1 :=
  covers_reverse.1 (boundsLayout_covered h.reverse.start_le hp)

theorem fixReferences_cons : fixReferences address (r :: refs) image =
    ((match address r.1 with
      | none => .ok image
      | some value => fixBits image r.2 value) >>= fixReferences address refs) := rfl

theorem fixReferences_spec {image image' : List Bool}
    (hok : ReferencesOk image.length refs)
    (hv : ∀ r ∈ refs, ∀ value, address r.1 = some value → value < 2 ^ 32)
    (h : fixReferences address refs image = .ok image') :
    FixedReferences address refs image image' := by
  induction refs generalizing image with
  | nil =>
    cases h
    exact ⟨rfl, fun _ _ => rfl, fun r hr => by cases hr⟩
  | cons r refs ih =>
    rw [fixReferences_cons] at h
    obtain ⟨image₁, hfix, h⟩ := Except.bind_ok h
    have hfirst : image₁.length = image.length ∧
        (∀ i, ((address r.1).isSome → ¬ Covers r.2 i) → image₁[i]? = image[i]?) ∧
        ∀ value, address r.1 = some value →
          ∀ p ∈ layout r.2, image₁[p.1]? = some (value.testBit p.2) := by
      cases ha : address r.1 with
      | none =>
        rw [ha] at hfix
        cases hfix
        exact ⟨rfl, fun _ _ => rfl, fun value hval => by cases hval⟩
      | some value =>
        rw [ha] at hfix
        have hf := fixBits_spec (hv r List.mem_cons_self value ha)
          (hok.table r List.mem_cons_self) hfix
        refine ⟨hf.length_eq, fun i hi => hf.outside i (hi rfl), ?_⟩
        intro value' hval
        cases hval
        exact hf.written
    obtain ⟨hlen, hout, hin⟩ := hfirst
    have hok₁ : ReferencesOk image₁.length refs :=
      ⟨fun s hs => hlen ▸ hok.table s (List.mem_cons_of_mem r hs),
        (List.pairwise_cons.1 hok.apart).2⟩
    have hrest := ih hok₁ (fun s hs => hv s (List.mem_cons_of_mem r hs)) h
    refine ⟨hrest.length_eq.trans hlen, ?_, ?_⟩
    · intro i hi
      rw [hrest.outside i fun s hs => hi s (List.mem_cons_of_mem r hs)]
      exact hout i (hi r List.mem_cons_self)
    · intro s hs value hval p hp
      rcases List.mem_cons.1 hs with rfl | hs
      · rw [hrest.outside p.1]
        · exact hin value hval p hp
        · intro t ht _
          exact (List.pairwise_cons.1 hok.apart).1 t ht p.1
            (layout_covered (hok.table s List.mem_cons_self) hp)
      · exact hrest.written s hs value hval p hp

theorem fixReferences_ok {image : List Bool} (address : InstructionId → Option Nat)
    (hok : ReferencesOk image.length refs)
    (hv : ∀ r ∈ refs, ∀ value, address r.1 = some value →
      value < 2 ^ 32 ∧ WideEnough r.2 value ∧ Readable r.2 value) :
    ∃ image', fixReferences address refs image = .ok image' := by
  induction refs generalizing image with
  | nil => exact ⟨image, rfl⟩
  | cons r refs ih =>
    have hfirst : ∃ image₁, (match address r.1 with
        | none => .ok image
        | some value => fixBits image r.2 value) = (.ok image₁ : Outcome (List Bool)) ∧
          image₁.length = image.length := by
      cases ha : address r.1 with
      | none => exact ⟨image, rfl, rfl⟩
      | some value =>
        obtain ⟨hlt, hw, hr⟩ := hv r List.mem_cons_self value ha
        have htable := hok.table r List.mem_cons_self
        obtain ⟨image₁, hfix⟩ := fixBits_ok hlt htable hw hr
        exact ⟨image₁, hfix, (fixBits_spec hlt htable hfix).length_eq⟩
    obtain ⟨image₁, hfix, hlen⟩ := hfirst
    rw [fixReferences_cons, hfix]
    apply ih
    · exact ⟨fun s hs => hlen ▸ hok.table s (List.mem_cons_of_mem r hs),
        (List.pairwise_cons.1 hok.apart).2⟩
    · exact fun s hs => hv s (List.mem_cons_of_mem r hs)

end InstructionBitVector

end Pig

end OpenAsip
