import OpenAsip.BitTrieRuns
import OpenAsip.LevelOrder
import OpenAsip.WhileLoops

namespace OpenAsip
set_option autoImplicit true

/-- Shifts of 64 bits by 64 or more are undefined. -/
def MathTools.concatenateBits (msbBitField : BitVec 64) (msbWidth : Nat)
    (lsbBitField : BitVec 64) (lsbWidth : Nat) : Outcome (BitVec 64) :=
  let allOnes := BitVec.allOnes 64
  if msbWidth < 64 ∧ lsbWidth < 64 then
    .ok (((msbBitField &&& ~~~(allOnes <<< msbWidth)) <<< lsbWidth) |||
      (lsbBitField &&& ~~~(allOnes <<< lsbWidth)))
  else .error .undefined

namespace BitTrie

/-- The state of the search. A node in the queue stands with the bits of the way up from it. -/
structure Search where
  queue : List (List Bool × CountedTrie)
  current : List Bool
  availableBit : Bool

namespace Search

def start (bitTrie : CountedTrie) : Search := ⟨[([], bitTrie)], [], false⟩

def body (q : Search) : Option (Outcome Search) :=
  match q.queue with
  | [] => none
  | (current, node) :: queue =>
    match node.child false, node.child true with
    | .null, _ => some (.ok ⟨[], current, false⟩)
    | _, .null => some (.ok ⟨[], current, true⟩)
    | zero, one =>
      some (.ok ⟨queue ++ [(false :: current, zero), (true :: current, one)],
        current, q.availableBit⟩)

end Search

/-- The bit that leads to a node is put before the bits below it. -/
def concatenateUp (bitReadLeftToRight : Bool) (result : BitVector) (i : Bool) :
    Outcome BitVector := do
  let value ←
    if bitReadLeftToRight then
      MathTools.concatenateBits (BitVec.ofNat 64 i.toNat) 1 result.value result.width
    else MathTools.concatenateBits result.value result.width (BitVec.ofNat 64 i.toNat) 1
  .ok ⟨value, result.width + 1⟩

def nodes : CountedTrie → Nat
  | .null => 0
  | .node _ zero one => nodes zero + nodes one + 1

/-- Every node is in the queue at most once, so the number of nodes limits the search. -/
def uniqueUnusedPrefix (bitReadLeftToRight : Bool) (bitTrie : CountedTrie) :
    Option (Outcome BitVector) :=
  (whileLoop Search.body (nodes bitTrie + 2) (.start bitTrie)).map fun r => do
    let q ← r
    q.current.foldlM (concatenateUp bitReadLeftToRight)
      ⟨BitVec.ofNat 64 q.availableBit.toNat, 1⟩

namespace Search

variable {t : CountedTrie} {q : Search} {n : Nat}

/-- The queue is that of a search in the order of the levels, all paths before are in the trie. -/
structure Searching (t : CountedTrie) (n : Nat) (q : Search) : Prop where
  pos : 0 < n
  queue : LevelQueue n (q.queue.map fun p => p.1.reverse)
  node : ∀ p ∈ q.queue, p.2 = t.find p.1.reverse
  present : ∀ l, 1 < levelIndex l → levelIndex l < 2 * n → t.find l ≠ .null

/-- The search has found the first path that is not in the trie. -/
structure Found (t : CountedTrie) (q : Search) : Prop where
  absent : t.find (q.current.reverse ++ [q.availableBit]) = .null
  present : ∀ l, 1 < levelIndex l →
    levelIndex l < levelIndex (q.current.reverse ++ [q.availableBit]) → t.find l ≠ .null

theorem searching_start (t : CountedTrie) : Searching t 1 (.start t) where
  pos := Nat.one_pos
  queue := levelQueue_root
  node := by
    intro p hp
    rw [List.mem_singleton.1 hp]
    rfl
  present := fun l hl hlt => absurd hl (by omega)

theorem find_concat (t : CountedTrie) (l : List Bool) (b : Bool) :
    t.find (l ++ [b]) = (t.find l).child b := by
  rw [CountedTrie.find_append]
  rfl

def weight (q : Search) : Nat := (q.queue.map fun p => nodes p.2).sum

theorem nodes_child (t : CountedTrie) :
    nodes (t.child false) + nodes (t.child true) = nodes t - 1 := by
  cases t with
  | null => rfl
  | node n zero one => rfl

/-- One turn finds the path, or puts both children of a node into the queue. -/
theorem Searching.step (h : Searching t n q) :
    (∃ q', body q = some (.ok q') ∧ q'.queue = [] ∧ Found t q') ∨
      ∃ q', body q = some (.ok q') ∧ Searching t (n + 1) q' ∧ q'.weight < q.weight := by
  obtain ⟨queue, current, availableBit⟩ := q
  cases queue with
  | nil => exact (h.queue.ne_nil h.pos rfl).elim
  | cons p queue =>
    obtain ⟨bits, node⟩ := p
    have hnode : node = t.find bits.reverse := h.node _ List.mem_cons_self
    have hindex : levelIndex bits.reverse = n := h.queue.levelIndex_head
    have hchild : ∀ b, t.find (bits.reverse ++ [b]) = node.child b := by
      intro b
      rw [find_concat, hnode]
    cases hzero : node.child false with
    | null =>
      refine .inl ⟨⟨[], bits, false⟩, by rw [body]; simp only [hzero], rfl, ?_, fun l hl hlt => ?_⟩
      · rw [hchild, hzero]
      · rw [levelIndex_concat, hindex] at hlt
        exact h.present l hl hlt
    | node c₀ l₀ r₀ =>
      have hleft : ∀ l, levelIndex l = 2 * n → t.find l ≠ .null := by
        intro l hl
        obtain ⟨b, rfl⟩ := h.queue.eq_child (Nat.le_of_eq hl.symm) (by omega)
        rw [levelIndex_concat, hindex] at hl
        cases b with
        | false => rw [hchild, hzero]; exact nofun
        | true => rw [Bool.toNat_true] at hl; omega
      cases hone : node.child true with
      | null =>
        refine .inl ⟨⟨[], bits, true⟩, by rw [body]; simp only [hzero, hone], rfl, ?_,
          fun l hl hlt => ?_⟩
        · rw [hchild, hone]
        · rw [levelIndex_concat, hindex, Bool.toNat_true] at hlt
          rcases Nat.lt_or_ge (levelIndex l) (2 * n) with hlow | hhigh
          · exact h.present l hl hlow
          · exact hleft l (by omega)
      | node c₁ l₁ r₁ =>
        refine .inr ⟨⟨queue ++ [(false :: bits, node.child false), (true :: bits, node.child true)],
          bits, availableBit⟩, by rw [body]; simp only [hzero, hone],
          ⟨Nat.succ_pos n, ?_, ?_, ?_⟩, ?_⟩
        · have hnext := h.queue.next
          rw [List.map_append]
          change LevelQueue (n + 1) (_ ++ [(false :: bits).reverse, (true :: bits).reverse])
          rw [List.reverse_cons, List.reverse_cons]
          exact hnext
        · intro p hp
          rcases List.mem_append.1 hp with hp | hp
          · exact h.node p (List.mem_cons_of_mem _ hp)
          · rw [List.mem_pair] at hp
            rcases hp with rfl | rfl
            · rw [List.reverse_cons, hchild]
            · rw [List.reverse_cons, hchild]
        · intro l hl hlt
          rcases Nat.lt_or_ge (levelIndex l) (2 * n) with hlow | hhigh
          · exact h.present l hl hlow
          · obtain ⟨b, rfl⟩ := h.queue.eq_child hhigh (by omega)
            rw [hchild]
            cases b with
            | false => rw [hzero]; exact nofun
            | true => rw [hone]; exact nofun
        · have hnodes := nodes_child node
          have hpos : 0 < nodes node := by
            cases node with
            | null => cases hzero
            | node c l r => exact Nat.succ_pos _
          simp only [weight, List.map_append, List.sum_append, List.map_cons, List.sum_cons,
            List.map_nil, List.sum_nil]
          omega

theorem Searching.run (h : Searching t n q) (hfuel : q.weight ≤ fuel) :
    ∃ q', whileLoop body (fuel + 2) q = some (.ok q') ∧ Found t q' := by
  induction fuel generalizing q n with
  | zero =>
    rcases h.step with ⟨q', hbody, hqueue, hfound⟩ | ⟨q', hbody, -, hlt⟩
    · refine ⟨q', ?_, hfound⟩
      rw [whileLoop, hbody]
      change whileLoop body 1 q' = _
      rw [whileLoop, body, hqueue]
    · omega
  | succ fuel ih =>
    rcases h.step with ⟨q', hbody, hqueue, hfound⟩ | ⟨q', hbody, hnext, hlt⟩
    · refine ⟨q', ?_, hfound⟩
      rw [whileLoop, hbody]
      change whileLoop body (fuel + 2) q' = _
      rw [whileLoop, body, hqueue]
    · obtain ⟨q'', hrun, hfound⟩ := ih hnext (by omega)
      refine ⟨q'', ?_, hfound⟩
      rw [whileLoop, hbody]
      exact hrun

end Search

section Tries
variable {t : CountedTrie}

/-- Only the paths that start a pattern lead to a node, the way to the root apart. -/
theorem find_ne_null_iff (h : t.WellFormed) {l : List Bool} (hl : l ≠ []) :
    t.find l ≠ .null ↔ ∃ p ∈ t.patterns, l <+: p := by
  have hcard := h.card_prefix l
  constructor
  · intro hnode
    have hpos : 0 < (t.find l).count := by
      obtain ⟨l', b, rfl⟩ := (List.eq_nil_or_concat' l).resolve_left hl
      rw [Search.find_concat] at hnode ⊢
      exact (h.find l').child_pos b hnode
    rw [← hcard, Finset.card_pos] at hpos
    obtain ⟨p, hp⟩ := hpos
    exact ⟨p, Finset.mem_filter.1 hp⟩
  · rintro ⟨p, hp, hpre⟩ hnull
    rw [hnull, CountedTrie.count_null, Finset.card_eq_zero] at hcard
    exact Finset.notMem_empty p (hcard ▸ Finset.mem_filter.2 ⟨hp, hpre⟩)

/-- A trie with all the nodes of a level has a pattern for each of them. -/
theorem two_pow_le_count (h : t.WellFormed) (hpos : 0 < t.count) (d : Nat)
    (hall : ∀ l : List Bool, l.length = d → t.find l ≠ .null) : 2 ^ d ≤ t.count := by
  induction d generalizing t with
  | zero => exact hpos
  | succ d ih =>
    have hchild : ∀ b, 2 ^ d ≤ (t.child b).count := by
      intro b
      have hall' : ∀ l : List Bool, l.length = d → (t.child b).find l ≠ .null := by
        intro l hl
        exact hall (b :: l) (by rw [List.length_cons, hl])
      refine ih (h.child b) (h.child_pos b fun hnull => ?_) hall'
      apply hall' (List.replicate d false) List.length_replicate
      rw [hnull, CountedTrie.find_null]
    have hfalse := hchild false
    have htrue := hchild true
    have hle := h.le_count
    rw [Nat.pow_succ]
    omega

end Tries

theorem concatenateBits_ok {msbWidth lsbWidth : Nat} (hmsb : msbWidth < 64) (hlsb : lsbWidth < 64)
    (msb lsb : BitVec 64) :
    ∃ value, MathTools.concatenateBits msb msbWidth lsb lsbWidth = .ok value ∧
      ∀ j, j < 64 → value.getLsbD j =
        if j < lsbWidth then lsb.getLsbD j
        else decide (j - lsbWidth < msbWidth) && msb.getLsbD (j - lsbWidth) := by
  rw [MathTools.concatenateBits, if_pos ⟨hmsb, hlsb⟩]
  refine ⟨_, rfl, fun j hj => ?_⟩
  rw [BitVec.getLsbD_or, BitVec.getLsbD_shiftLeft, BitVec.getLsbD_and, BitVec.getLsbD_and,
    BitVec.getLsbD_not, BitVec.getLsbD_not, BitVec.getLsbD_shiftLeft, BitVec.getLsbD_shiftLeft,
    BitVec.getLsbD_allOnes, BitVec.getLsbD_allOnes]
  by_cases hlow : j < lsbWidth
  · simp [hj, hlow]
  · have hsub : j - lsbWidth < 64 := by omega
    by_cases hhigh : j - lsbWidth < msbWidth
    · simp [hj, hlow, hhigh, hsub]
    · have hsub' : j - lsbWidth - msbWidth < 64 := by omega
      simp [hj, hlow, hhigh, hsub, hsub']

/-- The value of a vector lies within its width, and the trie reads it as the path. -/
structure Reads (ltr : Bool) (bits : BitVector) (l : List Bool) : Prop where
  lt : bits.value.toNat < 2 ^ bits.width
  width : bits.width = l.length
  reading : reading ltr bits.width bits.value = l

theorem reads_bit (ltr b : Bool) : Reads ltr ⟨BitVec.ofNat 64 b.toNat, 1⟩ [b] := by
  cases b with
  | false => cases ltr with
    | false => exact ⟨by decide, rfl, rfl⟩
    | true => exact ⟨by decide, rfl, rfl⟩
  | true => cases ltr with
    | false => exact ⟨by decide, rfl, rfl⟩
    | true => exact ⟨by decide, rfl, rfl⟩

theorem getLsbD_of_lt {value : BitVec 64} {width j : Nat} (h : value.toNat < 2 ^ width)
    (hj : width ≤ j) : value.getLsbD j = false :=
  Nat.testBit_lt_two_pow (Nat.lt_of_lt_of_le h (Nat.pow_le_pow_right Nat.two_pos hj))

theorem getLsbD_bit (b : Bool) (j : Nat) :
    (BitVec.ofNat 64 b.toNat).getLsbD j = (decide (j = 0) && b) := by
  cases b with
  | false => simp
  | true => simp [BitVec.getLsbD_one]

theorem Reads.concatenateUp {ltr : Bool} {bits : BitVector} {l : List Bool}
    (h : Reads ltr bits l) (hwidth : bits.width < 64) (i : Bool) :
    ∃ bits', concatenateUp ltr bits i = .ok bits' ∧ Reads ltr bits' (i :: l) := by
  obtain ⟨value, width⟩ := bits
  obtain ⟨hlt, hlength, hreading⟩ := h
  change width < 64 at hwidth
  have hhigh : ∀ {j}, width ≤ j → value.getLsbD j = false := getLsbD_of_lt hlt
  obtain ⟨value', he, hbits⟩ : ∃ value', (if ltr then
        MathTools.concatenateBits (BitVec.ofNat 64 i.toNat) 1 value width
      else MathTools.concatenateBits value width (BitVec.ofNat 64 i.toNat) 1) = .ok value' ∧
      ∀ j, value'.getLsbD j = if j = (if ltr then width else 0) then i
        else value.getLsbD (if ltr then j else j - 1) := by
    cases ltr with
    | true =>
      obtain ⟨value', he, hbits⟩ := concatenateBits_ok (by decide : 1 < 64) hwidth
        (BitVec.ofNat 64 i.toNat) value
      refine ⟨value', he, fun j => ?_⟩
      rcases Nat.lt_or_ge j 64 with hj | hj
      · rw [hbits j hj, getLsbD_bit]
        rcases Nat.lt_trichotomy j width with hlow | rfl | hgt
        · simp [hlow, Nat.ne_of_lt hlow]
        · simp
        · have hsub : ¬ j - width < 1 := by omega
          simp [Nat.not_lt_of_gt hgt, Nat.ne_of_gt hgt, hsub, hhigh (Nat.le_of_lt hgt)]
      · rw [BitVec.getLsbD_of_ge _ _ hj, if_neg (by simp; omega), if_pos rfl,
          BitVec.getLsbD_of_ge _ _ hj]
    | false =>
      obtain ⟨value', he, hbits⟩ := concatenateBits_ok hwidth (by decide : 1 < 64)
        value (BitVec.ofNat 64 i.toNat)
      refine ⟨value', he, fun j => ?_⟩
      rcases Nat.lt_or_ge j 64 with hj | hj
      · rw [hbits j hj, getLsbD_bit]
        cases j with
        | zero => simp
        | succ j =>
          by_cases hw : j < width
          · simp [hw]
          · simp [hw, hhigh (Nat.le_of_not_lt hw)]
      · rw [BitVec.getLsbD_of_ge _ _ hj, if_neg (by simp; omega), if_neg Bool.false_ne_true,
          hhigh (by omega)]
  have hvalue : value'.toNat < 2 ^ (width + 1) := by
    apply Nat.lt_pow_two_of_testBit
    intro j hj
    change value'.getLsbD j = false
    rw [hbits, if_neg (by split <;> omega)]
    exact hhigh (by split <;> omega)
  refine ⟨⟨value', width + 1⟩, ?_, hvalue, congrArg (· + 1) hlength, ?_⟩
  · cases ltr with
    | true => exact congrArg (· >>= fun value => .ok (BitVector.mk value (width + 1))) he
    | false => exact congrArg (· >>= fun value => .ok (BitVector.mk value (width + 1))) he
  · change BitTrie.reading ltr (width + 1) value' = _
    rw [← hreading]
    apply List.ext_getElem?
    intro k
    by_cases hk : k < width + 1
    · rw [getElem?_reading ltr value' hk, hbits]
      cases k with
      | zero =>
        rw [if_pos (by split <;> omega)]
        rfl
      | succ k =>
        rw [List.getElem?_cons_succ, getElem?_reading ltr value (Nat.lt_of_succ_lt_succ hk),
          if_neg (by split <;> omega)]
        cases ltr with
        | true => simp [Nat.sub_sub, Nat.add_comm]
        | false => simp
    · rw [List.getElem?_eq_none (by rw [length_reading]; exact Nat.le_of_not_lt hk),
        List.getElem?_eq_none (by rw [List.length_cons, length_reading]; exact Nat.le_of_not_lt hk)]

theorem Reads.foldlM_concatenateUp {ltr : Bool} {bits : BitVector} {l : List Bool}
    (h : Reads ltr bits l) (up : List Bool) (hwidth : up.length + l.length ≤ 64) :
    ∃ bits', up.foldlM (BitTrie.concatenateUp ltr) bits = .ok bits' ∧
      Reads ltr bits' (up.reverse ++ l) := by
  induction up generalizing bits l with
  | nil => exact ⟨bits, rfl, h⟩
  | cons i up ih =>
    rw [List.length_cons] at hwidth
    obtain ⟨bits₁, he, h₁⟩ := h.concatenateUp (by rw [h.width]; omega) i
    obtain ⟨bits', he', h'⟩ := ih h₁ (by rw [List.length_cons]; omega)
    refine ⟨bits', ?_, ?_⟩
    · rw [List.foldlM_cons, he]
      exact he'
    · rw [List.reverse_cons, List.append_assoc]
      exact h'

section Unused
variable (ltr : Bool) (s : Finset (List Bool))

def StartsNone (p : Pattern) : Prop := ∀ l ∈ s, ¬ p.reading ltr <+: l

/-- The pattern starts no pattern of the set, and none of the set starts it. -/
def Unambiguous (p : Pattern) : Prop := StartsNone ltr s p ∧ ∀ l ∈ s, ¬ l <+: p.reading ltr

/-- One of the shortest patterns that start none of the set. -/
def ShortestUnused (p : Pattern) : Prop :=
  StartsNone ltr s p ∧ ∀ q, StartsNone ltr s q → p.width ≤ q.width

/-- A pattern is returned. If there are unambiguous ones, it is the smallest of the shortest. -/
def ReturnsSmallest (r : Option (Outcome BitVector)) : Prop :=
  ∃ p : Pattern, r = some (.ok p.bits) ∧ ((∃ q, Unambiguous ltr s q) →
    Unambiguous ltr s p ∧ ∀ q, Unambiguous ltr s q →
      p.width ≤ q.width ∧ (p.width = q.width → p.value.toNat ≤ q.value.toNat))

/-- A shortest unused pattern that is not unambiguous is read after one that is. From the right,
so is one that is not the smallest unambiguous one, after any of them. -/
structure ReadsInOrder : Prop where
  ambiguous : ∀ x, ShortestUnused ltr s x → ¬ Unambiguous ltr s x →
    ∃ y, ShortestUnused ltr s y ∧ Unambiguous ltr s y ∧ y.reading ltr < x.reading ltr
  greater : ltr = false → ∀ x y, ShortestUnused ltr s x → ShortestUnused ltr s y →
    Unambiguous ltr s x → Unambiguous ltr s y → y.value.toNat < x.value.toNat →
    ∃ z, ShortestUnused ltr s z ∧ z.reading ltr < x.reading ltr

/-- The first unused pattern when the patterns are read level by level. -/
def FirstUnused (p : Pattern) : Prop :=
  StartsNone ltr s p ∧
    ∀ q, StartsNone ltr s q → levelIndex (p.reading ltr) ≤ levelIndex (q.reading ltr)

end Unused

section First
variable {ltr : Bool} {s : Finset (List Bool)} {p q : Pattern}

@[simp] theorem Pattern.length_reading (ltr : Bool) (p : Pattern) :
    (p.reading ltr).length = p.width :=
  BitTrie.length_reading ltr p.width p.value

theorem foldl_reading_left (width : Nat) (value : BitVec 64) (n : Nat) :
    (reading true width value).foldl (fun n b => 2 * n + b.toNat) n =
      2 ^ width * n + value.toNat % 2 ^ width := by
  induction width generalizing n with
  | zero => simp [reading, Nat.mod_one]
  | succ width ih =>
    rw [reading, List.foldl_cons, if_pos rfl]
    change (reading true width value).foldl _ _ = _
    rw [ih, Nat.mod_pow_succ, Nat.pow_succ, BitVec.getLsbD, Nat.toNat_testBit]
    ring

/-- From the left, the order in which the patterns of a width are read is that of the values. -/
theorem levelIndex_reading_left (p : Pattern) :
    levelIndex (p.reading true) = 2 ^ p.width + p.value.toNat := by
  rw [levelIndex, Pattern.reading, foldl_reading_left, Nat.mod_eq_of_lt p.lt, Nat.mul_one]

theorem Unambiguous.congr (h : Unambiguous ltr s p) (hr : p.reading ltr = q.reading ltr) :
    Unambiguous ltr s q := by
  rwa [Unambiguous, StartsNone, ← hr]

theorem FirstUnused.width_le (h : FirstUnused ltr s p) (hq : StartsNone ltr s q) :
    p.width ≤ q.width := by
  have hle := length_le_of_levelIndex_le (h.2 q hq)
  rwa [Pattern.length_reading, Pattern.length_reading] at hle

theorem FirstUnused.shortest (h : FirstUnused ltr s p) : ShortestUnused ltr s p :=
  ⟨h.1, fun _ hq => h.width_le hq⟩

theorem ShortestUnused.width_eq (h : ShortestUnused ltr s p) (h' : ShortestUnused ltr s q) :
    p.width = q.width :=
  Nat.le_antisymm (h.2 q h'.1) (h'.2 p h.1)

theorem FirstUnused.not_before (h : FirstUnused ltr s p) (hq : ShortestUnused ltr s q) :
    ¬ q.reading ltr < p.reading ltr := by
  have hwidth := hq.width_eq h.shortest
  rw [← levelIndex_lt_iff (by rwa [Pattern.length_reading, Pattern.length_reading])]
  exact Nat.not_lt_of_le (h.2 q hq.1)

theorem FirstUnused.before (h : FirstUnused ltr s p) (hq : ShortestUnused ltr s q)
    (hne : p.reading ltr ≠ q.reading ltr) : p.reading ltr < q.reading ltr := by
  have hwidth := h.shortest.width_eq hq
  rw [← levelIndex_lt_iff (by rwa [Pattern.length_reading, Pattern.length_reading])]
  exact Nat.lt_of_le_of_ne (h.2 q hq.1) fun he => hne (levelIndex_injective he)

/-- The first unused pattern is the one that is asked for exactly if the order fits. -/
theorem FirstUnused.smallest_iff (h : FirstUnused ltr s p) (hex : ∃ q, Unambiguous ltr s q) :
    (Unambiguous ltr s p ∧ ∀ q, Unambiguous ltr s q →
      p.width ≤ q.width ∧ (p.width = q.width → p.value.toNat ≤ q.value.toNat)) ↔
      ReadsInOrder ltr s := by
  constructor
  · rintro ⟨hp, hmin⟩
    refine ⟨fun x hx hamb => ⟨p, h.shortest, hp, h.before hx fun he => hamb (hp.congr he)⟩, ?_⟩
    rintro - x y hx hy - hyu hlt
    refine ⟨p, h.shortest, h.before hx fun he => ?_⟩
    have hwidth := h.shortest.width_eq hx
    have hvalue : p.value = x.value := by
      rw [Pattern.reading, Pattern.reading, ← hwidth] at he
      exact reading_inj p.lt (hwidth ▸ x.lt) he
    have hle := (hmin y hyu).2 (h.shortest.width_eq hy)
    rw [hvalue] at hle
    exact Nat.not_lt_of_le hle hlt
  · intro hord
    have hp : Unambiguous ltr s p := by
      by_contra hamb
      obtain ⟨y, hy, -, hlt⟩ := hord.ambiguous p h.shortest hamb
      exact h.not_before hy hlt
    refine ⟨hp, fun q hq => ⟨h.width_le hq.1, fun hwidth => ?_⟩⟩
    have hshort : ShortestUnused ltr s q := ⟨hq.1, fun _ hr => hwidth ▸ h.width_le hr⟩
    cases ltr with
    | true =>
      have hle := h.2 q hq.1
      rw [levelIndex_reading_left, levelIndex_reading_left, hwidth] at hle
      exact Nat.le_of_add_le_add_left hle
    | false =>
      by_contra hgt
      obtain ⟨z, hz, hlt⟩ :=
        hord.greater rfl p q h.shortest hshort hp hq (Nat.lt_of_not_le hgt)
      exact h.not_before hz hlt

end First

/-- The search returns the first unused pattern. -/
theorem Represents.uniqueUnusedPrefix {t : CountedTrie} {s : Finset (List Bool)}
    (h : Represents t s) (ltr : Bool) :
    ∃ p : Pattern, uniqueUnusedPrefix ltr t = some (.ok p.bits) ∧ FirstUnused ltr s p := by
  have hweight : (Search.start t).weight ≤ nodes t := by
    simp [Search.weight, Search.start]
  obtain ⟨q, hrun, habsent, hpresent⟩ := (Search.searching_start t).run hweight
  have hunused : ∀ l : List Bool, l ≠ [] → (t.find l = .null ↔ ∀ p ∈ s, ¬ l <+: p) := by
    intro l hl
    have hiff := find_ne_null_iff h.wellFormed hl
    rw [h.patterns] at hiff
    rw [← not_iff_not]
    exact hiff.trans (by simp)
  have hwidth : q.current.length < 32 := by
    rcases Nat.eq_zero_or_pos q.current.length with hzero | hpos
    · omega
    · have hlevel : ∀ l : List Bool, l.length = q.current.length → t.find l ≠ .null := by
        intro l hl
        refine hpresent l ?_ (Nat.lt_of_lt_of_le (levelIndex_lt l) ?_)
        · exact Nat.lt_of_lt_of_le (Nat.one_lt_two_pow (by omega)) (two_pow_length_le l)
        · have hle := two_pow_length_le (q.current.reverse ++ [q.availableBit])
          rwa [List.length_append, List.length_reverse, ← hl] at hle
      have hcount : 0 < t.count := by
        have hne : q.current ≠ [] := List.ne_nil_of_length_pos hpos
        obtain ⟨p, hp, -⟩ := (find_ne_null_iff h.wellFormed hne).1 (hlevel _ rfl)
        exact h.wellFormed.count_pos hp
      have hpow := two_pow_le_count h.wellFormed hcount _ hlevel
      exact (Nat.pow_lt_pow_iff_right Nat.one_lt_two).1 (Nat.lt_of_le_of_lt hpow h.count_lt)
  obtain ⟨bits, hfold, hlt, hlength, hreading⟩ :=
    (reads_bit ltr q.availableBit).foldlM_concatenateUp q.current
      (by rw [List.length_singleton]; omega)
  rw [List.length_append, List.length_reverse, List.length_singleton] at hlength
  refine ⟨⟨bits.value, bits.width, by omega, by omega, hlt⟩, ?_, ?_, fun p hp => ?_⟩
  · rw [BitTrie.uniqueUnusedPrefix, hrun]
    exact congrArg some hfold
  · change ∀ l ∈ s, ¬ reading ltr bits.width bits.value <+: l
    rw [hreading]
    exact (hunused _ (List.concat_ne_nil _ _)).1 habsent
  · change levelIndex (reading ltr bits.width bits.value) ≤ _
    rw [hreading]
    by_contra hlt
    refine hpresent (p.reading ltr) ?_ (Nat.lt_of_not_le hlt)
      ((hunused _ (p.reading_ne_nil ltr)).2 hp)
    have hle := two_pow_length_le (p.reading ltr)
    rw [Pattern.length_reading] at hle
    exact Nat.lt_of_lt_of_le (Nat.one_lt_two_pow (Nat.ne_of_gt p.pos)) hle

/-- The search returns the smallest unambiguous pattern exactly if there is none at all, or the
shortest unused patterns are read in order. -/
theorem uniqueUnusedPrefix_smallest_iff (ltr : Bool) {t : CountedTrie} {s : Finset (List Bool)}
    (h : Represents t s) :
    ReturnsSmallest ltr s (uniqueUnusedPrefix ltr t) ↔
      ((∃ q, Unambiguous ltr s q) → ReadsInOrder ltr s) := by
  obtain ⟨p, hp, hfirst⟩ := h.uniqueUnusedPrefix ltr
  rw [ReturnsSmallest, hp]
  constructor
  · rintro ⟨p', he, hp'⟩ hex
    have hbits : p.bits = p'.bits := Except.ok.inj (Option.some.inj he)
    obtain ⟨value, width, hpos, hle, hlt⟩ := p
    obtain ⟨value', width', hpos', hle', hlt'⟩ := p'
    cases hbits
    exact (hfirst.smallest_iff hex).1 (hp' hex)
  · intro hord
    exact ⟨p, rfl, fun hex => (hfirst.smallest_iff hex).2 (hord hex)⟩

/-- The trie of the pattern 0. -/
def zeroTrie : CountedTrie := .node 1 (.node 1 .null .null) .null

theorem zeroTrie_smallest_iff :
    Represents zeroTrie {[false]} ∧
      (ReturnsSmallest true {[false]} (uniqueUnusedPrefix true zeroTrie) ↔
        ((∃ q, Unambiguous true {[false]} q) → ReadsInOrder true {[false]})) := by
  have h : Represents zeroTrie {[false]} :=
    ⟨by simp [zeroTrie, CountedTrie.WellFormed], by decide, by decide, by decide⟩
  exact ⟨h, uniqueUnusedPrefix_smallest_iff true h⟩

/-- The patterns 0 and 10. -/
def zeroAndTen : List Call :=
  [.insert (.low 0 1), .insert (.low 2 2)]

/-- From the left the search returns 00, which starts with 0, and not 11. -/
theorem zeroAndTen_not_smallest :
    ∃ trie, run true (.node 0 .null .null) zeroAndTen =
        .ok ((runOnSet true ∅ zeroAndTen).1, trie) ∧
      ¬ ReturnsSmallest true (runOnSet true ∅ zeroAndTen).2 (uniqueUnusedPrefix true trie) := by
  refine ⟨.node 2 (.node 1 .null .null) (.node 1 (.node 1 .null .null) .null), by decide, ?_⟩
  rw [show (runOnSet true ∅ zeroAndTen).2 = {[true, false], [false]} by decide]
  rintro ⟨p, he, hp⟩
  have hbits : BitVector.mk 0#64 2 = p.bits :=
    Except.ok.inj (Option.some.inj ((show some (.ok ⟨0#64, 2⟩) = _ by decide).trans he))
  have heleven : Unambiguous true {[true, false], [false]} (.low 3 2) := by
    refine ⟨?_, ?_⟩
    · rw [StartsNone]
      decide
    · decide
  obtain ⟨⟨-, hnone⟩, -⟩ := hp ⟨_, heleven⟩
  apply hnone [false] (by decide)
  change [false] <+: reading true p.bits.width p.bits.value
  rw [← hbits]
  decide

/-- The patterns 00 and 11. -/
def zeroZeroAndOneOne : List Call :=
  [.insert (.low 0 2), .insert (.low 3 2)]

/-- From the right the search returns 10, not the smaller 01. -/
theorem zeroZeroAndOneOne_not_smallest :
    ∃ trie, run false (.node 0 .null .null) zeroZeroAndOneOne =
        .ok ((runOnSet false ∅ zeroZeroAndOneOne).1, trie) ∧
      ¬ ReturnsSmallest false (runOnSet false ∅ zeroZeroAndOneOne).2
        (uniqueUnusedPrefix false trie) := by
  refine ⟨.node 2 (.node 1 (.node 1 .null .null) .null) (.node 1 .null (.node 1 .null .null)),
    by decide, ?_⟩
  rw [show (runOnSet false ∅ zeroZeroAndOneOne).2 = {[true, true], [false, false]} by decide]
  rintro ⟨p, he, hp⟩
  have hbits : BitVector.mk 2#64 2 = p.bits :=
    Except.ok.inj (Option.some.inj ((show some (.ok ⟨2#64, 2⟩) = _ by decide).trans he))
  have hone : Unambiguous false {[true, true], [false, false]} (.low 1 2) := by
    refine ⟨?_, ?_⟩
    · rw [StartsNone]
      decide
    · decide
  obtain ⟨-, hmin⟩ := hp ⟨_, hone⟩
  have hle := (hmin _ hone).2
  change p.bits.width = 2 → p.bits.value.toNat ≤ 1 at hle
  rw [← hbits] at hle
  exact absurd (hle rfl) (by decide)

theorem uniqueUnusedPrefix_not_smallest :
    (∃ trie, run true (.node 0 .null .null) zeroAndTen =
        .ok ((runOnSet true ∅ zeroAndTen).1, trie) ∧
      ¬ ReturnsSmallest true (runOnSet true ∅ zeroAndTen).2 (uniqueUnusedPrefix true trie)) ∧
    ∃ trie, run false (.node 0 .null .null) zeroZeroAndOneOne =
        .ok ((runOnSet false ∅ zeroZeroAndOneOne).1, trie) ∧
      ¬ ReturnsSmallest false (runOnSet false ∅ zeroZeroAndOneOne).2
        (uniqueUnusedPrefix false trie) :=
  ⟨zeroAndTen_not_smallest, zeroZeroAndOneOne_not_smallest⟩

end BitTrie
end OpenAsip
