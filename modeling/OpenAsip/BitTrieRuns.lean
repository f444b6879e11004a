import OpenAsip.BitTries

namespace OpenAsip
set_option autoImplicit true

namespace BitTrie

theorem setBit_ok (value : BitVec 64) {index : Nat} (h : index < 64) (b : Bool) :
    ∃ value', setBit value index b = .ok value' ∧
      ∀ j, value'.getLsbD j = if j = index then b else value.getLsbD j := by
  rw [setBit, if_pos h]
  refine ⟨_, rfl, fun j => ?_⟩
  rw [← BitVec.twoPow_eq]
  cases b with
  | true =>
    rw [if_pos rfl, BitVec.getLsbD_or, BitVec.getLsbD_twoPow]
    by_cases hj : j = index
    · simp [hj, h]
    · simp [hj, Ne.symm hj]
  | false =>
    rw [if_neg Bool.false_ne_true, BitVec.getLsbD_and, BitVec.getLsbD_not, BitVec.getLsbD_twoPow]
    by_cases hj : j = index
    · simp [hj, h]
    · by_cases hlt : j < 64
      · simp [hj, Ne.symm hj, hlt]
      · simp [hlt, BitVec.getLsbD_of_ge value j (by omega)]

/-- Where a bit of a node stands in the value, counted from the bottom of the trie. -/
def bitIndex (bitReadLeftToRight : Bool) (width i : Nat) : Nat :=
  if bitReadLeftToRight then i else width - 1 - i

theorem setBits_ok (ltr : Bool) (width k : Nat) (up : List Bool) (value : BitVec 64)
    (hk : k + up.length ≤ width) (hwidth : width ≤ 64) :
    ∃ value', (up.zipIdx k).foldlM
        (fun value (b, i) => setBit value (bitIndex ltr width i) b) value = .ok value' ∧
      (∀ i, i < width → value'.getLsbD (bitIndex ltr width i) =
        if k ≤ i then (up[i - k]?).getD (value.getLsbD (bitIndex ltr width i))
        else value.getLsbD (bitIndex ltr width i)) ∧
      ∀ j, width ≤ j → value'.getLsbD j = value.getLsbD j := by
  induction up generalizing k value with
  | nil =>
    refine ⟨value, rfl, fun i _ => ?_, fun _ _ => rfl⟩
    split
    · rfl
    · rfl
  | cons b up ih =>
    rw [List.length_cons] at hk
    have hindex : bitIndex ltr width k < width := by
      rw [bitIndex]
      split <;> omega
    obtain ⟨value₁, hset, hbits⟩ := setBit_ok value (Nat.lt_of_lt_of_le hindex hwidth) b
    obtain ⟨value', hfold, hlow, hhigh⟩ := ih (k + 1) value₁ (by omega)
    refine ⟨value', ?_, fun i hi => ?_, fun j hj => ?_⟩
    · rw [List.zipIdx_cons, List.foldlM_cons]
      change setBit value (bitIndex ltr width k) b >>= _ = _
      rw [hset]
      exact hfold
    · have hinj : bitIndex ltr width i = bitIndex ltr width k ↔ i = k := by
        rw [bitIndex, bitIndex]
        split <;> omega
      rw [hlow i hi, hbits]
      simp only [hinj]
      rcases Nat.lt_trichotomy i k with hlt | rfl | hgt
      · rw [if_neg (by omega), if_neg (by omega), if_neg (by omega)]
      · rw [if_neg (by omega), if_pos rfl, if_pos (Nat.le_refl i), Nat.sub_self]
        rfl
      · rw [if_pos (by omega), if_neg (by omega), if_pos (by omega),
          show i - k = i - (k + 1) + 1 by omega, List.getElem?_cons_succ]
    · rw [hhigh j hj, hbits, if_neg (by omega)]

/-- The pattern of a node of which the bits are known from the bottom up. -/
theorem patternAtNode_ok (ltr : Bool) (parents : List (Bool × CountedTrie))
    (h : parents.length ≤ 64) :
    ∃ value, patternAtNode ltr parents = .ok ⟨value, parents.length⟩ ∧
      value.toNat < 2 ^ parents.length ∧
      reading ltr parents.length value = (parents.map Prod.fst).reverse := by
  obtain ⟨value, hfold, hlow, hhigh⟩ := setBits_ok ltr parents.length 0
    (parents.map Prod.fst) 0#64 (by rw [List.length_map, Nat.zero_add]) h
  refine ⟨value, ?_, ?_, ?_⟩
  · rw [patternAtNode]
    exact congrArg (· >>= fun value => .ok (BitVector.mk value parents.length)) hfold
  · apply Nat.lt_pow_two_of_testBit
    intro j hj
    have hbit := hhigh j hj
    rw [BitVec.getLsbD_zero] at hbit
    exact hbit
  · apply List.ext_getElem?
    intro k
    by_cases hk : k < parents.length
    · have hindex : (if ltr then parents.length - 1 - k else k) =
          bitIndex ltr parents.length (parents.length - 1 - k) := by
        rw [bitIndex]
        split <;> omega
      have hmap : parents.length - 1 - k < (parents.map Prod.fst).length := by
        rw [List.length_map]
        omega
      rw [getElem?_reading ltr value hk, hindex, hlow _ (by omega), if_pos (Nat.zero_le _),
        Nat.sub_zero, List.getElem?_eq_getElem hmap, Option.getD_some,
        List.getElem?_reverse (by rwa [List.length_map]), List.length_map,
        List.getElem?_eq_getElem hmap]
    · rw [List.getElem?_eq_none (by rw [length_reading]; omega),
        List.getElem?_eq_none (by rw [List.length_reverse, List.length_map]; omega)]

section Longest
variable {ltr : Bool} {width : Nat} {value : BitVec 64} {t : CountedTrie}

@[simp] theorem longestPrefix_null (l : List Bool) : CountedTrie.null.longestPrefix l = none := by
  induction l with
  | nil => rfl
  | cons b l ih =>
    rw [CountedTrie.longestPrefix, CountedTrie.child_null, ih]
    rfl

/-- The way up from the parent of a node. -/
def upFrom (ltr : Bool) : List (Bool × CountedTrie) → Outcome BitVector
  | [] => .ok ⟨0#64, 0⟩
  | (_, parent) :: parents => longestCompletePatternUp ltr parent parents

theorem longestCompletePatternUp_eq (hwf : t.WellFormed) (hcount : t.count < 2 ^ 32)
    (parents : List (Bool × CountedTrie)) :
    longestCompletePatternUp ltr t parents =
      if t.Terminates then patternAtNode ltr parents else upFrom ltr parents := by
  have hterm := nodeTerminatesPattern_eq hwf hcount
  have hstep : ∀ r : Outcome BitVector,
      (nodeTerminatesPattern t >>= fun terminates =>
        if terminates then patternAtNode ltr parents else r) =
      if t.Terminates then patternAtNode ltr parents else r := by
    intro r
    rw [hterm]
    exact if_congr decide_eq_true_iff rfl rfl
  cases parents with
  | nil => exact hstep _
  | cons p parents => exact hstep _

/-- The pattern of a node depends on the bits of the way to it only. -/
theorem patternAtNode_congr {parents parents' : List (Bool × CountedTrie)}
    (h : parents.map Prod.fst = parents'.map Prod.fst) :
    patternAtNode ltr parents = patternAtNode ltr parents' := by
  have hlength := congrArg List.length h
  rw [List.length_map, List.length_map] at hlength
  rw [patternAtNode, patternAtNode, h, hlength]

/-- Bits as parents, to write a pattern without the nodes on its way. -/
def pathOf (l : List Bool) : List (Bool × CountedTrie) := l.map fun b => (b, .null)

theorem map_fst_pathOf (l : List Bool) : (pathOf l).map Prod.fst = l := by
  rw [pathOf, List.map_map]
  exact List.map_id l

/-- What a search has found that started at a node: a pattern below it, or nothing so far. -/
def found (ltr : Bool) (parents : List (Bool × CountedTrie)) :
    Option (List Bool) → Outcome BitVector
  | some p => patternAtNode ltr (pathOf (p.reverse ++ parents.map Prod.fst))
  | none => upFrom ltr parents

theorem longestCompletePatternUp_found (hwf : t.WellFormed) (hcount : t.count < 2 ^ 32)
    (parents : List (Bool × CountedTrie)) :
    longestCompletePatternUp ltr t parents =
      found ltr parents (if t.Terminates then some [] else none) := by
  rw [longestCompletePatternUp_eq hwf hcount]
  by_cases ht : t.Terminates
  · rw [if_pos ht, if_pos ht]
    exact patternAtNode_congr (map_fst_pathOf _).symm
  · rw [if_neg ht, if_neg ht]
    rfl

theorem longestCompletePatternLoop_eq (hwf : t.WellFormed) (hcount : t.count < 2 ^ 32)
    (h : Readable ltr width value) (parents : List (Bool × CountedTrie)) :
    longestCompletePatternLoop ltr width value t parents =
      found ltr parents (t.longestPrefix (reading ltr width value)) := by
  induction width generalizing value t parents with
  | zero => exact longestCompletePatternUp_found hwf hcount parents
  | succ width ih =>
    rw [reading]
    generalize hb : (if ltr then value.getLsbD width else value.getLsbD 0) = b
    rw [CountedTrie.longestPrefix]
    have hchild := Nat.lt_of_le_of_lt (hwf.count_child_le b) hcount
    by_cases hnull : t.child b = .null
    · rw [longestCompletePatternLoop_null h parents (by rw [hb, hnull]), hnull, longestPrefix_null]
      exact longestCompletePatternUp_found hwf hcount parents
    · rw [longestCompletePatternLoop_child h parents hb hnull, ih (hwf.child b) hchild h.strip]
      cases (t.child b).longestPrefix _ with
      | some p =>
        rw [found, found, List.map_cons, List.reverse_cons, List.append_assoc]
        rfl
      | none => exact longestCompletePatternUp_found hwf hcount parents

end Longest

/-- A pattern as the callers give it: right aligned, of at least one bit. -/
structure Pattern where
  value : BitVec 64
  width : Nat
  pos : 0 < width
  le : width ≤ 64
  lt : value.toNat < 2 ^ width

namespace Pattern

def bits (p : Pattern) : BitVector := ⟨p.value, p.width⟩

/-- The low bits of a number, at least one and at most 64 of them. -/
def low (value width : Nat) : Pattern where
  value := BitVec.ofNat 64 (value % 2 ^ (min (width - 1) 63 + 1))
  width := min (width - 1) 63 + 1
  pos := Nat.succ_pos _
  le := Nat.succ_le_succ (Nat.min_le_right _ _)
  lt := Nat.lt_of_le_of_lt (Nat.mod_le _ _) (Nat.mod_lt _ (Nat.two_pow_pos _))

def reading (ltr : Bool) (p : Pattern) : List Bool := BitTrie.reading ltr p.width p.value

/-- The trie reads all patterns from the right, and patterns of at most 32 bits from the left. -/
def Readable (ltr : Bool) (p : Pattern) : Prop := ltr = true → p.width ≤ 32

instance (ltr : Bool) (p : Pattern) : Decidable (p.Readable ltr) :=
  inferInstanceAs (Decidable (_ → _))

theorem Readable.readable {p : Pattern} (h : p.Readable ltr) :
    BitTrie.Readable ltr p.width p.value := by
  intro hltr
  exact ⟨h hltr, Nat.lt_of_lt_of_le p.lt (Nat.pow_le_pow_right Nat.two_pos (h hltr))⟩

theorem reading_ne_nil (ltr : Bool) (p : Pattern) : p.reading ltr ≠ [] := by
  intro h
  have hlength := length_reading ltr p.width p.value
  rw [reading] at h
  rw [h] at hlength
  exact Nat.ne_of_lt p.pos hlength

end Pattern

inductive Call where
  | insert (p : Pattern)
  | erase (p : Pattern)
  | clear

/-- The answer of a call, if it has one, and the trie after it. -/
def call (ltr : Bool) (trie : CountedTrie) : Call → Outcome (Option Bool × CountedTrie)
  | .insert p => do
    let (b, trie) ← insert ltr trie p.bits
    .ok (some b, trie)
  | .erase p => do
    let (b, trie) ← erase ltr trie p.bits
    .ok (some b, trie)
  | .clear => .ok (none, clear trie)

/-- The same call for a set of patterns. -/
def Call.onSet (ltr : Bool) (s : Finset (List Bool)) : Call → Option Bool × Finset (List Bool)
  | .insert p => (some (decide (p.reading ltr ∉ s)), Insert.insert (p.reading ltr) s)
  | .erase p => (some (decide (p.reading ltr ∈ s)), s.erase (p.reading ltr))
  | .clear => (none, ∅)

/-- The trie has the patterns of the set, none of them empty. -/
structure Represents (t : CountedTrie) (s : Finset (List Bool)) : Prop where
  wellFormed : t.WellFormed
  patterns : t.patterns = s
  root : [] ∉ s
  card : s.card < 2 ^ 32

theorem Represents.count {t : CountedTrie} (h : Represents t s) : t.count = s.card := by
  rw [← h.patterns, h.wellFormed.card_patterns]

theorem Represents.count_lt {t : CountedTrie} (h : Represents t s) : t.count < 2 ^ 32 := by
  rw [h.count]
  exact h.card

theorem Represents.not_terminates {t : CountedTrie} (h : Represents t s) : ¬ t.Terminates := by
  rw [← CountedTrie.nil_mem_patterns, h.patterns]
  exact h.root

theorem Represents.check {t : CountedTrie} {width : Nat} {value : BitVec 64}
    (h : Represents t s) (hr : BitTrie.Readable ltr width value) :
    check ltr t ⟨value, width⟩ = .ok (decide (BitTrie.reading ltr width value ∈ s)) := by
  rw [check_eq h.wellFormed h.count_lt h.not_terminates hr, h.patterns]

theorem represents_clear (t : CountedTrie) : Represents (clear t) ∅ where
  wellFormed := ⟨by simp, by simp, nofun, nofun, trivial, trivial⟩
  patterns := rfl
  root := Finset.notMem_empty _
  card := by decide

theorem Represents.insert_mem {t : CountedTrie} (h : Represents t s) {p : Pattern}
    (hr : p.Readable ltr) (hmem : p.reading ltr ∈ s) :
    insert ltr t p.bits = .ok (false, t) := by
  rw [BitTrie.insert, Pattern.bits, h.check hr.readable]
  change (if decide (p.reading ltr ∈ s) = true then _ else _) = _
  rw [if_pos (decide_eq_true hmem)]

theorem Represents.insert_notMem {t : CountedTrie} (h : Represents t s) {p : Pattern}
    (hr : p.Readable ltr) (hmem : p.reading ltr ∉ s) (hcard : s.card + 1 < 2 ^ 32) :
    ∃ t', insert ltr t p.bits = .ok (true, t') ∧
      Represents t' (Insert.insert (p.reading ltr) s) := by
  have hnew : p.reading ltr ∉ t.patterns := by
    rwa [h.patterns]
  refine ⟨t.add (p.reading ltr), ?_, h.wellFormed.add hnew, ?_, ?_, ?_⟩
  · rw [BitTrie.insert, Pattern.bits, h.check hr.readable]
    change (if decide (p.reading ltr ∈ s) = true then _
      else if p.width = 0 then _ else insertLoop ltr p.width p.value t >>= _) = _
    rw [if_neg (by rwa [decide_eq_true_iff]), if_neg (Nat.ne_of_gt p.pos),
      insertLoop_eq h.wellFormed (by rwa [h.count]) hr.readable hnew]
    rfl
  · ext l
    rw [h.wellFormed.mem_add hnew, Finset.mem_insert, h.patterns]
  · rw [Finset.mem_insert, not_or]
    exact ⟨(p.reading_ne_nil ltr).symm, h.root⟩
  · exact Nat.lt_of_le_of_lt (Finset.card_insert_le _ _) hcard

theorem Represents.erase {t : CountedTrie} (h : Represents t s) {p : Pattern}
    (hr : p.Readable ltr) : ∃ t', erase ltr t p.bits = .ok (decide (p.reading ltr ∈ s), t') ∧
      Represents t' (s.erase (p.reading ltr)) := by
  rw [BitTrie.erase, Pattern.bits, h.check hr.readable]
  change ∃ t', (if decide (p.reading ltr ∈ s) = true then
    if p.width = 0 then _ else eraseLoop ltr p.width p.value t else _) = _ ∧ _
  by_cases hmem : p.reading ltr ∈ s
  · have hold : p.reading ltr ∈ t.patterns := by
      rwa [h.patterns]
    rw [if_pos (decide_eq_true hmem), if_neg (Nat.ne_of_gt p.pos),
      eraseLoop_eq h.wellFormed h.count_lt hr.readable hold, decide_eq_true hmem]
    refine ⟨_, rfl, h.wellFormed.remove hold, ?_, ?_, ?_⟩
    · ext l
      rw [← h.patterns, Finset.mem_erase]
      exact h.wellFormed.mem_remove hold
    · exact fun hroot => h.root (Finset.mem_of_mem_erase hroot)
    · exact Nat.lt_of_le_of_lt (Finset.card_erase_le) h.card
  · rw [if_neg (by rwa [decide_eq_true_iff]), decide_eq_false hmem, Finset.erase_eq_of_notMem hmem]
    exact ⟨t, rfl, h⟩

/-- The number of patterns fits the counters, also after the call, and the patterns can be read. -/
def Allowed (ltr : Bool) (trie : CountedTrie) : Call → Prop
  | .insert p => p.Readable ltr ∧
      (size trie + 1 < 2 ^ 32 ∨ check ltr trie p.bits = .ok true)
  | .erase p => p.Readable ltr
  | .clear => True

instance (ltr : Bool) (trie : CountedTrie) : (c : Call) → Decidable (Allowed ltr trie c)
  | .insert p => inferInstanceAs (Decidable (p.Readable ltr ∧
      (size trie + 1 < 2 ^ 32 ∨ check ltr trie p.bits = .ok true)))
  | .erase p => inferInstanceAs (Decidable (p.Readable ltr))
  | .clear => inferInstanceAs (Decidable True)

/-- A call gives the answer of the set and keeps the trie in step with it. -/
theorem Represents.call {t : CountedTrie} (h : Represents t s) {c : Call} (hc : Allowed ltr t c) :
    ∃ t', call ltr t c = .ok ((c.onSet ltr s).1, t') ∧ Represents t' (c.onSet ltr s).2 := by
  cases c with
  | insert p =>
    obtain ⟨hr, hsize⟩ := hc
    by_cases hmem : p.reading ltr ∈ s
    · refine ⟨t, ?_, by rwa [Call.onSet, Finset.insert_eq_of_mem hmem]⟩
      rw [BitTrie.call, h.insert_mem hr hmem, Call.onSet, decide_eq_false (not_not.2 hmem)]
      rfl
    · have hcard : s.card + 1 < 2 ^ 32 := by
        rcases hsize with hsize | hcheck
        · rwa [size, h.count] at hsize
        · rw [Pattern.bits, h.check hr.readable] at hcheck
          exact (hmem (of_decide_eq_true (Except.ok.inj hcheck))).elim
      obtain ⟨t', he, hrep⟩ := h.insert_notMem hr hmem hcard
      refine ⟨t', ?_, hrep⟩
      rw [BitTrie.call, he, Call.onSet, decide_eq_true hmem]
      rfl
  | erase p =>
    obtain ⟨t', he, hrep⟩ := h.erase hc
    refine ⟨t', ?_, hrep⟩
    rw [BitTrie.call, he]
    rfl
  | clear => exact ⟨_, rfl, represents_clear t⟩

/-- The answers of a sequence of calls and the trie after them. -/
def run (ltr : Bool) : CountedTrie → List Call → Outcome (List (Option Bool) × CountedTrie)
  | trie, [] => .ok ([], trie)
  | trie, c :: l => do
    let (answer, trie) ← call ltr trie c
    let (answers, trie) ← run ltr trie l
    .ok (answer :: answers, trie)

/-- The same calls for a set of patterns. -/
def runOnSet (ltr : Bool) : Finset (List Bool) → List Call →
    List (Option Bool) × Finset (List Bool)
  | s, [] => ([], s)
  | s, c :: l =>
    let (answer, s) := c.onSet ltr s
    let (answers, s) := runOnSet ltr s l
    (answer :: answers, s)

def step (ltr : Bool) (trie : CountedTrie) (c : Call) : Outcome CountedTrie := do
  let (_, trie) ← call ltr trie c
  .ok trie

theorem Represents.run {t : CountedTrie} {calls : List Call} (h : Represents t s)
    (hcalls : Along (step ltr) (Allowed ltr) t calls) :
    ∃ t', run ltr t calls = .ok ((runOnSet ltr s calls).1, t') ∧
      Represents t' (runOnSet ltr s calls).2 := by
  induction calls generalizing t s with
  | nil => exact ⟨t, rfl, h⟩
  | cons c l ih =>
    obtain ⟨hc, hl⟩ := hcalls
    obtain ⟨t', he, hrep⟩ := h.call hc
    obtain ⟨t'', he', hrep'⟩ := ih hrep (hl t' (by rw [step, he]; rfl))
    refine ⟨t'', ?_, hrep'⟩
    rw [BitTrie.run, he]
    change (BitTrie.run ltr t' l >>= _) = _
    rw [he']
    rfl

/-- The pattern found is the longest one of the set that starts the given one. -/
def IsLongestPattern (ltr : Bool) (s : Finset (List Bool)) (l : List Bool) (bits : BitVector) :
    Prop :=
  bits.value.toNat < 2 ^ bits.width ∧
  (reading ltr bits.width bits.value ∈ s ∧ reading ltr bits.width bits.value <+: l ∧
      (∀ p ∈ s, p <+: l → p.length ≤ bits.width) ∨
    bits = ⟨0#64, 0⟩ ∧ ∀ p ∈ s, ¬ p <+: l)

theorem Represents.longestCompletePattern {t : CountedTrie} (h : Represents t s)
    {p : Pattern} (hr : p.Readable ltr) :
    ∃ bits, longestCompletePattern ltr t p.bits = .ok bits ∧
      IsLongestPattern ltr s (p.reading ltr) bits := by
  have hlongest := t.longestPrefix_isLongest (p.reading ltr)
  rw [BitTrie.longestCompletePattern]
  change ∃ bits, longestCompletePatternLoop ltr p.width p.value t [] = .ok bits ∧ _
  rw [longestCompletePatternLoop_eq h.wellFormed h.count_lt hr.readable]
  change ∃ bits, found ltr [] (t.longestPrefix (p.reading ltr)) = .ok bits ∧ _
  cases hfound : t.longestPrefix (p.reading ltr) with
  | none =>
    rw [hfound] at hlongest
    refine ⟨_, rfl, by decide, .inr ⟨rfl, fun p' hp' => ?_⟩⟩
    exact hlongest p' (by rwa [h.patterns])
  | some l =>
    rw [hfound] at hlongest
    obtain ⟨hmem, hpre, hmax⟩ := hlongest
    rw [h.patterns] at hmem hmax
    have hwidth : l.length ≤ p.width := by
      have hle := hpre.length_le
      rwa [Pattern.reading, length_reading] at hle
    have hlength : (pathOf l.reverse).length = l.length := by
      rw [pathOf, List.length_map, List.length_reverse]
    obtain ⟨value, he, hvalue, hreading⟩ := patternAtNode_ok ltr (pathOf l.reverse)
      (by rw [hlength]; exact Nat.le_trans hwidth p.le)
    rw [map_fst_pathOf, List.reverse_reverse, hlength] at hreading
    rw [hlength] at he hvalue
    refine ⟨⟨value, l.length⟩, ?_, hvalue, .inl ?_⟩
    · rw [found, List.map_nil, List.append_nil]
      exact he
    · rw [hreading]
      exact ⟨hmem, hpre, hmax⟩

/-- In every run whose patterns can be read the trie answers as the set of its patterns does. -/
theorem run_represents (ltr : Bool) (calls : List Call)
    (h : Along (step ltr) (Allowed ltr) (.node 0 .null .null) calls) :
    ∃ trie, run ltr (.node 0 .null .null) calls = .ok ((runOnSet ltr ∅ calls).1, trie) ∧
      size trie = (runOnSet ltr ∅ calls).2.card ∧
      ∀ p : Pattern, p.Readable ltr →
        check ltr trie p.bits = .ok (decide (p.reading ltr ∈ (runOnSet ltr ∅ calls).2)) ∧
        frequency ltr trie p.bits =
          .ok ((runOnSet ltr ∅ calls).2.filter fun l => p.reading ltr <+: l).card ∧
        ∃ bits, longestCompletePattern ltr trie p.bits = .ok bits ∧
          IsLongestPattern ltr (runOnSet ltr ∅ calls).2 (p.reading ltr) bits := by
  obtain ⟨trie, he, hrep⟩ := (represents_clear .null).run h
  refine ⟨trie, he, hrep.count, fun p hr => ⟨hrep.check hr.readable, ?_,
    hrep.longestCompletePattern hr⟩⟩
  rw [frequency]
  change frequencyLoop ltr p.width p.value trie = _
  rw [frequencyLoop_eq hr.readable, ← hrep.wellFormed.card_prefix, hrep.patterns]
  rfl

/-- The patterns 1 and 01, of which the first starts the second in the order from the right. -/
def oneAndZeroOne : List Call :=
  [.insert (.low 1 1), .insert (.low 1 2)]

theorem oneAndZeroOne_represents :
    ∃ trie, run false (.node 0 .null .null) oneAndZeroOne =
        .ok ((runOnSet false ∅ oneAndZeroOne).1, trie) ∧
      size trie = (runOnSet false ∅ oneAndZeroOne).2.card ∧
      ∀ p : Pattern, p.Readable false →
        check false trie p.bits =
          .ok (decide (p.reading false ∈ (runOnSet false ∅ oneAndZeroOne).2)) ∧
        frequency false trie p.bits =
          .ok ((runOnSet false ∅ oneAndZeroOne).2.filter fun l => p.reading false <+: l).card ∧
        ∃ bits, longestCompletePattern false trie p.bits = .ok bits ∧
          IsLongestPattern false (runOnSet false ∅ oneAndZeroOne).2 (p.reading false) bits :=
  run_represents false oneAndZeroOne (by decide)

/-- From the left, the topmost bit of 33 is beyond what `MathTools::bit` reads. -/
theorem insertThirtyThreeBits_undefined :
    run true (.node 0 .null .null) [.insert (.low 0 33)] =
      .error .undefined := by
  decide

end BitTrie
end OpenAsip
