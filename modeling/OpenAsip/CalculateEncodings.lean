import OpenAsip.Containers
import OpenAsip.MathTools
import OpenAsip.PrefixCodes

namespace OpenAsip
set_option autoImplicit true

namespace BEMGenerator
open MathTools

/-- `BEMGenerator::Encoding`: an encoding value and its number of extra zero bits. -/
structure Encoding where
  value : Nat
  extraBits : Nat
deriving DecidableEq, Repr

def Encoding.width (c : Encoding) : Nat := bitLength c.value + c.extraBits

/-- The encoding as it stands at the left end of its field. -/
def Encoding.bits (c : Encoding) : List Bool := toBits c.width c.value

/-- The order of the multiset, which is that of `std::pair`. -/
def Encoding.le (a b : Encoding) : Prop :=
  a.value < b.value ∨ a.value = b.value ∧ a.extraBits ≤ b.extraBits

instance : DecidableRel Encoding.le := fun a b =>
  inferInstanceAs (Decidable (a.value < b.value ∨ a.value = b.value ∧ a.extraBits ≤ b.extraBits))

instance : Std.Total Encoding.le where
  total a b := by
    simp only [Encoding.le]
    omega

instance : IsTrans Encoding Encoding.le where
  trans a b c hab hbc := by
    simp only [Encoding.le] at *
    omega

abbrev Encodings := StdMultiset Encoding.le

abbrev Widths := StdMultiset (α := Nat) (· ≤ ·)

def addExtraBits (encodings : Encodings) (bitCount : Nat) : Encodings :=
  encodings.elems.foldl (fun newSet c => newSet.insert ⟨c.value, c.extraBits + bitCount⟩) .empty

def uint32 (n : Nat) : Nat := n % 2 ^ 32

/-- `x << k` on `unsigned int`, which is undefined for 32 and more. -/
def shiftLeft32 (x k : Nat) : Outcome Nat :=
  if k < 32 then .ok (uint32 (x <<< k)) else .error .undefined

/-- The loop that finds the number of bits by which an encoding is expanded. -/
def expansionLoop (remainder encodingsLeft freeBits : Nat) : Nat → Nat → Outcome Nat
  | 0, expansion => .ok expansion
  | fuel + 1, expansion => do
    let shifted ← shiftLeft32 remainder expansion
    if shifted < encodingsLeft then
      if expansion < freeBits then
        expansionLoop remainder encodingsLeft freeBits fuel (expansion + 1)
      else .ok expansion
    else .ok expansion

/-- The variables of `calculateEncodings` between two iterations. The last field is not in the
source: it keeps the encodings in the order in which they are calculated. -/
structure Allocation where
  encodings : Encodings
  remainder : Nat
  encodingsLeft : Nat
  prevEncoding : Nat
  prevOppositeFieldWidth : Nat
  calculated : List Nat

/-- The statements after the branches of an iteration, which inserted `nextEncoding`. -/
def Allocation.finish (s : Allocation) (encodings : Encodings) (remainder nextEncoding
    oppositeFieldWidth : Nat) : Allocation where
  encodings := encodings
  remainder := uint32 (remainder + (2 ^ 32 - 1))
  encodingsLeft := uint32 (s.encodingsLeft + (2 ^ 32 - 1))
  prevEncoding := nextEncoding
  prevOppositeFieldWidth := oppositeFieldWidth
  calculated := s.calculated ++ [nextEncoding]

/-- The first iteration. -/
def allocateFirst (count oppositeFieldWidth : Nat) : Allocation :=
  Allocation.finish ⟨.empty, 0, uint32 count, 0, 0, []⟩ (StdMultiset.empty.insert ⟨0, 0⟩) 1 0
    oppositeFieldWidth

/-- Every later iteration. The encodings are computed through `wrap`, which is `uint32` for the
code itself and the identity for a run with unbounded numbers. -/
def allocate (wrap : Nat → Nat) (count : Nat) (s : Allocation) (oppositeFieldWidth : Nat) :
    Outcome Allocation :=
  let nextEncoding := wrap (s.prevEncoding + 1)
  let grows := bitLength s.prevEncoding < bitLength nextEncoding
  let encodings := if grows then addExtraBits s.encodings 1 else s.encodings
  let remainder :=
    if grows then uint32 (s.remainder <<< 1 + (count - s.encodingsLeft)) else s.remainder
  if oppositeFieldWidth = s.prevOppositeFieldWidth then
    .ok (s.finish (encodings.insert ⟨nextEncoding, 0⟩) remainder nextEncoding oppositeFieldWidth)
  else if oppositeFieldWidth < s.prevOppositeFieldWidth then do
    let freeBits := s.prevOppositeFieldWidth - oppositeFieldWidth
    let expansion ← expansionLoop remainder s.encodingsLeft freeBits (freeBits + 1) 0
    let expanded := wrap (nextEncoding <<< expansion)
    .ok (s.finish (encodings.insert ⟨expanded, 0⟩) (uint32 (remainder <<< expansion)) expanded
      oppositeFieldWidth)
  else .error .assertion

/-- The iterations over the widths from the largest to the smallest. -/
def allocation (wrap : Nat → Nat) (widths : List Nat) : Outcome Allocation :=
  match widths with
  | [] => .error .assertion
  | w :: ws => ws.foldlM (allocate wrap widths.length) (allocateFirst widths.length w)

def calculateEncodings (wrap : Nat → Nat) (oppositeFieldWidths : Widths) (alignment : Bool) :
    Outcome Encodings :=
  if oppositeFieldWidths.size < 1 then .ok .empty
  else if alignment then do
    let s ← allocation wrap oppositeFieldWidths.elems.reverse
    if s.encodings.size = oppositeFieldWidths.size then .ok s.encodings else .error .assertion
  else .error .assertion

/-- The width of the field in which the first encoding stands beside the widest opposite field. -/
def fieldWidth (encodings : Encodings) (oppositeFieldWidths : Widths) : Nat :=
  match encodings.elems, oppositeFieldWidths.elems.reverse with
  | c :: _, w :: _ => c.width + w
  | _, _ => 0

theorem Encoding.value_lt (c : Encoding) : c.value < 2 ^ c.width :=
  Nat.lt_of_lt_of_le (lt_two_pow_bitLength c.value)
    (Nat.pow_le_pow_right Nat.two_pos (Nat.le_add_right _ _))

theorem Encoding.not_le_of_value_lt {a b : Encoding} (h : b.value < a.value) : ¬ a.le b := by
  simp only [Encoding.le]
  omega

/-- An encoding with more zeros before it. -/
def Encoding.addBits (k : Nat) (c : Encoding) : Encoding := ⟨c.value, c.extraBits + k⟩

@[simp] theorem Encoding.addBits_value (k : Nat) (c : Encoding) :
    (c.addBits k).value = c.value := rfl

@[simp] theorem Encoding.addBits_width (k : Nat) (c : Encoding) :
    (c.addBits k).width = c.width + k := (Nat.add_assoc _ _ _).symm

theorem foldl_insert_elems {f : Encoding → Encoding} {m : Encodings} {l : List Encoding}
    (hm : ∀ a ∈ m.elems, ∀ b ∈ l, a.value < (f b).value)
    (hl : l.Pairwise fun a b => (f a).value < (f b).value) :
    (l.foldl (fun newSet c => newSet.insert (f c)) m).elems = m.elems ++ l.map f := by
  induction l generalizing m with
  | nil => exact (List.append_nil _).symm
  | cons c l ih =>
    have hlast : (m.insert (f c)).elems = m.elems ++ [f c] :=
      m.insert_elems_last _ fun b hb =>
        Encoding.not_le_of_value_lt (hm b hb c List.mem_cons_self)
    rw [List.foldl_cons, ih, hlast, List.append_assoc, List.singleton_append, List.map_cons]
    · intro a ha b hb
      rw [hlast, List.mem_append, List.mem_singleton] at ha
      rcases ha with ha | rfl
      · exact hm a ha b (List.mem_cons_of_mem c hb)
      · exact (List.pairwise_cons.1 hl).1 b hb
    · exact (List.pairwise_cons.1 hl).2

theorem addExtraBits_elems {m : Encodings} (h : m.elems.Pairwise fun a b => a.value < b.value)
    (k : Nat) : (addExtraBits m k).elems = m.elems.map (Encoding.addBits k) := by
  exact foldl_insert_elems (f := Encoding.addBits k) (m := .empty) (fun a ha => by cases ha) h

/-- What holds between an encoding with its opposite field and any later such pair. -/
structure Beside (p q : Encoding × Nat) : Prop where
  precedes : Precedes p.1.value p.1.width q.1.value q.1.width
  fits : q.1.width + q.2 ≤ p.1.width + p.2

theorem Beside.addBits (h : Beside p q) (k : Nat) :
    Beside (p.1.addBits k, p.2) (q.1.addBits k, q.2) := by
  constructor
  · simpa only [Encoding.addBits_value, Encoding.addBits_width] using h.precedes.widen k
  · have hf := h.fits
    simp only [Encoding.addBits_width]
    omega

/-- The encodings allocated so far for the widths `ws` form a canonical code that fits. -/
structure Allocation.Canonical (s : Allocation) (ws : List Nat) : Prop where
  calculated : s.calculated = s.encodings.elems.map Encoding.value
  length : s.encodings.elems.length = ws.length
  beside : (s.encodings.elems.zip ws).Pairwise Beside
  last : ∃ init ws', s.encodings.elems = init ++ [⟨s.prevEncoding, 0⟩] ∧
    ws = ws' ++ [s.prevOppositeFieldWidth]

theorem Allocation.Canonical.precedes {s : Allocation} (h : s.Canonical ws) :
    s.encodings.elems.Pairwise fun c d => Precedes c.value c.width d.value d.width := by
  have hm : s.encodings.elems = (s.encodings.elems.zip ws).map Prod.fst :=
    (List.map_fst_zip h.length.le).symm
  rw [hm, List.pairwise_map]
  exact h.beside.imp fun hb => hb.precedes

theorem Allocation.Canonical.increasing {s : Allocation} (h : s.Canonical ws) :
    s.encodings.elems.Pairwise fun c d => c.value < d.value :=
  h.precedes.imp fun hp => hp.value_lt

theorem Allocation.Canonical.value_le {s : Allocation} (h : s.Canonical ws)
    (hc : c ∈ s.encodings.elems) : c.value ≤ s.prevEncoding := by
  obtain ⟨init, ws', he, hw⟩ := h.last
  have hp := h.increasing
  rw [he] at hp hc
  rw [List.pairwise_append] at hp
  rcases List.mem_append.1 hc with hc | hc
  · exact Nat.le_of_lt (hp.2.2 c hc _ (List.mem_singleton_self _))
  · rw [List.mem_singleton.1 hc]

theorem Allocation.Canonical.beside_last {s : Allocation} (h : s.Canonical ws)
    (hp : p ∈ s.encodings.elems.zip ws) :
    p = (⟨s.prevEncoding, 0⟩, s.prevOppositeFieldWidth) ∨
      Beside p (⟨s.prevEncoding, 0⟩, s.prevOppositeFieldWidth) := by
  obtain ⟨init, ws', he, hw⟩ := h.last
  have hl : init.length = ws'.length := by
    have hlen := h.length
    rw [he, hw, List.length_append, List.length_append] at hlen
    simpa only [List.length_singleton, Nat.add_right_cancel_iff] using hlen
  have hb := h.beside
  rw [he, hw, List.zip_append hl, List.zip_cons_cons, List.zip_nil_left] at hp hb
  rcases List.mem_append.1 hp with hp | hp
  · exact .inr ((List.pairwise_append.1 hb).2.2 p hp _ (List.mem_singleton_self _))
  · exact .inl (List.mem_singleton.1 hp)

/-- The next encoding, expanded into the bits that its opposite field leaves free, goes beside the
encodings before it once these are as long as it needs. -/
theorem Allocation.Canonical.beside_next {s : Allocation} (h : s.Canonical ws)
    (hg : bitLength (s.prevEncoding + 1) = bitLength s.prevEncoding + g)
    (hk : w + k ≤ s.prevOppositeFieldWidth) (hp : p ∈ s.encodings.elems.zip ws) :
    Beside (p.1.addBits g, p.2) (⟨(s.prevEncoding + 1) * 2 ^ k, 0⟩, w) := by
  have hw :
      Encoding.width ⟨(s.prevEncoding + 1) * 2 ^ k, 0⟩ = bitLength s.prevEncoding + g + k := by
    rw [Encoding.width, bitLength_mul_two_pow (Nat.succ_ne_zero _), hg, Nat.add_zero]
  have hl : Encoding.width ⟨s.prevEncoding, 0⟩ = bitLength s.prevEncoding := Nat.add_zero _
  rcases h.beside_last hp with rfl | hb
  · constructor
    · rw [hw, Encoding.addBits_width, Encoding.addBits_value, hl]
      exact .next _ _ _
    · rw [hw, Encoding.addBits_width, hl]
      simp only
      omega
  · have hf := hb.fits
    have hpr := (hb.precedes.widen g).extend k
    rw [hl] at hf hpr
    constructor
    · rw [hw, Encoding.addBits_width, Encoding.addBits_value]
      exact hpr
    · rw [hw, Encoding.addBits_width]
      simp only at hf ⊢
      omega

/-- The next encoding is larger than the others and goes behind them. -/
theorem Allocation.Canonical.insert_elems {s : Allocation} {encodings : Encodings}
    (h : s.Canonical ws) (he : encodings.elems = s.encodings.elems.map (Encoding.addBits g))
    (k : Nat) : (encodings.insert ⟨(s.prevEncoding + 1) * 2 ^ k, 0⟩).elems =
      s.encodings.elems.map (Encoding.addBits g) ++ [⟨(s.prevEncoding + 1) * 2 ^ k, 0⟩] := by
  have hnext : s.prevEncoding < (s.prevEncoding + 1) * 2 ^ k :=
    Nat.lt_of_lt_of_le (Nat.lt_succ_self _) (Nat.le_mul_of_pos_right _ (Nat.two_pow_pos k))
  rw [StdMultiset.insert_elems_last, he]
  intro b hb
  rw [he] at hb
  obtain ⟨c, hc, rfl⟩ := List.mem_map.1 hb
  have hle := h.value_le hc
  have hlt : (c.addBits g).value < (s.prevEncoding + 1) * 2 ^ k :=
    Nat.lt_of_le_of_lt hle hnext
  exact Encoding.not_le_of_value_lt hlt

theorem Allocation.Canonical.finish {s : Allocation} {encodings : Encodings} (h : s.Canonical ws)
    (hg : bitLength (s.prevEncoding + 1) = bitLength s.prevEncoding + g)
    (he : encodings.elems = s.encodings.elems.map (Encoding.addBits g))
    (hk : w + k ≤ s.prevOppositeFieldWidth) (remainder : Nat) :
    (s.finish (encodings.insert ⟨(s.prevEncoding + 1) * 2 ^ k, 0⟩) remainder
      ((s.prevEncoding + 1) * 2 ^ k) w).Canonical (ws ++ [w]) := by
  have hins := h.insert_elems he k
  constructor
  · simp only [Allocation.finish, hins, h.calculated, List.map_append, List.map_map,
      List.map_cons, List.map_nil]
    rfl
  · simp only [Allocation.finish, hins, List.length_append, List.length_map, h.length,
      List.length_singleton]
  · simp only [Allocation.finish, hins]
    rw [List.zip_append (by rw [List.length_map, h.length]), List.zip_map_left, List.zip_cons_cons,
      List.zip_nil_left, List.pairwise_append, List.pairwise_map]
    refine ⟨h.beside.imp fun hb => hb.addBits g, List.pairwise_singleton _ _, ?_⟩
    intro p hp q hq
    obtain ⟨pair, hpair, rfl⟩ := List.mem_map.1 hp
    rw [List.mem_singleton.1 hq]
    exact h.beside_next hg hk hpair
  · exact ⟨_, _, hins, rfl⟩

theorem expansionLoop_le (h : expansionLoop remainder encodingsLeft freeBits fuel e = .ok k)
    (he : e ≤ freeBits) : k ≤ freeBits := by
  induction fuel generalizing e with
  | zero =>
    cases h
    exact he
  | succ fuel ih =>
    rw [expansionLoop] at h
    obtain ⟨shifted, _, h⟩ := Except.bind_ok h
    split at h
    · split at h
      · rename_i hlt
        exact ih h hlt
      · cases h
        exact he
    · cases h
      exact he

/-- The encodings after the bits that the next encoding makes necessary have been added. -/
def Allocation.grown (s : Allocation) : Encodings :=
  if bitLength s.prevEncoding < bitLength (s.prevEncoding + 1) then addExtraBits s.encodings 1
  else s.encodings

/-- An iteration on unbounded numbers finds an expansion that the opposite field leaves free. The
code does the same unless the encoding is too large for it. -/
theorem allocate_id_cases (h : allocate id count s w = .ok s') :
    ∃ k remainder, w + k ≤ s.prevOppositeFieldWidth ∧
      s' = s.finish (s.grown.insert ⟨(s.prevEncoding + 1) * 2 ^ k, 0⟩) remainder
        ((s.prevEncoding + 1) * 2 ^ k) w ∧
      ((s.prevEncoding + 1) * 2 ^ k < 2 ^ 32 → allocate uint32 count s w = .ok s') := by
  have hwrap (k : Nat) (hk : (s.prevEncoding + 1) * 2 ^ k < 2 ^ 32) :
      uint32 (s.prevEncoding + 1) = s.prevEncoding + 1 :=
    Nat.mod_eq_of_lt (Nat.lt_of_le_of_lt (Nat.le_mul_of_pos_right _ (Nat.two_pow_pos k)) hk)
  simp only [allocate, id_eq] at h
  split at h
  · rename_i hw
    injection h with h
    refine ⟨0, ?_⟩
    rw [Nat.pow_zero, Nat.mul_one]
    refine ⟨_, by omega, h.symm, ?_⟩
    intro hlt32
    rw [← Nat.mul_one (s.prevEncoding + 1)] at hlt32
    simp only [allocate, hwrap 0 hlt32, if_pos hw, h]
  · rename_i hw
    split at h
    · rename_i hlt
      obtain ⟨k, hk, h⟩ := Except.bind_ok h
      injection h with h
      have hle := expansionLoop_le hk (Nat.zero_le _)
      refine ⟨k, ?_⟩
      rw [← Nat.shiftLeft_eq]
      refine ⟨_, by omega, h.symm, ?_⟩
      intro hlt32
      have hs : uint32 ((s.prevEncoding + 1) <<< k) = (s.prevEncoding + 1) <<< k :=
        Nat.mod_eq_of_lt hlt32
      rw [Nat.shiftLeft_eq] at hlt32
      simp only [allocate, hwrap k hlt32, if_neg hw, if_pos hlt, hk, bind, Except.bind, hs, h]
    · cases h

theorem Allocation.Canonical.allocate (hs : s.Canonical ws)
    (h : allocate id count s w = .ok s') : s'.Canonical (ws ++ [w]) := by
  obtain ⟨k, remainder, hk, rfl, -⟩ := allocate_id_cases h
  rcases bitLength_succ s.prevEncoding with hg | ⟨hg, -⟩
  · apply hs.finish (g := 0) hg _ hk
    rw [Allocation.grown, if_neg (by omega)]
    exact (List.map_id _).symm
  · apply hs.finish (g := 1) hg _ hk
    rw [Allocation.grown, if_pos (by omega), addExtraBits_elems hs.increasing]

theorem Allocation.Canonical.foldlM {rest : List Nat} (hs : s.Canonical ws)
    (h : rest.foldlM (BEMGenerator.allocate id count) s = .ok s') : s'.Canonical (ws ++ rest) := by
  induction rest generalizing s ws with
  | nil =>
    cases h
    rw [List.append_nil]
    exact hs
  | cons w rest ih =>
    rw [List.foldlM_cons] at h
    obtain ⟨t, ht, h⟩ := Except.bind_ok h
    have hc := ih (hs.allocate ht) h
    rwa [List.append_assoc, List.singleton_append] at hc

theorem foldlM_allocate_prev_le {rest : List Nat}
    (h : rest.foldlM (allocate id count) s = .ok s') : s.prevEncoding ≤ s'.prevEncoding := by
  induction rest generalizing s with
  | nil =>
    cases h
    exact Nat.le_refl _
  | cons w rest ih =>
    rw [List.foldlM_cons] at h
    obtain ⟨t, ht, h⟩ := Except.bind_ok h
    obtain ⟨k, remainder, -, rfl, -⟩ := allocate_id_cases ht
    have hstep : s.prevEncoding ≤ (s.prevEncoding + 1) * 2 ^ k :=
      Nat.le_of_succ_le (Nat.le_mul_of_pos_right _ (Nat.two_pow_pos k))
    exact Nat.le_trans hstep (ih h)

/-- No number wraps around in a run that ends with an encoding of 32 bits. -/
theorem foldlM_allocate_uint32 {rest : List Nat}
    (h : rest.foldlM (allocate id count) s = .ok s') (hlt : s'.prevEncoding < 2 ^ 32) :
    rest.foldlM (allocate uint32 count) s = .ok s' := by
  induction rest generalizing s with
  | nil => exact h
  | cons w rest ih =>
    rw [List.foldlM_cons] at h ⊢
    obtain ⟨t, ht, h⟩ := Except.bind_ok h
    obtain ⟨k, remainder, -, rfl, hu⟩ := allocate_id_cases ht
    rw [hu (Nat.lt_of_le_of_lt (foldlM_allocate_prev_le h) hlt)]
    exact ih h

theorem allocateFirst_canonical (count w : Nat) : (allocateFirst count w).Canonical [w] where
  calculated := rfl
  length := rfl
  beside := List.pairwise_singleton _ _
  last := ⟨[], [], rfl, rfl⟩

theorem allocation_canonical (h : allocation id ws = .ok s) : s.Canonical ws := by
  cases ws with
  | nil => cases h
  | cons w ws => exact (allocateFirst_canonical _ w).foldlM h

theorem allocation_uint32 (h : allocation id ws = .ok s) (hlt : s.prevEncoding < 2 ^ 32) :
    allocation uint32 ws = .ok s := by
  cases ws with
  | nil => cases h
  | cons w ws => exact foldlM_allocate_uint32 h hlt

theorem calculateEncodings_allocation (hW : W.elems ≠ [])
    (h : calculateEncodings wrap W true = .ok codes) :
    ∃ s, allocation wrap W.elems.reverse = .ok s ∧ codes = s.encodings := by
  have hn : ¬ W.size < 1 := by
    rw [Nat.lt_one_iff]
    exact fun h0 => hW (List.length_eq_zero_iff.1 h0)
  rw [calculateEncodings, if_neg hn, if_pos rfl] at h
  obtain ⟨s, hs, h⟩ := Except.bind_ok h
  split at h
  · cases h
    exact ⟨s, hs, rfl⟩
  · cases h

theorem Allocation.Canonical.width_le {s : Allocation} {c c₀ : Encoding} {ws ws' : List Nat}
    {w w₀ i : Nat} (h : s.Canonical ws)
    (he : s.encodings.elems = c₀ :: rest) (hw : ws = w₀ :: ws')
    (hc : s.encodings.elems[i]? = some c) (hi : ws[i]? = some w) :
    c.width + w ≤ c₀.width + w₀ := by
  have hb := h.beside
  have hp : (s.encodings.elems.zip ws)[i]? = some (c, w) := by
    rw [List.getElem?_zip_eq_some]
    exact ⟨hc, hi⟩
  rw [he, hw, List.zip_cons_cons] at hb hp
  cases i with
  | zero =>
    rw [List.getElem?_cons_zero] at hp
    cases hp
    exact Nat.le_refl _
  | succ i =>
    rw [List.getElem?_cons_succ] at hp
    exact ((List.pairwise_cons.1 hb).1 _ (List.mem_of_getElem? hp)).fits

theorem expansionLoop_ok (hf : freeBits < 32) (he : e ≤ freeBits) :
    ∃ k, expansionLoop remainder encodingsLeft freeBits fuel e = .ok k := by
  induction fuel generalizing e with
  | zero => exact ⟨e, rfl⟩
  | succ fuel ih =>
    rw [expansionLoop, shiftLeft32, if_pos (Nat.lt_of_le_of_lt he hf)]
    simp only [bind, Except.bind]
    split
    · split
      · rename_i hlt
        exact ih hlt
      · exact ⟨e, rfl⟩
    · exact ⟨e, rfl⟩

theorem allocate_ok (wrap : Nat → Nat) (count : Nat) (s : Allocation)
    (hw : w ≤ s.prevOppositeFieldWidth) (hp : s.prevOppositeFieldWidth < 32) :
    ∃ s', allocate wrap count s w = .ok s' ∧ s'.prevOppositeFieldWidth = w := by
  rw [allocate]
  split
  · exact ⟨_, rfl, rfl⟩
  · rw [if_pos (by omega)]
    have hf : s.prevOppositeFieldWidth - w < 32 := Nat.lt_of_le_of_lt (Nat.sub_le _ w) hp
    dsimp only
    generalize (if bitLength s.prevEncoding < bitLength (wrap (s.prevEncoding + 1)) then
      uint32 (s.remainder <<< 1 + (count - s.encodingsLeft)) else s.remainder) = remainder
    obtain ⟨k, hk⟩ := expansionLoop_ok (e := 0) hf (Nat.zero_le _)
    rw [hk]
    exact ⟨_, rfl, rfl⟩

/-- Opposite fields below 32 bits are always given encodings. -/
theorem foldlM_allocate_ok {rest : List Nat} (wrap : Nat → Nat) (count : Nat) (s : Allocation)
    (hd : rest.Pairwise (· ≥ ·)) (hw : ∀ w ∈ rest, w ≤ s.prevOppositeFieldWidth)
    (hp : s.prevOppositeFieldWidth < 32) : ∃ s', rest.foldlM (allocate wrap count) s = .ok s' := by
  induction rest generalizing s with
  | nil => exact ⟨s, rfl⟩
  | cons w rest ih =>
    have hle := hw w List.mem_cons_self
    obtain ⟨t, ht, hprev⟩ := allocate_ok wrap count s hle hp
    rw [List.foldlM_cons, ht]
    refine ih t (List.pairwise_cons.1 hd).2 ?_ ?_
    · rw [hprev]
      exact (List.pairwise_cons.1 hd).1
    · rw [hprev]
      exact Nat.lt_of_le_of_lt hle hp

/-- The field that the encodings take on unbounded numbers is at most 32 bits wide. -/
def FieldFits (W : Widths) : Prop :=
  ∃ codes, calculateEncodings id W true = .ok codes ∧ fieldWidth codes W ≤ 32

theorem calculateEncodings_of_allocation (hW : W.elems ≠ [])
    (h : allocation wrap W.elems.reverse = .ok s) (hs : s.Canonical W.elems.reverse) :
    calculateEncodings wrap W true = .ok s.encodings := by
  have hn : ¬ W.size < 1 := by
    rw [Nat.lt_one_iff]
    exact fun h0 => hW (List.length_eq_zero_iff.1 h0)
  have hsize : s.encodings.size = W.size := by
    rw [StdMultiset.size, StdMultiset.size, hs.length, List.length_reverse]
  rw [calculateEncodings, if_neg hn, if_pos rfl, h]
  simp only [bind, Except.bind]
  rw [if_pos hsize]

/-- Whether a field fits is the only question: encodings on unbounded numbers always exist. -/
theorem calculateEncodings_id_ok {W : Widths} (hW : W.elems ≠ []) (h : ∀ w ∈ W.elems, w < 32) :
    ∃ codes, calculateEncodings id W true = .ok codes := by
  have hd : W.elems.reverse.Pairwise (· ≥ ·) := List.pairwise_reverse.2 W.sorted
  cases hr : W.elems.reverse with
  | nil => exact (hW (List.reverse_eq_nil_iff.1 hr)).elim
  | cons w ws =>
    rw [hr] at hd
    have hmax : w < 32 := h w (List.mem_reverse.1 (hr ▸ List.mem_cons_self))
    obtain ⟨s, hs⟩ := foldlM_allocate_ok id (w :: ws).length
      (allocateFirst (w :: ws).length w) (List.pairwise_cons.1 hd).2
      (List.pairwise_cons.1 hd).1 hmax
    have ha : allocation id W.elems.reverse = .ok s := by
      rw [hr]
      exact hs
    exact ⟨s.encodings, calculateEncodings_of_allocation hW ha (allocation_canonical ha)⟩

theorem Allocation.Canonical.width_le_fieldWidth {s : Allocation} {W : Widths} {c : Encoding}
    {w i : Nat} (h : s.Canonical W.elems.reverse) (hc : s.encodings.elems[i]? = some c)
    (hi : W.elems.reverse[i]? = some w) : c.width + w ≤ fieldWidth s.encodings W := by
  rw [fieldWidth]
  split
  · rename_i c₀ _ w₀ _ he hw
    exact h.width_le he hw hc hi
  · rename_i hne
    cases he : s.encodings.elems with
    | nil =>
      rw [he] at hc
      cases hc
    | cons c₀ cs =>
      cases hw : W.elems.reverse with
      | nil =>
        rw [hw] at hi
        cases hi
      | cons w₀ ws => exact (hne c₀ cs w₀ ws he hw).elim

/-- The last encoding is the largest, and it has no more bits than the field. -/
theorem Allocation.Canonical.prevEncoding_lt {s : Allocation} {W : Widths} {bits : Nat}
    (h : s.Canonical W.elems.reverse) (hf : fieldWidth s.encodings W ≤ bits) :
    s.prevEncoding < 2 ^ bits := by
  obtain ⟨init, ws', he, hw⟩ := h.last
  have hlen := h.length
  rw [he, hw, List.length_append, List.length_append, List.length_singleton,
    List.length_singleton] at hlen
  have hc : s.encodings.elems[init.length]? = some ⟨s.prevEncoding, 0⟩ := by
    rw [he, List.getElem?_concat_length]
  have hi : W.elems.reverse[init.length]? = some s.prevOppositeFieldWidth := by
    rw [hw, Nat.add_right_cancel hlen, List.getElem?_concat_length]
  have hle := h.width_le_fieldWidth hc hi
  have hwid : Encoding.width ⟨s.prevEncoding, 0⟩ ≤ bits := by omega
  exact Nat.lt_of_lt_of_le (Encoding.value_lt ⟨s.prevEncoding, 0⟩)
    (Nat.pow_le_pow_right Nat.two_pos hwid)

theorem Allocation.Canonical.prefixFree {s : Allocation} (h : s.Canonical ws) :
    PrefixFree (s.encodings.elems.map Encoding.bits) := by
  have hp := prefixFree_of_precedes (s.encodings.elems.map fun c => (c.value, c.width))
    (by
      intro p hp
      obtain ⟨c, -, rfl⟩ := List.mem_map.1 hp
      exact c.value_lt)
    (List.pairwise_map.2 h.precedes)
  rw [List.map_map] at hp
  exact hp

/-- The encodings calculated for opposite fields that fit in 32 bits: as many as the fields, in
increasing order, prefix free, and each fits beside its own opposite field. -/
theorem calculateEncodings_correct (W : Widths) (hW : W.elems ≠ []) (hfits : FieldFits W) :
    ∃ s, allocation uint32 W.elems.reverse = .ok s ∧
      calculateEncodings uint32 W true = .ok s.encodings ∧
      s.encodings.size = W.size ∧
      s.calculated = s.encodings.elems.map Encoding.value ∧
      s.calculated.Pairwise (· < ·) ∧
      PrefixFree (s.encodings.elems.map Encoding.bits) ∧
      ∀ (i : Nat) (c : Encoding) (w : Nat), s.encodings.elems[i]? = some c →
        W.elems.reverse[i]? = some w → c.width + w ≤ fieldWidth s.encodings W := by
  obtain ⟨codes, hcodes, hf⟩ := hfits
  obtain ⟨s, hs, rfl⟩ := calculateEncodings_allocation hW hcodes
  have hc := allocation_canonical hs
  have hu := allocation_uint32 hs (hc.prevEncoding_lt hf)
  refine ⟨s, hu, calculateEncodings_of_allocation hW hu hc, ?_, hc.calculated, ?_,
    hc.prefixFree, ?_⟩
  · rw [StdMultiset.size, StdMultiset.size, hc.length, List.length_reverse]
  · rw [hc.calculated, List.pairwise_map]
    exact hc.increasing
  · intro i c w hci hwi
    exact hc.width_le_fieldWidth hci hwi

/-- Opposite fields of 2, 1, 0 and 0 bits. -/
def exampleWidths : Widths := ⟨[0, 0, 1, 2], by decide⟩

theorem calculateEncodings_correct_example :
    exampleWidths.elems ≠ [] ∧ FieldFits exampleWidths ∧
      ∃ s, allocation uint32 [2, 1, 0, 0] = .ok s ∧
        PrefixFree (s.encodings.elems.map Encoding.bits) := by
  have hW : exampleWidths.elems ≠ [] := by decide
  have hfits : FieldFits exampleWidths :=
    ⟨⟨[⟨0, 1⟩, ⟨2, 0⟩, ⟨6, 0⟩, ⟨7, 0⟩], by decide⟩, by rfl, by decide⟩
  obtain ⟨s, hs, -, -, -, -, hp, -⟩ := calculateEncodings_correct exampleWidths hW hfits
  exact ⟨hW, hfits, s, hs, hp⟩

example : (calculateEncodings uint32 ⟨[0, 0, 1, 2], by decide⟩ true).map (·.elems) =
    .ok [⟨0, 1⟩, ⟨2, 0⟩, ⟨6, 0⟩, ⟨7, 0⟩] := by decide

end BEMGenerator

end OpenAsip
