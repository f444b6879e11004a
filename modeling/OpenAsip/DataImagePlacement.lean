import OpenAsip.DataImageLines

namespace OpenAsip
set_option autoImplicit true

namespace DataImage
open BitVector

/-- The instruction address that a relocated word carries. -/
def wordAt (c : Settings) (relocSections : List RelocSection) (s : DataSection) (offset : Nat) :
    Option UInt32 :=
  match relocTarget s offset relocSections with
  | .ok (some target) => c.memoryAddress target
  | _ => none

/-- A byte of a word in the byte order of the machine. -/
def wordByte (c : Settings) (word : UInt32) (i : Nat) : UInt8 :=
  if c.isLittleEndian then UInt8.ofNat (word.toNat / 2 ^ (8 * i))
  else UInt8.ofNat (word.toNat / 2 ^ (8 * (3 - i)))

/-- The byte of a section at an offset, which may be one of the four bytes of a relocated word. -/
def byteAt (c : Settings) (relocSections : List RelocSection) (s : DataSection) (offset : Nat) :
    UInt8 :=
  let relocated := [0, 1, 2, 3].findSome? fun i =>
    if i ≤ offset then (wordAt c relocSections s (offset - i)).map (wordByte c · i) else none
  relocated.getD (s.data.getD offset 0)

/-- The locations of the relocations are known, and relocated words lie in the section, do not
overlap and belong to instructions that have an address. -/
def Relocatable (c : Settings) (relocSections : List RelocSection) (s : DataSection) : Prop :=
  ∀ offset < s.length, ∃ target, relocTarget s offset relocSections = .ok target ∧
    ∀ t, target = some t → (∃ address, c.memoryAddress t = some address) ∧
      offset + 4 ≤ s.length ∧
      ∀ i, 0 < i → i < 4 → relocTarget s (offset + i) relocSections = .ok none

theorem byteBits_ofNat (n : Nat) : byteBits (UInt8.ofNat n) = toBits 8 n := by
  rw [byteBits, UInt8.toNat_ofNat']
  exact toBits_mod 8 n

theorem toBits_32 (n : Nat) : toBits 32 n =
    toBits 8 (n / 2 ^ 24) ++ (toBits 8 (n / 2 ^ 16) ++ (toBits 8 (n / 2 ^ 8) ++ toBits 8 n)) := by
  rw [toBits_add 8 24, toBits_add 8 16, toBits_add 8 8]

theorem toNat_byteSwap (w : UInt32) : (byteSwap w).toNat =
    (w.toNat >>> 24 &&& 0xff) ||| (w.toNat <<< 8 % 2 ^ 32 &&& 0xff0000) |||
      (w.toNat >>> 8 &&& 0xff00) ||| (w.toNat <<< 24 % 2 ^ 32 &&& 0xff000000) := by
  simp [byteSwap]

theorem testBit_byteMask (k i : Nat) :
    (255 <<< k).testBit i = (decide (i ≥ k) && decide (i - k < 8)) := by
  rw [Nat.testBit_shiftLeft]
  congr 1
  exact Nat.testBit_two_pow_sub_one 8 (i - k)

theorem toBits_byteSwap (w : UInt32) : toBits 32 (byteSwap w).toNat =
    toBits 8 w.toNat ++ (toBits 8 (w.toNat / 2 ^ 8) ++ (toBits 8 (w.toNat / 2 ^ 16) ++
      toBits 8 (w.toNat / 2 ^ 24))) := by
  have h0 : ∀ i, Nat.testBit 0xff i = (decide (i ≥ 0) && decide (i - 0 < 8)) := testBit_byteMask 0
  have h8 : ∀ i, Nat.testBit 0xff00 i = (decide (i ≥ 8) && decide (i - 8 < 8)) :=
    testBit_byteMask 8
  have h16 : ∀ i, Nat.testBit 0xff0000 i = (decide (i ≥ 16) && decide (i - 16 < 8)) :=
    testBit_byteMask 16
  have h24 : ∀ i, Nat.testBit 0xff000000 i = (decide (i ≥ 24) && decide (i - 24 < 8)) :=
    testBit_byteMask 24
  rw [toNat_byteSwap]
  simp only [toBits, Nat.testBit_or, Nat.testBit_and, Nat.testBit_shiftRight,
    Nat.testBit_mod_two_pow, Nat.testBit_shiftLeft, Nat.testBit_div_two_pow, h0, h8, h16, h24]
  simp

/-- The bits of a relocated word are those of its bytes. -/
theorem toBits_word (c : Settings) (w : UInt32) :
    toBits 32 (if c.isLittleEndian then byteSwap w else w).toNat =
      bitsOf [wordByte c w 0, wordByte c w 1, wordByte c w 2, wordByte c w 3] := by
  simp only [bitsOf_cons, wordByte]
  cases c.isLittleEndian with
  | true =>
    rw [if_pos rfl, if_pos rfl, if_pos rfl, if_pos rfl, if_pos rfl, toBits_byteSwap]
    simp only [byteBits_ofNat, Nat.mul_zero, Nat.pow_zero, Nat.div_one]
    rw [bitsOf, List.flatMap_nil, List.append_nil]
  | false =>
    rw [if_neg Bool.false_ne_true, if_neg Bool.false_ne_true, if_neg Bool.false_ne_true,
      if_neg Bool.false_ne_true, if_neg Bool.false_ne_true, toBits_32]
    simp only [byteBits_ofNat, Nat.sub_self, Nat.mul_zero, Nat.pow_zero, Nat.div_one]
    rw [bitsOf, List.flatMap_nil, List.append_nil]

section Section
variable {c : Settings} {relocSections : List RelocSection} {s : DataSection}

/-- No relocated word begins in the three bytes before the offset. -/
def Free (c : Settings) (relocSections : List RelocSection) (s : DataSection) (offset : Nat) :
    Prop :=
  ∀ i, 0 < i → i < 4 → i ≤ offset → wordAt c relocSections s (offset - i) = none

theorem wordAt_none (h : relocTarget s offset relocSections = .ok none) :
    wordAt c relocSections s offset = none := by
  rw [wordAt, h]

theorem byteAt_of_free (hfree : Free c relocSections s offset)
    (h : relocTarget s offset relocSections = .ok none) :
    byteAt c relocSections s offset = s.data.getD offset 0 := by
  have hnone : ∀ i ∈ [0, 1, 2, 3], (if i ≤ offset then
      (wordAt c relocSections s (offset - i)).map (wordByte c · i) else none) = none := by
    intro i hi
    split
    · rename_i hle
      cases i with
      | zero =>
        rw [Nat.sub_zero, wordAt_none h]
        rfl
      | succ i =>
        rw [hfree (i + 1) (Nat.succ_pos i) (by simp at hi; omega) hle]
        rfl
    · rfl
  rw [byteAt, List.findSome?_eq_none_iff.2 hnone]
  rfl

theorem byteAt_word (h : wordAt c relocSections s offset = some w) (hi : i < 4)
    (hnone : ∀ j, 0 < j → j < 4 → wordAt c relocSections s (offset + j) = none) :
    byteAt c relocSections s (offset + i) = wordByte c w i := by
  have h1 := hnone 1 (by decide) (by decide)
  have h2 := hnone 2 (by decide) (by decide)
  have h3 := hnone 3 (by decide) (by decide)
  match i, hi with
  | 0, _ => simp [byteAt, h]
  | 1, _ => simp [byteAt, h, h1]
  | 2, _ => simp [byteAt, h, h1, h2]
  | 3, _ => simp [byteAt, h, h1, h2, h3]

/-- The bytes of the section that are left. -/
def bytesFrom (c : Settings) (relocSections : List RelocSection) (s : DataSection)
    (offset : Nat) : List UInt8 :=
  (List.range' offset (s.length - offset)).map (byteAt c relocSections s)

theorem bytesFrom_nil (h : s.length ≤ offset) : bytesFrom c relocSections s offset = [] := by
  rw [bytesFrom, Nat.sub_eq_zero_of_le h]
  rfl

theorem bytesFrom_cons (h : offset < s.length) : bytesFrom c relocSections s offset =
    byteAt c relocSections s offset :: bytesFrom c relocSections s (offset + 1) := by
  obtain ⟨k, hk⟩ : ∃ k, s.length - offset = k + 1 := ⟨s.length - offset - 1, by omega⟩
  have hk' : s.length - (offset + 1) = k := by omega
  rw [bytesFrom, bytesFrom, hk, hk', List.range'_succ, List.map_cons]

theorem bytesFrom_word (h : offset + 4 ≤ s.length)
    (hword : wordAt c relocSections s offset = some w)
    (hnone : ∀ j, 0 < j → j < 4 → wordAt c relocSections s (offset + j) = none) :
    bytesFrom c relocSections s offset =
      [wordByte c w 0, wordByte c w 1, wordByte c w 2, wordByte c w 3] ++
        bytesFrom c relocSections s (offset + 4) := by
  have hbyte : ∀ i < 4, byteAt c relocSections s (offset + i) = wordByte c w i := fun i hi =>
    byteAt_word hword hi hnone
  rw [bytesFrom_cons (by omega), bytesFrom_cons (by omega), bytesFrom_cons (by omega),
    bytesFrom_cons (by omega), hbyte 1 (by decide), hbyte 2 (by decide), hbyte 3 (by decide),
    ← hbyte 0 (by decide)]
  rfl

/-- The loop writes the bytes of the section from the offset on. -/
theorem writeData_eq (n : Nat) (hs : Relocatable c relocSections s)
    (hdata : s.data.length < 2 ^ 32) (hn : s.length ≤ offset + n)
    (hfree : Free c relocSections s offset) :
    writeData c relocSections s n offset dataBits =
      .ok (dataBits ++ bitsOf (bytesFrom c relocSections s offset)) := by
  induction n generalizing offset dataBits with
  | zero =>
    rw [Nat.add_zero] at hn
    rw [bytesFrom_nil hn, bitsOf, List.flatMap_nil, List.append_nil]
    rfl
  | succ n ih =>
    rw [writeData]
    by_cases hlt : offset < s.length
    · rw [if_pos hlt]
      obtain ⟨target, htarget, hword⟩ := hs offset hlt
      rw [htarget]
      cases target with
      | some t =>
        obtain ⟨⟨w, hw⟩, hle, hnone⟩ := hword t rfl
        have hnone : ∀ j, 0 < j → j < 4 → wordAt c relocSections s (offset + j) = none :=
          fun j hj hj' => wordAt_none (hnone j hj hj')
        have hwordAt : wordAt c relocSections s offset = some w := by
          rw [wordAt, htarget]
          exact hw
        have hnext : Free c relocSections s (offset + 4) := by
          intro i hi hi' hile
          rw [Nat.add_sub_assoc (Nat.le_of_lt hi')]
          exact hnone (4 - i) (by omega) (by omega)
        dsimp only [bind, Except.bind]
        rw [hw, bytesFrom_word hle hwordAt hnone, bitsOf_append, ← toBits_word,
          ← List.append_assoc]
        dsimp only
        rw [pushBack_eq (UInt32.toNat_lt _) (by decide)]
        exact ih (by omega) hnext
      | none =>
        have hlength : s.length = s.data.length := Nat.mod_eq_of_lt hdata
        have hbyte : s.data[offset]? = some (s.data.getD offset 0) := by
          rw [List.getD_eq_getElem?_getD, List.getElem?_eq_getElem (by omega)]
          rfl
        have hnext : Free c relocSections s (offset + 1) := by
          intro i hi hi' hile
          obtain ⟨i, rfl⟩ : ∃ k, i = k + 1 := ⟨i - 1, by omega⟩
          rw [Nat.add_sub_add_right]
          cases i with
          | zero => exact wordAt_none htarget
          | succ i => exact hfree (i + 1) (Nat.succ_pos i) (by omega) (by omega)
        change (s.byte offset >>= fun byte => pushBack dataBits byte.toNat 8 >>= fun dataBits =>
          writeData c relocSections s n (offset + 1) dataBits) = _
        have hsmall : (s.data.getD offset 0).toNat < 2 ^ 32 :=
          Nat.lt_of_lt_of_le (UInt8.toNat_lt _) (by decide)
        rw [DataSection.byte, hbyte, bytesFrom_cons hlt, byteAt_of_free hfree htarget, bitsOf_cons,
          ← List.append_assoc]
        change (pushBack dataBits (s.data.getD offset 0).toNat 8 >>= fun dataBits =>
          writeData c relocSections s n (offset + 1) dataBits) = _
        rw [pushBack_eq hsmall (by decide)]
        exact ih (by omega) hnext
    · rw [if_neg hlt, bytesFrom_nil (Nat.le_of_not_lt hlt), bitsOf, List.flatMap_nil,
        List.append_nil]

theorem fillZeros_eq (n : Nat) (dataBits : List Bool) :
    fillZeros n dataBits = .ok (dataBits ++ bitsOf (List.replicate n 0)) := by
  induction n generalizing dataBits with
  | zero =>
    rw [List.replicate_zero, bitsOf, List.flatMap_nil, List.append_nil]
    rfl
  | succ n ih =>
    rw [fillZeros, pushBack_eq (by decide) (by decide), List.replicate_succ, bitsOf_cons,
      ← List.append_assoc]
    exact ih _

/-- A section is written after zeros up to its address. -/
theorem writeDataSection_eq {image : List UInt8} (haspace : s.aSpace = c.addressSpace)
    (hs : Relocatable c relocSections s) (hdata : s.data.length < 2 ^ 32)
    (hstart : zeroFillStart c (bitsOf image) ≤ s.startingAddress.toNat) :
    writeDataSection c relocSections (bitsOf image) s = .ok (bitsOf (image ++
      (List.replicate (s.startingAddress.toNat - zeroFillStart c (bitsOf image)) 0 ++
        bytesFrom c relocSections s 0))) := by
  have hfree : Free c relocSections s 0 := fun i hi _ hle => (by omega)
  rw [writeDataSection, if_pos haspace]
  dsimp only
  rw [fillZeros_eq]
  change (if _ then _ else _) = _
  rw [if_neg (Nat.not_lt_of_le hstart), writeData_eq s.length hs hdata (by omega) hfree]
  simp only [bitsOf_append, List.append_assoc]

end Section

def DataSection.start (s : DataSection) : Nat := s.startingAddress.toNat

/-- The address after the section. -/
def DataSection.stop (s : DataSection) : Nat := s.start + s.length

/-- The byte of an address, which is zero outside the sections. -/
def memoryByte (c : Settings) (relocSections : List RelocSection) (sections : List DataSection)
    (address : Nat) : UInt8 :=
  match sections.find? fun s => s.start ≤ address ∧ address < s.stop with
  | some s => byteAt c relocSections s (address - s.start)
  | none => 0

/-- The image has the bytes of the sections from a start address on, and all of them. -/
structure Placed (c : Settings) (relocSections : List RelocSection) (start : Nat)
    (sections : List DataSection) (image : List UInt8) : Prop where
  stop_le : ∀ s ∈ sections, s.stop ≤ start + image.length
  getElem?_eq : ∀ p < image.length,
    image[p]? = some (memoryByte c relocSections sections (start + p))

section Placement
variable {c : Settings} {relocSections : List RelocSection} {sections : List DataSection}
  {image : List UInt8}

theorem find?_of_stop_le (h : ∀ s ∈ sections, s.stop ≤ address) :
    (sections.find? fun s => s.start ≤ address ∧ address < s.stop) = none := by
  rw [List.find?_eq_none]
  intro s hs hcovers
  have hstop := h s hs
  rw [decide_eq_true_iff] at hcovers
  omega

theorem Placed.nil (start : Nat) : Placed c relocSections start [] [] :=
  ⟨List.forall_mem_nil _, fun p hp => (Nat.not_lt_zero p hp).elim⟩

theorem Placed.pad (h : Placed c relocSections start sections image) (n : Nat) :
    Placed c relocSections start sections (image ++ List.replicate n 0) := by
  constructor
  · intro s hs
    have hstop := h.stop_le s hs
    rw [List.length_append]
    omega
  · intro p hp
    rw [List.length_append, List.length_replicate] at hp
    by_cases hlt : p < image.length
    · rw [List.getElem?_append_left hlt]
      exact h.getElem?_eq p hlt
    · have hstop : ∀ s ∈ sections, s.stop ≤ start + p := fun s hs =>
        Nat.le_trans (h.stop_le s hs) (by omega)
      rw [List.getElem?_append_right (Nat.le_of_not_lt hlt), memoryByte, find?_of_stop_le hstop,
        List.getElem?_replicate, if_pos (by omega)]

theorem length_bytesFrom (s : DataSection) : (bytesFrom c relocSections s 0).length = s.length := by
  rw [bytesFrom, List.length_map, List.length_range', Nat.sub_zero]

/-- A section is added right after the image. -/
theorem Placed.concat (h : Placed c relocSections start sections image) {s : DataSection}
    (hs : start + image.length = s.start) :
    Placed c relocSections start (sections ++ [s])
      (image ++ bytesFrom c relocSections s 0) := by
  constructor
  · intro t ht
    rw [List.length_append, length_bytesFrom]
    rcases List.mem_append.1 ht with ht | ht
    · have hstop := h.stop_le t ht
      omega
    · rw [List.mem_singleton.1 ht, DataSection.stop]
      omega
  · intro p hp
    rw [List.length_append, length_bytesFrom] at hp
    rw [memoryByte, List.find?_append]
    by_cases hlt : p < image.length
    · have hnone : ([s].find? fun s => s.start ≤ start + p ∧ start + p < s.stop) = none := by
        rw [List.find?_eq_none]
        intro t ht hcovers
        rw [List.mem_singleton.1 ht, decide_eq_true_iff] at hcovers
        omega
      rw [List.getElem?_append_left hlt, hnone, Option.or_none]
      exact h.getElem?_eq p hlt
    · have hstop : ∀ t ∈ sections, t.stop ≤ start + p := fun t ht =>
        Nat.le_trans (h.stop_le t ht) (by omega)
      have hcovers : ([s].find? fun s => s.start ≤ start + p ∧ start + p < s.stop) = some s := by
        rw [List.find?_cons_of_pos]
        rw [decide_eq_true_iff, DataSection.stop]
        omega
      have hindex : start + p - s.start = p - image.length := by omega
      rw [List.getElem?_append_right (Nat.le_of_not_lt hlt), find?_of_stop_le hstop,
        Option.none_or, hcovers]
      dsimp only
      rw [hindex, bytesFrom, List.getElem?_map, List.getElem?_range' (by omega), Nat.one_mul,
        Nat.zero_add]
      rfl

/-- A section is added after zeros. -/
theorem Placed.add (h : Placed c relocSections start sections image) {s : DataSection}
    (hs : start + image.length ≤ s.start) :
    Placed c relocSections start (sections ++ [s])
      (image ++ (List.replicate (s.start - (start + image.length)) 0 ++
        bytesFrom c relocSections s 0)) := by
  rw [← List.append_assoc]
  refine (h.pad _).concat ?_
  rw [List.length_append, List.length_replicate]
  omega

theorem memoryByte_of_mem (hsections : sections.Pairwise fun s t => s.stop ≤ t.start)
    {s : DataSection} (hs : s ∈ sections) (ho : o < s.length) :
    memoryByte c relocSections sections (s.start + o) = byteAt c relocSections s o := by
  have hfind : (sections.find? fun t => t.start ≤ s.start + o ∧ s.start + o < t.stop) =
      some s := by
    induction hsections with
    | nil => cases hs
    | @cons t sections ht _ ih =>
      cases hs with
      | head =>
        rw [List.find?_cons_of_pos]
        rw [decide_eq_true_iff, DataSection.stop]
        omega
      | tail _ hs =>
        rw [List.find?_cons_of_neg, ih hs]
        have hstop := ht s hs
        rw [decide_eq_true_iff]
        omega
  rw [memoryByte, hfind]
  dsimp only
  rw [Nat.add_sub_cancel_left]

end Placement

end DataImage

end OpenAsip
