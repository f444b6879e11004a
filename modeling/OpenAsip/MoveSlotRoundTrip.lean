import OpenAsip.DictionaryRoundTrip

namespace OpenAsip
set_option autoImplicit true

namespace Compression
open BitVector MathTools

namespace MoveSlotDictionary

/-- The parts of the given widths from a position on. -/
def slices (bits : List Bool) : List Nat → Nat → List (List Bool)
  | [], _ => []
  | width :: widths, first => (bits.drop first).take width :: slices bits widths (first + width)

theorem length_slices (bits : List Bool) (widths : List Nat) (first : Nat) :
    (slices bits widths first).length = widths.length := by
  induction widths generalizing first with
  | nil => rfl
  | cons width widths ih => rw [slices, List.length_cons, ih, List.length_cons]

theorem flatten_slices (bits : List Bool) (widths : List Nat) (first : Nat) :
    (slices bits widths first).flatten = (bits.drop first).take widths.sum := by
  induction widths generalizing first with
  | nil => rfl
  | cons width widths ih =>
    rw [slices, List.flatten_cons, ih, List.sum_cons, List.take_add, List.drop_drop]

theorem moveSlotBits_eq {ws : List Nat} (hpos : ∀ w ∈ ws, 0 < w) (hle : first + ws.sum ≤ bits.length)
    (hlt : bits.length < 2 ^ 32) :
    moveSlotBits bits ws first = .ok (slices bits ws first) := by
  induction ws generalizing first with
  | nil => rfl
  | cons width ws ih =>
    have hwidth := hpos width List.mem_cons_self
    rw [List.sum_cons] at hle
    have hlast : (first + width + 2 ^ 32 - 1) % 2 ^ 32 = first + width - 1 := by omega
    have hnext : (first + width - 1 + 1) % 2 ^ 32 = first + width := by omega
    have hcount : first + width - 1 - first + 1 = width := by omega
    rw [moveSlotBits, hlast, hnext, subVector, if_neg (by omega), hcount,
      ih (fun w hw => hpos w (List.mem_cons_of_mem width hw)) (by omega)]
    rfl

/-- A move slot without bits is out of range. -/
theorem moveSlotBits_zero {ws : List Nat} (hzero : 0 ∈ ws) (hfirst : first < 2 ^ 32)
    (hlt : bits.length < 2 ^ 32) : moveSlotBits bits ws first ≠ .ok slots := by
  induction ws generalizing first slots with
  | nil => cases hzero
  | cons width ws ih =>
    intro h
    rw [moveSlotBits] at h
    obtain ⟨slot, hslot, h⟩ := Except.bind_ok h
    obtain ⟨rest, hrest, -⟩ := Except.bind_ok h
    cases hzero with
    | tail _ hzero => exact ih hzero (Nat.mod_lt _ (by decide)) hrest
    | head =>
      rw [subVector, if_pos] at hslot
      · cases hslot
      · omega

theorem addCodes_eq (entries : List (List (List Bool) × List Bool))
    (h : ∀ e ∈ entries, e.1.Nodup ∧ e.1.length < 2 ^ 32 ∧ e.2 ∈ e.1) (start : List Bool) :
    ∃ added, addCodes start (entries.map fun e => (codes e.1, e.2)) = .ok (start ++ added) ∧
      added.length = (entries.map fun e => codeWidth (codes e.1)).sum ∧
      ∀ rest, ((entries.map fun e => codes e.1).zip (evaluateMoveSlotBoundaries start.length
          (entries.map fun e => codes e.1))).mapM
          (fun d => dictionaryLine (start ++ (added ++ rest)) d.1 d.2) =
        .ok (entries.map Prod.snd) := by
  induction entries generalizing start with
  | nil => exact ⟨[], by rw [List.append_nil]; rfl, rfl, fun rest => rfl⟩
  | cons e entries ih =>
    obtain ⟨hnodup, hlength, hmem⟩ := h e List.mem_cons_self
    obtain ⟨code, hlt, hvalue, hkey⟩ := lookup_codes hnodup (Nat.le_of_lt hlength) hmem
    have hwidth : codeWidth (codes e.1) ≤ 32 := by
      rw [codeWidth, length_codes, requiredBits_le (by decide)]
      exact hlength
    have hcode : code < 2 ^ codeWidth (codes e.1) := by
      have hrequired := lt_two_pow_requiredBits e.1.length
      rw [codeWidth, length_codes]
      omega
    have hpos : 0 < codeWidth (codes e.1) := requiredBits_pos _
    obtain ⟨added, hadd, hadded, hlines⟩ := ih (fun x hx => h x (List.mem_cons_of_mem e hx))
      (start ++ toBits (codeWidth (codes e.1)) code)
    refine ⟨toBits (codeWidth (codes e.1)) code ++ added, ?_, ?_, fun rest => ?_⟩
    · rw [List.map_cons, addCodes, hvalue]
      change (pushBack start code (codeWidth (codes e.1)) >>= fun compressed =>
        addCodes compressed _) = _
      rw [pushBack_eq (by omega) hwidth, ← List.append_assoc]
      exact hadd
    · rw [List.length_append, length_toBits, hadded, List.map_cons, List.sum_cons]
    · have hline : dictionaryLine (start ++ (toBits (codeWidth (codes e.1)) code ++ added ++ rest))
          (codes e.1) (start.length + 1, start.length + codeWidth (codes e.1)) = .ok e.2 := by
        rw [dictionaryLine]
        split
        · have hcount : start.length + codeWidth (codes e.1) - (start.length + 1) + 1 =
              codeWidth (codes e.1) := by omega
          dsimp only
          rw [hcount, Nat.add_sub_cancel, List.drop_left, List.append_assoc,
            List.take_left' (length_toBits _ _), ofBits_toBits, Nat.mod_eq_of_lt hcode]
          exact hkey
        · rename_i hone
          rw [length_codes] at hone
          have hzero : code = 0 := by omega
          rw [← hzero]
          exact hkey
      have hrest := hlines rest
      rw [List.length_append, length_toBits] at hrest
      simp only [List.append_assoc] at hline hrest ⊢
      rw [List.map_cons, List.map_cons, evaluateMoveSlotBoundaries, List.zip_cons_cons,
        List.mapM_cons, hline, hrest]
      rfl

theorem addCodes_ok {entries : List (Dictionary × List Bool)}
    (h : addCodes start entries = .ok compressed) : ∀ e ∈ entries, e.1.length < 2 ^ 32 := by
  induction entries generalizing start with
  | nil => exact List.forall_mem_nil _
  | cons e entries ih =>
    obtain ⟨code, -, h⟩ := Except.bind_ok h
    obtain ⟨next, hpush, h⟩ := Except.bind_ok h
    intro x hx
    cases hx with
    | tail _ hx => exact ih h x hx
    | head =>
      by_contra hlength
      rw [pushBack_undefined] at hpush
      · cases hpush
      · rw [← Nat.not_le, codeWidth, requiredBits_le (by decide)]
        exact hlength

section Slots
variable {bem : BinaryEncoding} {encode : Encoder ι} {programs : List (List ι)} {program : List ι}
  {bits : ι → List Bool}

def slotWidths (bem : BinaryEncoding) : List Nat := bem.moveSlots.map InstructionField.width

/-- The bits that the compressor takes for a move slot. -/
def slot (bem : BinaryEncoding) (j : Nat) (instructionBits : List Bool) : List Bool :=
  (slices instructionBits (slotWidths bem) bem.firstMoveSlotIndex).getD j []

theorem slices_eq (bem : BinaryEncoding) (instructionBits : List Bool) :
    slices instructionBits (slotWidths bem) bem.firstMoveSlotIndex =
      (List.range bem.moveSlots.length).map fun j => slot bem j instructionBits := by
  have hlength := length_slices instructionBits (slotWidths bem) bem.firstMoveSlotIndex
  rw [slotWidths, List.length_map] at hlength
  apply List.ext_getElem
  · rw [List.length_map, List.length_range]
    exact hlength
  · intro j hj hj'
    rw [List.getElem_map, List.getElem_range, slot, List.getD_eq_getElem?_getD,
      List.getElem?_eq_getElem hj, Option.getD_some]

theorem sum_childFields (bem : BinaryEncoding) : (bem.childFields.map fun f => f.2.width).sum =
    widths bem.immediateControlField.toList + ((slotWidths bem).sum +
      (widths bem.immediateSlots + widths bem.longImmDstRegisterFields)) := by
  simp only [BinaryEncoding.childFields, List.map_append, List.map_map, List.sum_append, widths,
    slotWidths]
  rfl

theorem firstMoveSlotIndex_le (bem : BinaryEncoding) :
    bem.firstMoveSlotIndex + (slotWidths bem).sum ≤
      (bem.childFields.map fun f => f.2.width).sum := by
  rw [sum_childFields, BinaryEncoding.firstMoveSlotIndex]
  cases bem.immediateControlField with
  | none =>
    dsimp only
    omega
  | some field =>
    simp only [Option.toList_some, widths, List.map_cons, List.map_nil, List.sum_cons,
      List.sum_nil]
    omega

/-- The compressor takes all bits of the instruction if there are no immediate slots, and no
destination register fields without an immediate control field. -/
theorem firstMoveSlotIndex_eq_iff (bem : BinaryEncoding) :
    bem.firstMoveSlotIndex + (slotWidths bem).sum =
        (bem.childFields.map fun f => f.2.width).sum ↔
      widths bem.immediateSlots = 0 ∧
        (bem.immediateControlField.isSome = true ∨ widths bem.longImmDstRegisterFields = 0) := by
  rw [sum_childFields, BinaryEncoding.firstMoveSlotIndex]
  cases bem.immediateControlField with
  | none =>
    simp only [Option.toList_none, widths, List.map_nil, List.sum_nil, Option.isSome_none,
      Bool.false_eq_true, false_or]
    omega
  | some field =>
    simp only [Option.toList_some, widths, List.map_cons, List.map_nil, List.sum_cons,
      List.sum_nil, Option.isSome_some, true_or, and_true]
    omega

/-- All move slots of the instruction have bits. -/
theorem instructionSlots_eq (hbem : bem.Consistent) (hpos : ∀ f ∈ bem.moveSlots, 0 < f.width)
    (hbits : bemInstructionBits bem encode instruction = .ok b) :
    instructionSlots bem b =
      .ok ((List.range bem.moveSlots.length).map fun j => slot bem j b) := by
  have hlength := hbem.length_bits hbits
  have hwidth := hbem.width_lt
  rw [← slices_eq]
  refine moveSlotBits_eq ?_ ?_ (by omega)
  · intro w hw
    obtain ⟨f, hf, rfl⟩ := List.mem_map.1 hw
    exact hpos f hf
  · rw [hlength]
    exact firstMoveSlotIndex_le bem

theorem zipWith_addToDictionary (keys : Nat → List (List Bool)) (slots : Nat → List Bool) (n : Nat) :
    List.zipWith addToDictionary ((List.range n).map fun j => codes (keys j))
        ((List.range n).map slots) =
      (List.range n).map fun j => codes ((keys j).insert (slots j)) := by
  rw [List.zipWith_map, List.zipWith_self]
  exact List.map_congr_left fun j _ => addToDictionary_codes (keys j) (slots j)

theorem foldlM_addSlots (hbem : bem.Consistent) (hpos : ∀ f ∈ bem.moveSlots, 0 < f.width)
    (hbits : ∀ i ∈ program, bemInstructionBits bem encode i = .ok (bits i))
    (keys : Nat → List (List Bool)) :
    program.foldlM (addSlots bem encode)
        ((List.range bem.moveSlots.length).map fun j => codes (keys j)) =
      .ok ((List.range bem.moveSlots.length).map fun j => codes
        ((program.map fun i => slot bem j (bits i)).foldl (fun keys k => keys.insert k)
          (keys j))) := by
  induction program generalizing keys with
  | nil => rfl
  | cons i program ih =>
    have hi := hbits i List.mem_cons_self
    have hadd : addSlots bem encode ((List.range bem.moveSlots.length).map fun j => codes (keys j))
        i = .ok ((List.range bem.moveSlots.length).map fun j =>
          codes ((keys j).insert (slot bem j (bits i)))) := by
      rw [← zipWith_addToDictionary, addSlots, hi]
      change (instructionSlots bem (bits i) >>= _) = _
      rw [instructionSlots_eq hbem hpos hi]
      rfl
    rw [List.foldlM_cons, hadd]
    exact ih (fun j hj => hbits j (List.mem_cons_of_mem i hj)) _

/-- The dictionary of a move slot. -/
def slotKeys (bem : BinaryEncoding) (words : List (List Bool)) (j : Nat) : List (List Bool) :=
  distinct (words.map (slot bem j))

theorem createDictionary_eq (hbem : bem.Consistent) (hpos : ∀ f ∈ bem.moveSlots, 0 < f.width)
    (hprograms : ∀ p ∈ programs, p ≠ [])
    (hbits : ∀ i ∈ programs.flatten, bemInstructionBits bem encode i = .ok (bits i)) :
    createDictionary bem encode programs = .ok ((List.range bem.moveSlots.length).map fun j =>
      codes (slotKeys bem (programs.flatten.map bits) j)) := by
  have hfold : ∀ keys : Nat → List (List Bool), programs.foldlM (updateDictionary bem encode)
      ((List.range bem.moveSlots.length).map fun j => codes (keys j)) =
      .ok ((List.range bem.moveSlots.length).map fun j => codes
        ((programs.flatten.map fun i => slot bem j (bits i)).foldl (fun keys k => keys.insert k)
          (keys j))) := by
    induction programs with
    | nil => exact fun keys => rfl
    | cons p programs ih =>
      intro keys
      rw [List.flatten_cons] at hbits
      rw [List.foldlM_cons, updateDictionary,
        if_neg (isEmpty_of_ne (hprograms p List.mem_cons_self)),
        foldlM_addSlots hbem hpos fun i hi => hbits i (List.mem_append_left _ hi)]
      simp only [List.flatten_cons, List.map_append, List.foldl_append]
      exact ih (fun q hq => hprograms q (List.mem_cons_of_mem p hq))
        (fun i hi => hbits i (List.mem_append_right _ hi)) _
  have hempty : (bem.moveSlots.map fun _ => ([] : Dictionary)) =
      (List.range bem.moveSlots.length).map fun j => codes ((fun _ => []) j) := by
    rw [List.map_const', List.map_const', List.length_range]
    rfl
  rw [createDictionary, hempty, hfold]
  simp only [slotKeys, distinct, List.map_map]
  rfl

/-- The words of a program, with the instruction words that the decompressor gives back. -/
def Undone (bem : BinaryEncoding) (encode : Encoder ι) (programs : List (List ι))
    (program : List ι) : Prop :=
  ∃ dictionary words, compress bem encode programs program = .ok (dictionary, words) ∧
    List.Forall₂ (fun instruction word => word.length ≤ imemWidth bem dictionary ∧
      ∃ bits, bemInstructionBits bem encode instruction = .ok bits ∧
        decompress bem dictionary
          (word ++ List.replicate (imemWidth bem dictionary - word.length) false) = .ok bits)
      program words

/-- The dictionaries of words that have an instruction among them. -/
theorem addInstruction_eq {words : List (List Bool)} (hbem : bem.Consistent)
    (hpos : ∀ f ∈ bem.moveSlots, 0 < f.width)
    (hsize : ∀ j < bem.moveSlots.length, (slotKeys bem words j).length < 2 ^ 32)
    (hbits : bemInstructionBits bem encode instruction = .ok b) (hmem : b ∈ words) :
    ∃ word, addInstruction bem encode ((List.range bem.moveSlots.length).map fun j =>
        codes (slotKeys bem words j)) instruction = .ok word ∧
      word.length = imemWidth bem ((List.range bem.moveSlots.length).map fun j =>
        codes (slotKeys bem words j)) ∧
      ∀ rest, decompress bem ((List.range bem.moveSlots.length).map fun j =>
          codes (slotKeys bem words j)) (word ++ rest) =
        .ok (b.take (bem.firstMoveSlotIndex + (slotWidths bem).sum)) := by
  have hlength := hbem.length_bits hbits
  have hfirst := firstMoveSlotIndex_le bem
  obtain ⟨added, hadd, hadded, hlines⟩ := addCodes_eq
    ((List.range bem.moveSlots.length).map fun j => (slotKeys bem words j, slot bem j b))
    (fun e he => by
      obtain ⟨j, hj, rfl⟩ := List.mem_map.1 he
      exact ⟨nodup_distinct _, hsize j (List.mem_range.1 hj),
        mem_distinct.2 (List.mem_map_of_mem hmem)⟩)
    (b.take bem.firstMoveSlotIndex)
  simp only [List.map_map, Function.comp_def] at hadd hadded hlines
  have htake : (b.take bem.firstMoveSlotIndex).length = bem.firstMoveSlotIndex :=
    List.length_take_of_le (by omega)
  refine ⟨b.take bem.firstMoveSlotIndex ++ added, ?_, ?_, fun rest => ?_⟩
  · rw [addInstruction, hbits]
    change (if _ then _ else _) = _
    rw [if_neg (by omega), instructionSlots_eq hbem hpos hbits]
    change addCodes _ (List.zip _ _) = _
    rw [List.zip_map', hadd]
  · rw [List.length_append, htake, hadded, imemWidth, List.map_map, Nat.add_comm]
    rfl
  · have hslots : ((List.range bem.moveSlots.length).map fun j => slot bem j b).flatten =
        (b.drop bem.firstMoveSlotIndex).take (slotWidths bem).sum := by
      rw [← slices_eq, flatten_slices]
    have hlines := hlines rest
    rw [htake, ← List.append_assoc] at hlines
    rw [decompress, hlines, List.append_assoc, List.take_left' htake]
    change Except.ok (_ ++ List.flatten _) = _
    rw [hslots, ← List.take_add]

/-- Exactly when the decompressor undoes the compression. -/
theorem undone_iff (hbem : bem.Consistent) (hprograms : ∀ p ∈ programs, p ≠ [])
    (hprogram : program ∈ programs)
    (hbits : ∀ i ∈ programs.flatten, bemInstructionBits bem encode i = .ok (bits i)) :
    Undone bem encode programs program ↔ (∀ f ∈ bem.moveSlots, 0 < f.width) ∧
      widths bem.immediateSlots = 0 ∧
      (bem.immediateControlField.isSome = true ∨ widths bem.longImmDstRegisterFields = 0) ∧
      ∀ j < bem.moveSlots.length,
        (programs.flatten.map fun i => slot bem j (bits i)).dedup.length < 2 ^ 32 := by
  have hmem : ∀ i ∈ program, i ∈ programs.flatten := fun i hi => List.mem_flatten_of_mem hprogram hi
  have hwidth := hbem.width_lt
  have hfirst := firstMoveSlotIndex_le bem
  have hsize : ∀ j, (programs.flatten.map fun i => slot bem j (bits i)).dedup.length =
      (slotKeys bem (programs.flatten.map bits) j).length := by
    intro j
    rw [slotKeys, length_distinct, List.map_map]
    rfl
  simp only [hsize]
  constructor
  · rintro ⟨dictionary, words, hcompress, hwords⟩
    obtain ⟨d, hd, hcompress⟩ := Except.bind_ok hcompress
    obtain ⟨words', hadd, hcompress⟩ := Except.bind_ok hcompress
    cases hcompress
    obtain ⟨i, program, rfl⟩ := List.exists_cons_of_ne_nil (hprograms program hprogram)
    have hi := hbits i (hmem i List.mem_cons_self)
    have hlength := hbem.length_bits hi
    have hpos : ∀ f ∈ bem.moveSlots, 0 < f.width := by
      intro f hf
      apply Nat.pos_of_ne_zero
      intro hzero
      obtain ⟨t, t', ht⟩ := foldlM_ok_mem hd hprogram
      rw [updateDictionary, if_neg (isEmpty_of_ne (List.cons_ne_nil _ _))] at ht
      obtain ⟨u, u', hu⟩ := foldlM_ok_mem ht List.mem_cons_self
      obtain ⟨b, hb, hu⟩ := Except.bind_ok hu
      cases hi.symm.trans hb
      obtain ⟨slots, hslots, -⟩ := Except.bind_ok hu
      exact moveSlotBits_zero (List.mem_map.2 ⟨f, hf, hzero⟩) (by omega) (by omega) hslots
    cases (createDictionary_eq hbem hpos hprograms hbits).symm.trans hd
    obtain ⟨word, rest, hword, -, rfl⟩ := List.forall₂_cons_left_iff.1 (Except.mapM_ok hadd)
    have hkeys : ∀ j < bem.moveSlots.length,
        (slotKeys bem (programs.flatten.map bits) j).length < 2 ^ 32 := by
      intro j hj
      rw [addInstruction, hi] at hword
      change (if _ then _ else _) = _ at hword
      rw [if_neg (by omega), instructionSlots_eq hbem hpos hi] at hword
      have hentry := addCodes_ok hword (codes (slotKeys bem (programs.flatten.map bits) j),
        slot bem j (bits i)) (by
          rw [List.zip_map']
          exact List.mem_map_of_mem (List.mem_range.2 hj))
      rwa [length_codes] at hentry
    obtain ⟨word', hword', hlength', hdecompress⟩ := addInstruction_eq hbem hpos hkeys hi
      (List.mem_map_of_mem (hmem i List.mem_cons_self))
    cases hword.symm.trans hword'
    obtain ⟨⟨-, b, hb, hundone⟩, -⟩ := List.forall₂_cons.1 hwords
    cases hi.symm.trans hb
    have heq := (hdecompress _).symm.trans hundone
    injection heq with heq
    have htake := congrArg List.length heq
    rw [List.length_take] at htake
    obtain ⟨himm, hcontrol⟩ := (firstMoveSlotIndex_eq_iff bem).1 (by omega)
    exact ⟨hpos, himm, hcontrol, hkeys⟩
  · rintro ⟨hpos, himm, hcontrol, hkeys⟩
    have hall := (firstMoveSlotIndex_eq_iff bem).2 ⟨himm, hcontrol⟩
    have hword := fun i (hi : i ∈ program) => addInstruction_eq hbem hpos hkeys
      (hbits i (hmem i hi)) (List.mem_map_of_mem (hmem i hi))
    choose! word hadd hlength hdecompress using hword
    refine ⟨(List.range bem.moveSlots.length).map fun j =>
      codes (slotKeys bem (programs.flatten.map bits) j), program.map word, ?_, ?_⟩
    · rw [compress, createDictionary_eq hbem hpos hprograms hbits]
      dsimp only [bind, Except.bind]
      rw [Except.mapM_eq hadd]
      rfl
    · rw [List.forall₂_map_right_iff, List.forall₂_same]
      intro i hi
      have hi' := hbits i (hmem i hi)
      refine ⟨Nat.le_of_eq (hlength i hi), bits i, hi', ?_⟩
      rw [hdecompress i hi, hall, ← hbem.length_bits hi', List.take_length]

end Slots

end MoveSlotDictionary

/-- Both compressors are undone by their decompressors, and the words fit into the memory, exactly
if every move slot has bits, all bits of the instruction are counted as move slots or as bits
before them, and the codes have at most 32 bits. -/
theorem compression_undone_iff {bem : BinaryEncoding} {encode : Encoder ι}
    {programs : List (List ι)} {program : List ι} {bits : ι → List Bool} (hbem : bem.Consistent)
    (hprograms : ∀ p ∈ programs, p ≠ []) (hprogram : program ∈ programs)
    (hbits : ∀ i ∈ programs.flatten, bemInstructionBits bem encode i = .ok (bits i)) :
    (InstructionDictionary.Undone bem encode programs program ∧
      MoveSlotDictionary.Undone bem encode programs program) ↔
      (∀ f ∈ bem.moveSlots, 0 < f.width) ∧ widths bem.immediateSlots = 0 ∧
      (bem.immediateControlField.isSome = true ∨ widths bem.longImmDstRegisterFields = 0) ∧
      (programs.flatten.map bits).dedup.length ≤ 2 ^ 32 ∧
      ∀ j < bem.moveSlots.length,
        (programs.flatten.map fun i =>
          MoveSlotDictionary.slot bem j (bits i)).dedup.length < 2 ^ 32 := by
  rw [InstructionDictionary.undone_iff hprograms hprogram hbits,
    MoveSlotDictionary.undone_iff hbem hprograms hprogram hbits]
  constructor
  · rintro ⟨hwords, hpos, himm, hcontrol, hslots⟩
    exact ⟨hpos, himm, hcontrol, hwords, hslots⟩
  · rintro ⟨hpos, himm, hcontrol, hwords, hslots⟩
    exact ⟨hwords, hpos, himm, hcontrol, hslots⟩

/-- Instructions are numbers, and each field has the lowest bits of the number. -/
def lowBits : Encoder Nat := fun instruction field => .ok (toBits field.2.width instruction)

/-- Two move slots after an immediate control field and a destination register field. -/
def twoSlots : BinaryEncoding := ⟨some ⟨3, 1⟩, [⟨0, 3⟩, ⟨1, 4⟩], [], [⟨2, 2⟩]⟩

/-- The bits that `lowBits` gives for an encoding map. -/
def bitsIn (bem : BinaryEncoding) (instruction : Nat) : List Bool :=
  (bemInstructionBits bem lowBits instruction).toOption.getD []

theorem compression_undone_twoSlots :
    InstructionDictionary.Undone twoSlots lowBits [[1, 2], [2, 5]] [2, 5] ∧
      MoveSlotDictionary.Undone twoSlots lowBits [[1, 2], [2, 5]] [2, 5] := by
  have hbits : ∀ i ∈ [[1, 2], [2, 5]].flatten,
      bemInstructionBits twoSlots lowBits i = .ok (bitsIn twoSlots i) := by decide +kernel
  have hbem : twoSlots.Consistent := ⟨by decide, by decide⟩
  refine (compression_undone_iff hbem (by decide) (by decide) hbits).2 ?_
  exact ⟨by decide, rfl, .inl rfl, by decide +kernel, by decide +kernel⟩

/-- A move slot and an immediate slot. -/
def immediateSlot : BinaryEncoding := ⟨none, [⟨0, 3⟩], [⟨1, 4⟩], []⟩

/-- The bits of the immediate slot are lost. -/
theorem compression_not_undone_immediateSlot :
    ¬ MoveSlotDictionary.Undone immediateSlot lowBits [[1, 2]] [1, 2] := by
  have hbits : ∀ i ∈ [[1, 2]].flatten,
      bemInstructionBits immediateSlot lowBits i = .ok (bitsIn immediateSlot i) := by
    decide +kernel
  have hbem : immediateSlot.Consistent := ⟨by decide, by decide⟩
  rw [MoveSlotDictionary.undone_iff hbem (by decide) (by decide) hbits]
  rintro ⟨-, himm, -⟩
  revert himm
  decide

end Compression

end OpenAsip
