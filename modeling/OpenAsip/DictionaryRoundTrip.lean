import OpenAsip.Dictionaries

namespace OpenAsip
set_option autoImplicit true

namespace Compression
open BitVector MathTools

/-- Each position has one field, and the width of the instruction word is an `int`. -/
structure BinaryEncoding.Consistent (bem : BinaryEncoding) : Prop where
  positions : (bem.childFields.map fun f => f.2.relativePosition).Perm
    (List.range bem.childFieldCount)
  width_lt : (bem.childFields.map fun f => f.2.width).sum < 2 ^ 31

section Bits
variable {bem : BinaryEncoding} {encode : Encoder ι}

/-- Looking for the fields by their positions gives each of them once. -/
theorem BinaryEncoding.Consistent.childFields_perm (h : bem.Consistent) :
    ((List.range bem.childFieldCount).map bem.childField).Perm (bem.childFields.map some) := by
  have hnodup : (bem.childFields.map fun f => f.2.relativePosition).Nodup :=
    h.positions.nodup_iff.2 List.nodup_range
  have hfind : (bem.childFields.map fun f => f.2.relativePosition).map bem.childField =
      bem.childFields.map some := by
    rw [List.map_map]
    exact List.map_congr_left fun f hf => find?_of_mem hnodup hf
  rw [← hfind]
  exact (h.positions.map bem.childField).symm

/-- The width of the field at a position. -/
def BinaryEncoding.fieldWidth (bem : BinaryEncoding) (position : Nat) : Nat :=
  match bem.childField position with
  | some field => field.2.width
  | none => 0

theorem foldlM_addBitsForField {positions : List Nat}
    (h : positions.foldlM (addBitsForField bem encode instruction) start = .ok bits) :
    bits.length = start.length + (positions.map bem.fieldWidth).sum := by
  induction positions generalizing start with
  | nil =>
    cases h
    rfl
  | cons position positions ih =>
    rw [List.foldlM_cons] at h
    obtain ⟨next, hnext, h⟩ := Except.bind_ok h
    rw [ih h, List.map_cons, List.sum_cons, BinaryEncoding.fieldWidth]
    rw [addBitsForField] at hnext
    cases hfield : bem.childField position with
    | none =>
      rw [hfield] at hnext
      cases hnext
    | some field =>
      rw [hfield] at hnext
      obtain ⟨fieldBits, -, hnext⟩ := Except.bind_ok hnext
      split at hnext
      · rename_i hlength
        cases hnext
        rw [List.length_append, hlength, Nat.add_assoc]
      · cases hnext

/-- The bits of an instruction are those of all fields. -/
theorem BinaryEncoding.Consistent.length_bits (h : bem.Consistent)
    (hbits : bemInstructionBits bem encode instruction = .ok bits) :
    bits.length = (bem.childFields.map fun f => f.2.width).sum := by
  have hlength := foldlM_addBitsForField hbits
  have hwidth : bem.fieldWidth = fun position =>
      ((bem.childField position).map fun f => f.2.width).getD 0 := by
    funext position
    rw [BinaryEncoding.fieldWidth]
    cases bem.childField position with
    | none => rfl
    | some field => rfl
  have hperm := (h.childFields_perm.map fun f => (f.map fun f => f.2.width).getD 0).sum_nat
  rw [List.map_map, List.map_map] at hperm
  rw [hlength, List.length_nil, Nat.zero_add, List.map_reverse, List.sum_reverse, hwidth]
  exact hperm

end Bits

section InstructionWords
variable {bem : BinaryEncoding} {encode : Encoder ι} {programs : List (List ι)} {program : List ι}
  {bits : ι → List Bool}

/-- The words of a program, with the instruction words that the decompressor gives back. -/
def InstructionDictionary.Undone (bem : BinaryEncoding) (encode : Encoder ι)
    (programs : List (List ι)) (program : List ι) : Prop :=
  ∃ dictionary words, compress bem encode programs program = .ok (dictionary, words) ∧
    List.Forall₂ (fun instruction word => word.length ≤ imemWidth dictionary ∧
      ∃ bits, bemInstructionBits bem encode instruction = .ok bits ∧
        decompress dictionary
          (word ++ List.replicate (imemWidth dictionary - word.length) false) = .ok bits)
      program words

theorem isEmpty_of_ne {l : List α} (h : l ≠ []) : ¬ l.isEmpty = true := fun hl =>
  h (List.isEmpty_iff.1 hl)

theorem InstructionDictionary.foldlM_addWord
    (hbits : ∀ i ∈ program, bemInstructionBits bem encode i = .ok (bits i))
    (keys : List (List Bool)) : program.foldlM (addWord bem encode) (codes keys) =
      .ok (codes ((program.map bits).foldl (fun keys k => keys.insert k) keys)) := by
  induction program generalizing keys with
  | nil => rfl
  | cons i program ih =>
    rw [List.foldlM_cons, addWord, hbits i List.mem_cons_self]
    change program.foldlM (addWord bem encode) (addToDictionary (codes keys) (bits i)) = _
    rw [addToDictionary_codes]
    exact ih (fun j hj => hbits j (List.mem_cons_of_mem i hj)) _

theorem InstructionDictionary.createDictionary_eq (hprograms : ∀ p ∈ programs, p ≠ [])
    (hbits : ∀ i ∈ programs.flatten, bemInstructionBits bem encode i = .ok (bits i)) :
    createDictionary bem encode programs =
      .ok (codes (distinct (programs.flatten.map bits))) := by
  have hfold : ∀ keys, programs.foldlM (updateDictionary bem encode) (codes keys) =
      .ok (codes ((programs.flatten.map bits).foldl (fun keys k => keys.insert k) keys)) := by
    induction programs with
    | nil => exact fun keys => rfl
    | cons p programs ih =>
      intro keys
      rw [List.flatten_cons] at hbits
      rw [List.foldlM_cons, updateDictionary,
        if_neg (isEmpty_of_ne (hprograms p List.mem_cons_self)),
        foldlM_addWord fun i hi => hbits i (List.mem_append_left _ hi), List.flatten_cons,
        List.map_append, List.foldl_append]
      exact ih (fun q hq => hprograms q (List.mem_cons_of_mem p hq))
        (fun i hi => hbits i (List.mem_append_right _ hi)) _
  exact hfold []

/-- The word of an instruction, if the codes have at most 32 bits. -/
theorem InstructionDictionary.addInstruction_eq (hkeys : keys.Nodup) (hlength : keys.length ≤ 2 ^ 32)
    (hbits : bemInstructionBits bem encode i = .ok b) (hmem : b ∈ keys) :
    ∃ code, addInstruction bem encode (codes keys) i =
        .ok (toBits (requiredBits (keys.length - 1)) code) ∧
      code < 2 ^ requiredBits (keys.length - 1) ∧ keyForValue (codes keys) code = .ok b := by
  obtain ⟨code, hlt, hvalue, hkey⟩ := lookup_codes hkeys hlength hmem
  have hwidth : requiredBits (keys.length - 1) ≤ 32 := (requiredBits_le (by decide)).2 (by omega)
  have hcode : code < 2 ^ requiredBits (keys.length - 1) :=
    Nat.lt_of_le_of_lt (Nat.le_sub_one_of_lt hlt) (lt_two_pow_requiredBits _)
  refine ⟨code, ?_, hcode, hkey⟩
  rw [addInstruction, hbits]
  change (valueForKey (codes keys) b >>= fun code =>
    pushBack [] code (requiredBits ((codes keys).length - 1))) = _
  rw [hvalue, length_codes]
  exact pushBack_eq (by omega) hwidth

theorem InstructionDictionary.undone_iff (hprograms : ∀ p ∈ programs, p ≠ [])
    (hprogram : program ∈ programs)
    (hbits : ∀ i ∈ programs.flatten, bemInstructionBits bem encode i = .ok (bits i)) :
    Undone bem encode programs program ↔ (programs.flatten.map bits).dedup.length ≤ 2 ^ 32 := by
  have hdictionary := createDictionary_eq hprograms hbits
  have hmem : ∀ i ∈ program, i ∈ programs.flatten := fun i hi => List.mem_flatten_of_mem hprogram hi
  rw [← length_distinct]
  constructor
  · rintro ⟨dictionary, words, hcompress, -⟩
    by_contra hlength
    obtain ⟨d, hd, hcompress⟩ := Except.bind_ok hcompress
    cases hdictionary.symm.trans hd
    split at hcompress
    · obtain ⟨words', hwords, hcompress⟩ := Except.bind_ok hcompress
      obtain ⟨i, program, rfl⟩ := List.exists_cons_of_ne_nil (hprograms program hprogram)
      obtain ⟨word, rest, hword, -, -⟩ := List.forall₂_cons_left_iff.1 (Except.mapM_ok hwords)
      rw [addInstruction] at hword
      obtain ⟨b, -, hword⟩ := Except.bind_ok hword
      obtain ⟨code, -, hword⟩ := Except.bind_ok hword
      rw [length_codes, pushBack_undefined] at hword
      · cases hword
      · rw [← Nat.not_le, requiredBits_le (by decide)]
        omega
    · cases hcompress
  · intro hlength
    have hword : ∀ i ∈ program, ∃ code, addInstruction bem encode
        (codes (distinct (programs.flatten.map bits))) i =
          .ok (toBits (requiredBits ((distinct (programs.flatten.map bits)).length - 1)) code) ∧
        code < 2 ^ requiredBits ((distinct (programs.flatten.map bits)).length - 1) ∧
        keyForValue (codes (distinct (programs.flatten.map bits))) code = .ok (bits i) :=
      fun i hi => addInstruction_eq (nodup_distinct _) hlength (hbits i (hmem i hi))
        (mem_distinct.2 (List.mem_map_of_mem (hmem i hi)))
    choose! code hadd hlt hkey using hword
    refine ⟨codes (distinct (programs.flatten.map bits)), program.map fun i =>
      toBits (requiredBits ((distinct (programs.flatten.map bits)).length - 1)) (code i), ?_, ?_⟩
    · rw [compress, hdictionary]
      change (if _ then _ else _) = _
      rw [if_pos, Except.mapM_eq hadd]
      · rfl
      · rw [imemWidth, length_codes, requiredBits_le (by decide)]
        exact Nat.lt_of_le_of_lt hlength (by decide)
    · rw [List.forall₂_map_right_iff, List.forall₂_same]
      intro i hi
      refine ⟨?_, bits i, hbits i (hmem i hi), ?_⟩
      · rw [length_toBits, imemWidth, length_codes]
        exact requiredBits_mono (Nat.sub_le _ _)
      · rw [decompress, length_codes, List.take_left' (length_toBits _ _), ofBits_toBits,
          Nat.mod_eq_of_lt (hlt i hi)]
        exact hkey i hi

end InstructionWords

end Compression

end OpenAsip
