import OpenAsip.RiscvFormats

namespace OpenAsip
set_option autoImplicit true

namespace BEMGenerator
open RISCVFields

/-- The encoding of an operation that takes no number. -/
def fixedEncoding (name op : String) : Option Nat :=
  if name = RISCV_R1_TYPE_NAME then
    if lower op = "stdout" then some OPC_CUSTOM_0 else none
  else if name = RISCV_I_TYPE_NAME then RISCVITypeOperations.lookup op
  else if name = RISCV_S_TYPE_NAME then RISCVSTypeOperations.lookup op
  else if name = RISCV_B_TYPE_NAME then RISCVBTypeOperations.lookup op
  else if name = RISCV_U_TYPE_NAME then RISCVUTypeOperations.lookup op
  else if name = RISCV_J_TYPE_NAME then RISCVJTypeOperations.lookup op
  else RISCVRTypeOperations.lookup op

def takesNumber (name op : String) : Bool := (fixedEncoding name op).isNone

/-- The encoding of the operation with number `n`. -/
def numberEncoding (rocc : Bool) (name : String) (n : Nat) : Nat :=
  if name = RISCV_R3R_TYPE_NAME then OPC_CUSTOM_1 + (n <<< 7)
  else if rocc && name = RISCV_R_TYPE_NAME then (0b111 <<< 7) + OPC_CUSTOM_0 + (n <<< 10)
  else if rocc && name = RISCV_R1R_TYPE_NAME then (0b110 <<< 7) + OPC_CUSTOM_0 + (n <<< 10)
  else OPC_CUSTOM_0 + (n <<< 7)

/-- The number after that of an operation is below the limit of its format. -/
def numberLimit (name : String) : Nat :=
  if name = RISCV_R3R_TYPE_NAME then 32
  else if name = RISCV_R_TYPE_NAME ∨ name = RISCV_R1R_TYPE_NAME ∨ name = RISCV_R1_TYPE_NAME then
    1024
  else 0

/-- The operations that take a number, with their numbers from `n` on. -/
def numbers (name : String) (operations : List String) (n : Nat) : List (String × Nat) :=
  (operations.filter (takesNumber name)).zipIdx n

/-- What one operation gives: its own encoding, or that of the next number. -/
inductive Encodes (rocc : Bool) (name op : String) (n : Nat) : Nat × Nat → Prop where
  | fixed (h : fixedEncoding name op = some encoding) : Encodes rocc name op n (encoding, n)
  | number (h : fixedEncoding name op = none) (hl : n + 1 < numberLimit name) :
      Encodes rocc name op n (numberEncoding rocc name n, n + 1)

theorem numberedEncoding_encodes {fixed : String → Option Nat} {pack : Nat → Nat}
    (h : numberedEncoding fixed pack limit op n = .ok r)
    (hf : fixed op = fixedEncoding name op) (hp : pack n = numberEncoding rocc name n)
    (hl : limit = numberLimit name) : Encodes rocc name op n r := by
  rw [numberedEncoding, hf, hp, hl] at h
  cases he : fixedEncoding name op with
  | some encoding =>
    rw [he] at h
    cases h
    exact .fixed he
  | none =>
    rw [he] at h
    dsimp only at h
    split at h
    case isTrue hl =>
      cases h
      exact .number he hl
    case isFalse => cases h

theorem tableEncoding_encodes {table : StdMap String Nat}
    (h : tableEncoding table op n = .ok r) (hf : table.lookup op = fixedEncoding name op) :
    Encodes rocc name op n r := by
  rw [tableEncoding, hf] at h
  cases he : fixedEncoding name op with
  | some encoding =>
    rw [he] at h
    cases h
    exact .fixed he
  | none =>
    rw [he] at h
    cases h

theorem r1Encoding_encodes (h : r1Encoding op n = .ok r) :
    Encodes rocc RISCV_R1_TYPE_NAME op n r := by
  rw [r1Encoding] at h
  by_cases hs : lower op = "stdout"
  · rw [if_pos hs] at h
    dsimp only at h
    split at h
    case isTrue =>
      cases h
      exact .fixed (if_pos hs)
    case isFalse => cases h
  · rw [if_neg hs] at h
    dsimp only at h
    split at h
    case isTrue hl =>
      cases h
      have hf : fixedEncoding RISCV_R1_TYPE_NAME op = none := if_neg hs
      have hn : OPC_CUSTOM_0 + n <<< 7 = numberEncoding rocc RISCV_R1_TYPE_NAME n := by
        cases rocc <;> rfl
      rw [hn]
      exact .number hf hl
    case isFalse => cases h

theorem some_of_ite {p : Prop} [Decidable p] (h : (if p then some a else b) = some c) :
    p ∧ a = c ∨ b = some c := by
  split at h
  case isTrue hp => exact .inl ⟨hp, Option.some.inj h⟩
  case isFalse => exact .inr h

/-- The operations of a format are encoded one by one, each in the way of the format. -/
theorem riscvFormat_encodes (h : riscvFormat rocc name = some (encodings, encode))
    (he : encode op n = .ok r) : Encodes rocc name op n r := by
  rw [riscvFormat] at h
  obtain ⟨rfl, h⟩ | h := some_of_ite h
  · cases h
    refine numberedEncoding_encodes he rfl ?_ rfl
    cases rocc <;> rfl
  obtain ⟨rfl, h⟩ | h := some_of_ite h
  · cases h
    exact tableEncoding_encodes he rfl
  obtain ⟨rfl, h⟩ | h := some_of_ite h
  · cases h
    exact tableEncoding_encodes he rfl
  obtain ⟨rfl, h⟩ | h := some_of_ite h
  · cases h
    exact tableEncoding_encodes he rfl
  obtain ⟨rfl, h⟩ | h := some_of_ite h
  · cases h
    exact tableEncoding_encodes he rfl
  obtain ⟨rfl, h⟩ | h := some_of_ite h
  · cases h
    exact tableEncoding_encodes he rfl
  obtain ⟨rfl, h⟩ | h := some_of_ite h
  · cases h
    refine numberedEncoding_encodes he rfl ?_ rfl
    cases rocc <;> rfl
  obtain ⟨rfl, h⟩ | h := some_of_ite h
  · cases h
    exact r1Encoding_encodes he
  obtain ⟨rfl, h⟩ | h := some_of_ite h
  · cases h
    exact numberedEncoding_encodes he rfl rfl rfl
  · cases h

theorem InstructionFormat.addOperation_ok {f : InstructionFormat}
    (h : f.addOperation op encoding = .ok f') :
    f.operations.lookup op = none ∧
      f' = { f with operations := (op, encoding) :: f.operations } := by
  rw [InstructionFormat.addOperation] at h
  cases hl : f.operations.lookup op with
  | some e =>
    rw [hl] at h
    cases h
  | none =>
    rw [hl] at h
    refine ⟨rfl, ?_⟩
    simp only [Option.isSome_none, Bool.false_eq_true, if_false, StdMap.insert, hl] at h
    exact (Except.ok.inj h).symm

theorem numbers_cons_fixed (h : fixedEncoding name op = some encoding) :
    numbers name (op :: operations) n = numbers name operations n := by
  rw [numbers, List.filter_cons_of_neg]
  · rfl
  · simp [takesNumber, h]

theorem numbers_cons_number (h : fixedEncoding name op = none) :
    numbers name (op :: operations) n = (op, n) :: numbers name operations (n + 1) := by
  rw [numbers, List.filter_cons_of_pos]
  · rfl
  · simp [takesNumber, h]

/-- The number of operations of a format that take a number. -/
def customCount (name : String) (operations : List String) : Nat :=
  (operations.filter (takesNumber name)).length

/-- The pairs of a format are those it held before, those with an encoding of their own and those
with a number. -/
def Holds (rocc : Bool) (name : String) (operations : List String) (n : Nat)
    (p : String × Nat) : Prop :=
  (p.1 ∈ operations ∧ fixedEncoding name p.1 = some p.2) ∨
    ∃ k, (p.1, k) ∈ numbers name operations n ∧ p.2 = numberEncoding rocc name k

theorem holds_cons (he : Encodes rocc name op n r) :
    Holds rocc name (op :: operations) n p ↔ p = (op, r.1) ∨ Holds rocc name operations r.2 p := by
  obtain ⟨op', encoding⟩ := p
  cases he with
  | fixed h =>
    simp only [Holds, numbers_cons_fixed h, List.mem_cons, Prod.mk.injEq]
    constructor
    · rintro (⟨rfl | hop, hf⟩ | hk)
      · rw [h] at hf
        exact .inl ⟨rfl, (Option.some.inj hf).symm⟩
      · exact .inr (.inl ⟨hop, hf⟩)
      · exact .inr (.inr hk)
    · rintro (⟨rfl, rfl⟩ | ⟨hop, hf⟩ | hk)
      · exact .inl ⟨.inl rfl, h⟩
      · exact .inl ⟨.inr hop, hf⟩
      · exact .inr hk
  | number h hl =>
    simp only [Holds, numbers_cons_number h, List.mem_cons, Prod.mk.injEq]
    constructor
    · rintro (⟨rfl | hop, hf⟩ | ⟨k, ⟨rfl, rfl⟩ | hk, hp⟩)
      · rw [h] at hf
        cases hf
      · exact .inr (.inl ⟨hop, hf⟩)
      · exact .inl ⟨rfl, hp⟩
      · exact .inr (.inr ⟨k, hk, hp⟩)
    · rintro (⟨rfl, rfl⟩ | ⟨hop, hf⟩ | ⟨k, hk, hp⟩)
      · exact .inr ⟨n, .inl ⟨rfl, rfl⟩, rfl⟩
      · exact .inl ⟨.inr hop, hf⟩
      · exact .inr ⟨k, .inr hk, hp⟩

theorem customCount_cons (he : Encodes rocc name op n r) :
    n + customCount name (op :: operations) = r.2 + customCount name operations := by
  cases he with
  | fixed h => simp [customCount, takesNumber, h]
  | number h hl =>
    simp only [customCount, takesNumber, h, Option.isNone_none, List.filter_cons_of_pos,
      List.length_cons]
    omega

theorem numbers_limit_cons (he : Encodes rocc name op n r)
    (h : ∀ p ∈ numbers name operations r.2, p.2 + 1 < numberLimit name) :
    ∀ p ∈ numbers name (op :: operations) n, p.2 + 1 < numberLimit name := by
  intro p hp
  cases he with
  | fixed hf =>
    rw [numbers_cons_fixed hf] at hp
    exact h p hp
  | number hf hl =>
    rw [numbers_cons_number hf] at hp
    cases hp with
    | head => exact hl
    | tail _ hp => exact h p hp

/-- The loop over the operations of a format that holds some already. -/
theorem encodeOperations_ok
    (he : ∀ op n r, encode op n = .ok r → Encodes rocc name op n r)
    (h : encodeOperations encode operations ⟨name, encodings, m⟩ n = .ok (F, n')) :
    F.name = name ∧ n' = n + customCount name operations ∧
      (∀ op ∈ operations, m.lookup op = none) ∧ operations.Nodup ∧
      (∀ p, p ∈ F.operations ↔ p ∈ m ∨ Holds rocc name operations n p) ∧
      ∀ p ∈ numbers name operations n, p.2 + 1 < numberLimit name := by
  induction operations generalizing m n with
  | nil =>
    cases h
    simp [numbers, customCount, Holds]
  | cons op operations ih =>
    rw [encodeOperations, List.foldlM_cons] at h
    obtain ⟨s, hs, h⟩ := Except.bind_ok h
    obtain ⟨r, hr, hs⟩ := Except.bind_ok hs
    obtain ⟨g, hg, hs⟩ := Except.bind_ok hs
    cases hs
    obtain ⟨hnone, rfl⟩ := InstructionFormat.addOperation_ok hg
    have hencodes := he op n r hr
    obtain ⟨hname, hn', hfresh, hnodup, hmem, hlimit⟩ := ih h
    have hop : ∀ op' ∈ operations, m.lookup op' = none ∧ op' ≠ op := by
      intro op' hop'
      have hl := hfresh op' hop'
      rw [List.lookup_cons] at hl
      cases hb : op' == op with
      | true =>
        rw [hb] at hl
        cases hl
      | false =>
        rw [hb] at hl
        exact ⟨hl, ne_of_beq_false hb⟩
    have hnotin : op ∉ operations := fun hin => (hop op hin).2 rfl
    refine ⟨hname, ?_, ?_, List.nodup_cons.2 ⟨hnotin, hnodup⟩, ?_,
      numbers_limit_cons hencodes hlimit⟩
    · rw [hn', customCount_cons hencodes]
    · intro op' hop'
      cases hop' with
      | head => exact hnone
      | tail _ hop' => exact (hop op' hop').1
    · intro p
      rw [hmem, holds_cons hencodes, List.mem_cons, or_assoc, or_left_comm]

end BEMGenerator

end OpenAsip
