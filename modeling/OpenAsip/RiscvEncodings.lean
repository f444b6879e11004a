import OpenAsip.RiscvNumbering

namespace OpenAsip
set_option autoImplicit true

namespace BEMGenerator
open RISCVFields RISCVTools

/-- The number at which the format of the name starts, when the first format starts at `n`. -/
def firstNumber (name : String) : Nat → List OperationTriggeredFormat → Nat
  | n, [] => n
  | n, f :: formats =>
    if f.name = name then n
    else firstNumber name (n + customCount f.name f.operations) formats

def operationsOf (name : String) : List OperationTriggeredFormat → List String
  | [] => []
  | f :: formats => if f.name = name then f.operations else operationsOf name formats

/-- `k` is one of the numbers of the format of the name. -/
def IsNumber (n : Nat) (formats : List OperationTriggeredFormat) (name : String) (k : Nat) : Prop :=
  firstNumber name n formats ≤ k ∧
    k < firstNumber name n formats + customCount name (operationsOf name formats)

theorem mem_numbers : (op, k) ∈ numbers name operations n ↔
    n ≤ k ∧ (operations.filter (takesNumber name))[k - n]? = some op :=
  List.mk_mem_zipIdx_iff_le_and_getElem?_sub

theorem numbers_op_unique (h : (op, k) ∈ numbers name operations n)
    (h' : (op', k) ∈ numbers name operations n) : op = op' := by
  have he := (mem_numbers.1 h).2.symm.trans (mem_numbers.1 h').2
  exact Option.some.inj he

theorem numbers_unique (hn : operations.Nodup) (h : (op, k) ∈ numbers name operations n)
    (h' : (op, k') ∈ numbers name operations n) : k = k' := by
  obtain ⟨hle, hget⟩ := mem_numbers.1 h
  obtain ⟨hle', hget'⟩ := mem_numbers.1 h'
  obtain ⟨hlt, -⟩ := List.getElem?_eq_some_iff.1 hget
  have := (List.getElem?_inj hlt (hn.filter (takesNumber name))).1 (hget.trans hget'.symm)
  omega

theorem IsNumber.exists_op (h : IsNumber n formats name k) :
    ∃ op, (op, k) ∈ numbers name (operationsOf name formats) (firstNumber name n formats) := by
  obtain ⟨hle, hlt⟩ := h
  have hlen : k - firstNumber name n formats <
      ((operationsOf name formats).filter (takesNumber name)).length := by
    rw [customCount] at hlt
    omega
  exact ⟨_, mem_numbers.2 ⟨hle, List.getElem?_eq_getElem hlen⟩⟩

theorem isNumber_of_mem
    (h : (op, k) ∈ numbers name (operationsOf name formats) (firstNumber name n formats)) :
    IsNumber n formats name k := by
  obtain ⟨hle, hget⟩ := mem_numbers.1 h
  obtain ⟨hlt, -⟩ := List.getElem?_eq_some_iff.1 hget
  refine ⟨hle, ?_⟩
  rw [customCount]
  omega

theorem mem_of_numbers (h : (op, k) ∈ numbers name operations n) :
    op ∈ operations ∧ fixedEncoding name op = none := by
  have hop := List.fst_mem_of_mem_zipIdx h
  rw [List.mem_filter] at hop
  exact ⟨hop.1, Option.isNone_iff_eq_none.1 hop.2⟩

theorem firstNumber_le : n ≤ firstNumber name n formats := by
  induction formats generalizing n with
  | nil => exact Nat.le_refl n
  | cons f formats ih =>
    rw [firstNumber]
    split
    case isTrue => exact Nat.le_refl n
    case isFalse => exact Nat.le_trans (Nat.le_add_right _ _) ih

/-- No number belongs to two formats. -/
theorem IsNumber.name_unique (h : IsNumber n formats name k) (h' : IsNumber n formats name' k) :
    name = name' := by
  induction formats generalizing n with
  | nil =>
    obtain ⟨op, hop⟩ := h.exists_op
    cases (mem_of_numbers hop).1
  | cons f formats ih =>
    have hle (name : String) :
        n + customCount f.name f.operations ≤
          firstNumber name (n + customCount f.name f.operations) formats := firstNumber_le
    simp only [IsNumber, firstNumber, operationsOf] at h h'
    by_cases hn : f.name = name
    · by_cases hn' : f.name = name'
      · exact hn.symm.trans hn'
      · subst hn
        rw [if_pos rfl, if_pos rfl] at h
        rw [if_neg hn', if_neg hn'] at h'
        have := hle name'
        omega
    · by_cases hn' : f.name = name'
      · subst hn'
        rw [if_neg hn, if_neg hn] at h
        rw [if_pos rfl, if_pos rfl] at h'
        have := hle name
        omega
      · rw [if_neg hn, if_neg hn] at h
        rw [if_neg hn', if_neg hn'] at h'
        exact ih h h'

/-- What the format built under a name holds. -/
structure Encoded (rocc : Bool) (n : Nat) (formats : List OperationTriggeredFormat)
    (F : InstructionFormat) : Prop where
  known : ∃ f ∈ formats, f.name = F.name
  nodup : (operationsOf F.name formats).Nodup
  mem_iff : ∀ p, p ∈ F.operations ↔
    Holds rocc F.name (operationsOf F.name formats) (firstNumber F.name n formats) p
  limit : ∀ k, IsNumber n formats F.name k → k + 1 < numberLimit F.name

theorem Encoded.tail {f : OperationTriggeredFormat} (hname : f.name ≠ F.name)
    (h : Encoded rocc (n + customCount f.name f.operations) formats F) :
    Encoded rocc n (f :: formats) F := by
  obtain ⟨g, hg, hgn⟩ := h.known
  refine ⟨⟨g, List.mem_cons_of_mem f hg, hgn⟩, ?_, ?_, ?_⟩
  · rw [operationsOf, if_neg hname]
    exact h.nodup
  · rw [operationsOf, if_neg hname, firstNumber, if_neg hname]
    exact h.mem_iff
  · intro k hk
    rw [IsNumber, operationsOf, if_neg hname, firstNumber, if_neg hname] at hk
    exact h.limit k hk

theorem addRiscvFormat_ok (formats : List OperationTriggeredFormat)
    (h : addRiscvFormat rocc (bem, n) f = .ok s) :
    (∀ F ∈ bem, F.name ≠ f.name) ∧ ∃ F, s = (bem ++ [F], n + customCount f.name f.operations) ∧
      F.name = f.name ∧ Encoded rocc n (f :: formats) F := by
  rw [addRiscvFormat] at h
  split at h
  case isTrue => cases h
  case isFalse hany =>
    have hnew : ∀ F ∈ bem, F.name ≠ f.name := by
      intro F hF hname
      exact hany (List.any_eq_true.2 ⟨F, hF, decide_eq_true hname⟩)
    refine ⟨hnew, ?_⟩
    cases hr : riscvFormat rocc f.name with
    | none =>
      rw [hr] at h
      cases h
    | some r =>
      obtain ⟨encodings, encode⟩ := r
      rw [hr] at h
      obtain ⟨⟨F, n'⟩, he, h⟩ := Except.bind_ok h
      cases h
      obtain ⟨hname, rfl, -, hnodup, hmem, hlimit⟩ :=
        encodeOperations_ok (fun op n r => riscvFormat_encodes hr) he
      refine ⟨F, rfl, hname, ⟨f, List.mem_cons_self, hname.symm⟩, ?_, ?_, ?_⟩
      · rw [operationsOf, if_pos hname.symm]
        exact hnodup
      · intro p
        rw [operationsOf, if_pos hname.symm, firstNumber, if_pos hname.symm, hname, hmem]
        exact or_iff_right (List.not_mem_nil)
      · intro k hk
        obtain ⟨op, hop⟩ := hk.exists_op
        rw [operationsOf, if_pos hname.symm, firstNumber, if_pos hname.symm, hname] at hop
        rw [hname]
        exact hlimit _ hop

/-- Every format of the machine gets one instruction format. -/
theorem addRiscvFormats_ok (h : formats.foldlM (addRiscvFormat rocc) (bem, n) = .ok s) :
    (∀ f ∈ formats, ∀ F ∈ bem, F.name ≠ f.name) ∧ ∃ built, s.1 = bem ++ built ∧
      (∀ F ∈ built, Encoded rocc n formats F) ∧
      ∀ f ∈ formats, ∃ F ∈ built, F.name = f.name := by
  induction formats generalizing bem n with
  | nil =>
    cases h
    exact ⟨nofun, [], (List.append_nil bem).symm, nofun, nofun⟩
  | cons f formats ih =>
    rw [List.foldlM_cons] at h
    obtain ⟨t, ht, h⟩ := Except.bind_ok h
    obtain ⟨hnew, F, rfl, hname, hF⟩ := addRiscvFormat_ok formats ht
    obtain ⟨hold, built, hbuilt, hencoded, hall⟩ := ih h
    refine ⟨?_, F :: built, ?_, ?_, ?_⟩
    · intro g hg G hG
      cases hg with
      | head => exact hnew G hG
      | tail _ hg => exact hold g hg G (List.mem_append_left _ hG)
    · rw [hbuilt, List.append_assoc, List.singleton_append]
    · intro G hG
      cases hG with
      | head => exact hF
      | tail _ hG =>
        refine (hencoded G hG).tail ?_
        obtain ⟨g, hg, hgn⟩ := (hencoded G hG).known
        rw [← hname, ← hgn]
        exact hold g hg F (List.mem_append_right _ List.mem_cons_self)
    · intro g hg
      cases hg with
      | head => exact ⟨F, List.mem_cons_self, hname⟩
      | tail _ hg =>
        obtain ⟨G, hG, hGn⟩ := hall g hg
        exact ⟨G, List.mem_cons_of_mem F hG, hGn⟩

theorem addTopLevelFields_ok (h : addTopLevelFields rocc formats = .ok bem) :
    (∀ F ∈ bem, Encoded rocc 10 formats F) ∧ ∀ f ∈ formats, ∃ F ∈ bem, F.name = f.name := by
  obtain ⟨s, hs, h⟩ := Except.bind_ok h
  cases h
  obtain ⟨-, built, hbuilt, hencoded, hall⟩ := addRiscvFormats_ok hs
  rw [hbuilt, List.nil_append]
  exact ⟨hencoded, hall⟩

/-- The operations that `BEMGenerator` has to encode itself, in the four formats that hold such
operations. The format of operations without a result has only those. -/
def IsCustom (name op : String) : Prop :=
  name = RISCV_R1_TYPE_NAME ∨
    (name = RISCV_R_TYPE_NAME ∨ name = RISCV_R1R_TYPE_NAME ∨ name = RISCV_R3R_TYPE_NAME) ∧
      RISCVRTypeOperations.lookup op = none

/-- The opcode, funct3 and funct7 of an encoding, with funct2 for funct7 in the R3R format. -/
def operationBits (funct2 : Nat → Nat) (name : String) (encoding : Nat) : Nat × Nat × Nat :=
  (getOpcodeInt encoding, getFunc3Int encoding,
    if name = RISCV_R3R_TYPE_NAME then funct2 encoding else getFunc7Int encoding)

/-- The encodings fit the fields of the operations, and no two custom operations share them. -/
structure Distinguishable (funct2 : Nat → Nat) (bem : List InstructionFormat) : Prop where
  distinct : ∀ F ∈ bem, ∀ G ∈ bem, ∀ p ∈ F.operations, ∀ q ∈ G.operations,
    IsCustom F.name p.1 → IsCustom G.name q.1 →
    operationBits funct2 F.name p.2 = operationBits funct2 G.name q.2 →
      F.name = G.name ∧ p.1 = q.1
  fits : ∀ F ∈ bem, F.name = RISCV_R_TYPE_NAME ∨ F.name = RISCV_R1R_TYPE_NAME ∨
    F.name = RISCV_R1_TYPE_NAME ∨ F.name = RISCV_R3R_TYPE_NAME →
      ∀ p ∈ F.operations, p.2 < 2 ^ 17

/-- The condition on the formats of the machine. With RoCC the funct7 of a number has seven bits,
and the number of an operation without a result is spread over funct3 and funct7. -/
structure NumbersApart (rocc : Bool) (formats : List OperationTriggeredFormat) : Prop where
  stdout : ∀ op ∈ operationsOf RISCV_R1_TYPE_NAME formats,
    ∀ op' ∈ operationsOf RISCV_R1_TYPE_NAME formats,
      lower op = "stdout" → lower op' = "stdout" → op = op'
  funct7 : rocc → ∀ k, IsNumber 10 formats RISCV_R_TYPE_NAME k ∨
    IsNumber 10 formats RISCV_R1R_TYPE_NAME k → k < 128
  apart : rocc → ∀ k m, IsNumber 10 formats RISCV_R1_TYPE_NAME m →
    (IsNumber 10 formats RISCV_R_TYPE_NAME k → m ≠ 8 * k + 7) ∧
      (IsNumber 10 formats RISCV_R1R_TYPE_NAME k → m ≠ 8 * k + 6)

theorem numberEncoding_r3r (rocc : Bool) (k : Nat) :
    numberEncoding rocc RISCV_R3R_TYPE_NAME k = 43 + k * 128 := by
  rw [numberEncoding, if_pos rfl, Nat.shiftLeft_eq]
  rfl

theorem numberEncoding_r1 (rocc : Bool) (k : Nat) :
    numberEncoding rocc RISCV_R1_TYPE_NAME k = 11 + k * 128 := by
  have h : numberEncoding rocc RISCV_R1_TYPE_NAME k = 11 + (k <<< 7) := by
    cases rocc <;> rfl
  rw [h, Nat.shiftLeft_eq]

theorem numberEncoding_r (rocc : Bool) (k : Nat) :
    numberEncoding rocc RISCV_R_TYPE_NAME k = if rocc then 907 + k * 1024 else 11 + k * 128 := by
  have h : numberEncoding rocc RISCV_R_TYPE_NAME k =
      if rocc then 907 + (k <<< 10) else 11 + (k <<< 7) := by
    cases rocc <;> rfl
  rw [h, Nat.shiftLeft_eq, Nat.shiftLeft_eq]

theorem numberEncoding_r1r (rocc : Bool) (k : Nat) :
    numberEncoding rocc RISCV_R1R_TYPE_NAME k =
      if rocc then 779 + k * 1024 else 11 + k * 128 := by
  have h : numberEncoding rocc RISCV_R1R_TYPE_NAME k =
      if rocc then 779 + (k <<< 10) else 11 + (k <<< 7) := by
    cases rocc <;> rfl
  rw [h, Nat.shiftLeft_eq, Nat.shiftLeft_eq]

/-- An operation has number `k`, or is the `stdout` of number zero. -/
def HasNumber (formats : List OperationTriggeredFormat) (name op : String) (k : Nat) : Prop :=
  (name = RISCV_R1_TYPE_NAME ∧ lower op = "stdout" ∧ op ∈ operationsOf name formats ∧ k = 0) ∨
    (op, k) ∈ numbers name (operationsOf name formats) (firstNumber name 10 formats)

theorem fixedEncoding_r1 (op : String) : fixedEncoding RISCV_R1_TYPE_NAME op =
    if lower op = "stdout" then some OPC_CUSTOM_0 else none := rfl

theorem fixedEncoding_table (h : name = RISCV_R_TYPE_NAME ∨ name = RISCV_R1R_TYPE_NAME ∨
    name = RISCV_R3R_TYPE_NAME) (op : String) :
    fixedEncoding name op = RISCVRTypeOperations.lookup op := by
  obtain rfl | rfl | rfl := h <;> rfl

/-- The encoding of a custom operation is that of its number. -/
theorem Encoded.hasNumber (h : Encoded rocc 10 formats F) (hp : (op, e) ∈ F.operations)
    (hc : IsCustom F.name op) :
    ∃ k, HasNumber formats F.name op k ∧ e = numberEncoding rocc F.name k := by
  obtain ⟨hop, hfixed⟩ | ⟨k, hk, he⟩ := (h.mem_iff _).1 hp
  · obtain hname | ⟨hname, hnone⟩ := hc
    · dsimp only at hop hfixed
      rw [hname] at hop hfixed ⊢
      rw [fixedEncoding_r1] at hfixed
      split at hfixed
      case isTrue hs =>
        refine ⟨0, .inl ⟨rfl, hs, hop, rfl⟩, ?_⟩
        rw [numberEncoding_r1]
        exact (Option.some.inj hfixed).symm
      case isFalse => cases hfixed
    · rw [fixedEncoding_table hname, hnone] at hfixed
      cases hfixed
  · exact ⟨k, .inr hk, he⟩

theorem HasNumber.isNumber (h : HasNumber formats name op k) (hk : k ≠ 0) :
    IsNumber 10 formats name k := by
  obtain ⟨-, -, -, hz⟩ | h := h
  · exact absurd hz hk
  · exact isNumber_of_mem h

theorem IsNumber.pos (h : IsNumber 10 formats name k) : k ≠ 0 := by
  have := Nat.le_trans firstNumber_le h.1
  omega

/-- A number belongs to one operation. -/
theorem HasNumber.unique (hs : NumbersApart rocc formats) (h : HasNumber formats name op k)
    (h' : HasNumber formats name' op' k) : name = name' ∧ op = op' := by
  obtain ⟨rfl, hlow, hop, rfl⟩ | h := h
  · obtain ⟨rfl, hlow', hop', -⟩ | h' := h'
    · exact ⟨rfl, hs.stdout _ hop _ hop' hlow hlow'⟩
    · exact absurd rfl (isNumber_of_mem h').pos
  · obtain ⟨-, -, -, rfl⟩ | h' := h'
    · exact absurd rfl (isNumber_of_mem h).pos
    · obtain rfl := (isNumber_of_mem h).name_unique (isNumber_of_mem h')
      exact ⟨rfl, numbers_op_unique h h'⟩

theorem Encoded.number_limit (h : Encoded rocc 10 formats F) (hk : HasNumber formats F.name op k) :
    k + 1 < numberLimit F.name := by
  obtain ⟨hname, -, -, rfl⟩ | hk := hk
  · rw [hname]
    decide
  · exact h.limit k (isNumber_of_mem hk)

theorem rTypeOperations_fit (h : RISCVRTypeOperations.lookup op = some e) : e < 2 ^ 17 := by
  obtain ⟨l₁, l₂, hl, -⟩ := List.lookup_eq_some_iff.1 h
  have hall : ∀ p ∈ RISCVRTypeOperations, p.2 < 2 ^ 17 := by decide
  refine hall (op, e) ?_
  rw [hl]
  exact List.mem_append_right _ List.mem_cons_self

theorem fixedEncoding_fits (hname : name = RISCV_R_TYPE_NAME ∨ name = RISCV_R1R_TYPE_NAME ∨
    name = RISCV_R1_TYPE_NAME ∨ name = RISCV_R3R_TYPE_NAME)
    (h : fixedEncoding name op = some e) : e < 2 ^ 17 := by
  obtain rfl | rfl | rfl | rfl := hname
  · exact rTypeOperations_fit h
  · exact rTypeOperations_fit h
  · rw [fixedEncoding_r1] at h
    split at h
    case isTrue =>
      obtain rfl := Option.some.inj h
      decide
    case isFalse => cases h
  · exact rTypeOperations_fit h

theorem numberEncoding_fits (hname : name = RISCV_R_TYPE_NAME ∨ name = RISCV_R1R_TYPE_NAME ∨
    name = RISCV_R1_TYPE_NAME ∨ name = RISCV_R3R_TYPE_NAME) (hk : k + 1 < numberLimit name)
    (hf : rocc = true → name = RISCV_R_TYPE_NAME ∨ name = RISCV_R1R_TYPE_NAME → k < 128) :
    numberEncoding rocc name k < 2 ^ 17 := by
  obtain rfl | rfl | rfl | rfl := hname
  · have hk : k + 1 < 1024 := hk
    rw [numberEncoding_r]
    split
    case isTrue hr =>
      have := hf hr (.inl rfl)
      omega
    case isFalse => omega
  · have hk : k + 1 < 1024 := hk
    rw [numberEncoding_r1r]
    split
    case isTrue hr =>
      have := hf hr (.inr rfl)
      omega
    case isFalse => omega
  · have hk : k + 1 < 1024 := hk
    rw [numberEncoding_r1]
    omega
  · have hk : k + 1 < 32 := hk
    rw [numberEncoding_r3r]
    omega

theorem Encoded.fits (h : Encoded rocc 10 formats F) (hs : NumbersApart rocc formats)
    (hname : F.name = RISCV_R_TYPE_NAME ∨ F.name = RISCV_R1R_TYPE_NAME ∨
      F.name = RISCV_R1_TYPE_NAME ∨ F.name = RISCV_R3R_TYPE_NAME) :
    ∀ p ∈ F.operations, p.2 < 2 ^ 17 := by
  intro p hp
  obtain ⟨-, hfixed⟩ | ⟨k, hk, he⟩ := (h.mem_iff p).1 hp
  · exact fixedEncoding_fits hname hfixed
  · have hnum := isNumber_of_mem hk
    rw [he]
    refine numberEncoding_fits hname (h.limit k hnum) ?_
    rintro hr (hn | hn)
    · rw [hn] at hnum
      exact hs.funct7 hr k (.inl hnum)
    · rw [hn] at hnum
      exact hs.funct7 hr k (.inr hnum)

/-- An encoding of 17 bits is read back from its opcode, funct3 and funct7. -/
theorem encoding_of_bits (he : e < 2 ^ 17) (he' : e' < 2 ^ 17)
    (ho : getOpcodeInt e = getOpcodeInt e') (h3 : getFunc3Int e = getFunc3Int e')
    (h7 : getFunc7Int e = getFunc7Int e') : e = e' := by
  rw [getOpcodeInt_eq, getOpcodeInt_eq] at ho
  rw [getFunc3Int_eq, getFunc3Int_eq] at h3
  rw [getFunc7Int_eq, getFunc7Int_eq] at h7
  omega

theorem numberEncoding_default (k : Nat) (hname : name = RISCV_R_TYPE_NAME ∨
    name = RISCV_R1R_TYPE_NAME ∨ name = RISCV_R1_TYPE_NAME) :
    numberEncoding false name k = 11 + k * 128 := by
  obtain rfl | rfl | rfl := hname
  · exact numberEncoding_r false k
  · exact numberEncoding_r1r false k
  · exact numberEncoding_r1 false k

theorem numberEncoding_rocc_r (k : Nat) :
    numberEncoding true RISCV_R_TYPE_NAME k = 907 + k * 1024 := numberEncoding_r true k

theorem numberEncoding_rocc_r1r (k : Nat) :
    numberEncoding true RISCV_R1R_TYPE_NAME k = 779 + k * 1024 := numberEncoding_r1r true k

theorem HasNumber.r_isNumber (h : HasNumber formats RISCV_R_TYPE_NAME op k) :
    IsNumber 10 formats RISCV_R_TYPE_NAME k := by
  obtain ⟨hn, -⟩ | h := h
  · exact absurd hn (by decide)
  · exact isNumber_of_mem h

theorem HasNumber.r1r_isNumber (h : HasNumber formats RISCV_R1R_TYPE_NAME op k) :
    IsNumber 10 formats RISCV_R1R_TYPE_NAME k := by
  obtain ⟨hn, -⟩ | h := h
  · exact absurd hn (by decide)
  · exact isNumber_of_mem h

theorem NumbersApart.r_ne_r1 (hs : NumbersApart true formats)
    (h : HasNumber formats RISCV_R_TYPE_NAME op k)
    (h' : HasNumber formats RISCV_R1_TYPE_NAME op' m) :
    numberEncoding true RISCV_R_TYPE_NAME k ≠ numberEncoding true RISCV_R1_TYPE_NAME m := by
  intro he
  rw [numberEncoding_rocc_r, numberEncoding_r1] at he
  have hm : m = 8 * k + 7 := by omega
  have hnum := h'.isNumber (by omega)
  exact (hs.apart rfl k m hnum).1 h.r_isNumber hm

theorem NumbersApart.r1r_ne_r1 (hs : NumbersApart true formats)
    (h : HasNumber formats RISCV_R1R_TYPE_NAME op k)
    (h' : HasNumber formats RISCV_R1_TYPE_NAME op' m) :
    numberEncoding true RISCV_R1R_TYPE_NAME k ≠ numberEncoding true RISCV_R1_TYPE_NAME m := by
  intro he
  rw [numberEncoding_rocc_r1r, numberEncoding_r1] at he
  have hm : m = 8 * k + 6 := by omega
  have hnum := h'.isNumber (by omega)
  exact (hs.apart rfl k m hnum).2 h.r1r_isNumber hm

/-- With the numbers apart, the formats of opcode custom-0 encode different numbers
differently. -/
theorem NumbersApart.number_of_encoding (hs : NumbersApart rocc formats)
    (h : HasNumber formats name op k) (h' : HasNumber formats name' op' k')
    (hname : name = RISCV_R_TYPE_NAME ∨ name = RISCV_R1R_TYPE_NAME ∨ name = RISCV_R1_TYPE_NAME)
    (hname' : name' = RISCV_R_TYPE_NAME ∨ name' = RISCV_R1R_TYPE_NAME ∨
      name' = RISCV_R1_TYPE_NAME)
    (he : numberEncoding rocc name k = numberEncoding rocc name' k') : k = k' := by
  cases rocc with
  | false =>
    rw [numberEncoding_default k hname, numberEncoding_default k' hname'] at he
    omega
  | true =>
    obtain rfl | rfl | rfl := hname
    · obtain rfl | rfl | rfl := hname'
      · rw [numberEncoding_rocc_r, numberEncoding_rocc_r] at he
        omega
      · rw [numberEncoding_rocc_r, numberEncoding_rocc_r1r] at he
        omega
      · exact absurd he (hs.r_ne_r1 h h')
    · obtain rfl | rfl | rfl := hname'
      · rw [numberEncoding_rocc_r1r, numberEncoding_rocc_r] at he
        omega
      · rw [numberEncoding_rocc_r1r, numberEncoding_rocc_r1r] at he
        omega
      · exact absurd he (hs.r1r_ne_r1 h h')
    · obtain rfl | rfl | rfl := hname'
      · exact absurd he.symm (hs.r_ne_r1 h' h)
      · exact absurd he.symm (hs.r1r_ne_r1 h' h)
      · rw [numberEncoding_r1, numberEncoding_r1] at he
        omega

theorem custom0_opcode (rocc : Bool) (k : Nat) (hname : name = RISCV_R_TYPE_NAME ∨
    name = RISCV_R1R_TYPE_NAME ∨ name = RISCV_R1_TYPE_NAME) :
    getOpcodeInt (numberEncoding rocc name k) = 11 := by
  rw [getOpcodeInt_eq]
  cases rocc with
  | false =>
    rw [numberEncoding_default k hname]
    omega
  | true =>
    obtain rfl | rfl | rfl := hname
    · rw [numberEncoding_rocc_r]
      omega
    · rw [numberEncoding_rocc_r1r]
      omega
    · rw [numberEncoding_r1]
      omega

theorem custom1_opcode (rocc : Bool) (k : Nat) :
    getOpcodeInt (numberEncoding rocc RISCV_R3R_TYPE_NAME k) = 43 := by
  rw [getOpcodeInt_eq, numberEncoding_r3r]
  omega

theorem IsCustom.format (h : IsCustom name op) :
    name = RISCV_R3R_TYPE_NAME ∨
      name = RISCV_R_TYPE_NAME ∨ name = RISCV_R1R_TYPE_NAME ∨ name = RISCV_R1_TYPE_NAME := by
  obtain h | ⟨h | h | h, -⟩ := h
  · exact .inr (.inr (.inr h))
  · exact .inr (.inl h)
  · exact .inr (.inr (.inl h))
  · exact .inl h

/-- The numbers of the R3R format are apart for the bits that `funct2` reads. -/
def R3rApart (funct2 : Nat → Nat) (formats : List OperationTriggeredFormat) : Prop :=
  ∀ k k', IsNumber 10 formats RISCV_R3R_TYPE_NAME k → IsNumber 10 formats RISCV_R3R_TYPE_NAME k' →
    getFunc3Int (43 + k * 128) = getFunc3Int (43 + k' * 128) →
    funct2 (43 + k * 128) = funct2 (43 + k' * 128) → k = k'

theorem NumbersApart.distinguishable (h : addTopLevelFields rocc formats = .ok bem)
    (hs : NumbersApart rocc formats) (h2 : R3rApart funct2 formats) :
    Distinguishable funct2 bem := by
  obtain ⟨hencoded, -⟩ := addTopLevelFields_ok h
  have hnotR3r {name : String} (h : name = RISCV_R_TYPE_NAME ∨ name = RISCV_R1R_TYPE_NAME ∨
      name = RISCV_R1_TYPE_NAME) : name ≠ RISCV_R3R_TYPE_NAME := by
    obtain rfl | rfl | rfl := h <;> decide
  have hfits {F : InstructionFormat} (hF : F ∈ bem) (hn : F.name = RISCV_R_TYPE_NAME ∨
      F.name = RISCV_R1R_TYPE_NAME ∨ F.name = RISCV_R1_TYPE_NAME ∨
      F.name = RISCV_R3R_TYPE_NAME) := (hencoded F hF).fits hs hn
  refine ⟨?_, fun F hF => hfits hF⟩
  rintro F hF G hG ⟨op, e⟩ hp ⟨op', e'⟩ hq hcp hcq hbits
  obtain ⟨k, hk, rfl⟩ := (hencoded F hF).hasNumber hp hcp
  obtain ⟨k', hk', rfl⟩ := (hencoded G hG).hasNumber hq hcq
  simp only [operationBits, Prod.mk.injEq] at hbits
  obtain ⟨ho, h3, h7⟩ := hbits
  have hnumber : k = k' := by
    obtain hFn | hFn := hcp.format
    · obtain hGn | hGn := hcq.format
      · rw [hFn] at hk ho h3 h7
        rw [hGn] at hk' ho h3 h7
        rw [if_pos rfl, if_pos rfl] at h7
        rw [numberEncoding_r3r, numberEncoding_r3r] at h3 h7
        obtain ⟨hn, -⟩ | hk := hk
        · exact absurd hn (by decide)
        obtain ⟨hn, -⟩ | hk' := hk'
        · exact absurd hn (by decide)
        exact h2 k k' (isNumber_of_mem hk) (isNumber_of_mem hk') h3 h7
      · rw [hFn, custom1_opcode, custom0_opcode rocc k' hGn] at ho
        cases ho
    · obtain hGn | hGn := hcq.format
      · rw [hGn, custom1_opcode, custom0_opcode rocc k hFn] at ho
        cases ho
      · rw [if_neg (hnotR3r hFn), if_neg (hnotR3r hGn)] at h7
        have hFits := hfits hF (by tauto) _ hp
        have hGits := hfits hG (by tauto) _ hq
        exact hs.number_of_encoding hk hk' hFn hGn (encoding_of_bits hFits hGits ho h3 h7)
  subst hnumber
  exact hk.unique hs hk'

theorem exists_format (h : op ∈ operationsOf name formats) : ∃ f ∈ formats, f.name = name := by
  induction formats with
  | nil => cases h
  | cons f formats ih =>
    rw [operationsOf] at h
    by_cases hn : f.name = name
    · exact ⟨f, List.mem_cons_self, hn⟩
    · rw [if_neg hn] at h
      obtain ⟨g, hg, hgn⟩ := ih h
      exact ⟨g, List.mem_cons_of_mem f hg, hgn⟩

/-- Every number of a format is that of one of its operations. -/
theorem IsNumber.exists_entry (h : addTopLevelFields rocc formats = .ok bem)
    (hk : IsNumber 10 formats name k) :
    ∃ F ∈ bem, F.name = name ∧ k + 1 < numberLimit name ∧
      ∃ op, (op, k) ∈ numbers name (operationsOf name formats) (firstNumber name 10 formats) ∧
        (op, numberEncoding rocc name k) ∈ F.operations := by
  obtain ⟨hencoded, hall⟩ := addTopLevelFields_ok h
  obtain ⟨op, hop⟩ := hk.exists_op
  obtain ⟨f, hf, rfl⟩ := exists_format (mem_of_numbers hop).1
  obtain ⟨F, hF, hname⟩ := hall f hf
  have hF' := hencoded F hF
  rw [← hname] at hop hk ⊢
  exact ⟨F, hF, rfl, hF'.limit k hk, op, hop, (hF'.mem_iff _).2 (.inr ⟨k, hop, rfl⟩)⟩

theorem isCustom_of_number (hname : name = RISCV_R_TYPE_NAME ∨ name = RISCV_R1R_TYPE_NAME ∨
    name = RISCV_R1_TYPE_NAME ∨ name = RISCV_R3R_TYPE_NAME)
    (h : (op, k) ∈ numbers name operations n) : IsCustom name op := by
  obtain ⟨-, hf⟩ := mem_of_numbers h
  obtain rfl | rfl | rfl | rfl := hname
  · exact .inr ⟨.inl rfl, hf⟩
  · exact .inr ⟨.inr (.inl rfl), hf⟩
  · exact .inl rfl
  · exact .inr ⟨.inr (.inr rfl), hf⟩

section

variable {rocc : Bool} {formats : List OperationTriggeredFormat} {bem : List InstructionFormat}
  {funct2 : Nat → Nat}

theorem Distinguishable.stdout_unique (h : addTopLevelFields rocc formats = .ok bem)
    (hd : Distinguishable funct2 bem) (hop : op ∈ operationsOf RISCV_R1_TYPE_NAME formats)
    (hop' : op' ∈ operationsOf RISCV_R1_TYPE_NAME formats) (hs : lower op = "stdout")
    (hs' : lower op' = "stdout") : op = op' := by
  obtain ⟨hencoded, hall⟩ := addTopLevelFields_ok h
  obtain ⟨f, hf, hfn⟩ := exists_format hop
  obtain ⟨F, hF, hFn⟩ := hall f hf
  have hname := hFn.trans hfn
  have hmem {op : String} (hop : op ∈ operationsOf RISCV_R1_TYPE_NAME formats)
      (hs : lower op = "stdout") : (op, OPC_CUSTOM_0) ∈ F.operations := by
    refine ((hencoded F hF).mem_iff _).2 (.inl ?_)
    rw [hname, fixedEncoding_r1, if_pos hs]
    exact ⟨hop, rfl⟩
  exact (hd.distinct F hF F hF _ (hmem hop hs) _ (hmem hop' hs') (.inl hname) (.inl hname)
    rfl).2

theorem Distinguishable.funct7_fits (h : addTopLevelFields true formats = .ok bem)
    (hd : Distinguishable funct2 bem) (hk : IsNumber 10 formats RISCV_R_TYPE_NAME k ∨
      IsNumber 10 formats RISCV_R1R_TYPE_NAME k) : k < 128 := by
  obtain hk | hk := hk
  · obtain ⟨F, hF, hname, -, op, -, hp⟩ := hk.exists_entry h
    have := hd.fits F hF (.inl hname) _ hp
    rw [numberEncoding_rocc_r] at this
    omega
  · obtain ⟨F, hF, hname, -, op, -, hp⟩ := hk.exists_entry h
    have := hd.fits F hF (.inr (.inl hname)) _ hp
    rw [numberEncoding_rocc_r1r] at this
    omega

/-- Two formats of opcode custom-0 share no encoding. -/
theorem Distinguishable.encoding_ne (h : addTopLevelFields rocc formats = .ok bem)
    (hd : Distinguishable funct2 bem) (hk : IsNumber 10 formats name k)
    (hm : IsNumber 10 formats RISCV_R1_TYPE_NAME m)
    (hname : name = RISCV_R_TYPE_NAME ∨ name = RISCV_R1R_TYPE_NAME) :
    numberEncoding rocc name k ≠ numberEncoding rocc RISCV_R1_TYPE_NAME m := by
  intro he
  obtain ⟨F, hF, hFn, -, op, hop, hp⟩ := hk.exists_entry h
  obtain ⟨G, hG, hGn, -, op', hop', hq⟩ := hm.exists_entry h
  have hcp : IsCustom F.name op := by
    rw [hFn]
    exact isCustom_of_number (by tauto) hop
  have hbits : operationBits funct2 F.name (numberEncoding rocc name k) =
      operationBits funct2 G.name (numberEncoding rocc RISCV_R1_TYPE_NAME m) := by
    rw [hFn, hGn, he, operationBits, operationBits]
    obtain rfl | rfl := hname <;> rfl
  have := (hd.distinct F hF G hG _ hp _ hq hcp (.inl hGn) hbits).1
  rw [hFn, hGn] at this
  obtain rfl | rfl := hname
  · exact absurd this (by decide)
  · exact absurd this (by decide)

theorem Distinguishable.numbersApart (h : addTopLevelFields rocc formats = .ok bem)
    (hd : Distinguishable funct2 bem) : NumbersApart rocc formats := by
  refine ⟨fun op hop op' hop' => hd.stdout_unique h hop hop', ?_, ?_⟩
  · rintro rfl k hk
    exact hd.funct7_fits h hk
  · rintro rfl k m hm
    constructor
    · rintro hk rfl
      refine hd.encoding_ne h hk hm (.inl rfl) ?_
      rw [numberEncoding_rocc_r, numberEncoding_r1]
      omega
    · rintro hk rfl
      refine hd.encoding_ne h hk hm (.inr rfl) ?_
      rw [numberEncoding_rocc_r1r, numberEncoding_r1]
      omega

theorem Distinguishable.r3rApart (h : addTopLevelFields rocc formats = .ok bem)
    (hd : Distinguishable funct2 bem) : R3rApart funct2 formats := by
  intro k k' hk hk' h3 h2
  obtain ⟨hencoded, -⟩ := addTopLevelFields_ok h
  obtain ⟨F, hF, hFn, -, op, hop, hp⟩ := hk.exists_entry h
  obtain ⟨G, hG, hGn, -, op', hop', hq⟩ := hk'.exists_entry h
  have hbits : operationBits funct2 F.name (numberEncoding rocc RISCV_R3R_TYPE_NAME k) =
      operationBits funct2 G.name (numberEncoding rocc RISCV_R3R_TYPE_NAME k') := by
    rw [hFn, hGn, operationBits, operationBits, custom1_opcode, custom1_opcode, if_pos rfl,
      if_pos rfl, numberEncoding_r3r, numberEncoding_r3r, h3, h2]
  have hcustom {op : String} {k : Nat} (hop : (op, k) ∈ numbers RISCV_R3R_TYPE_NAME
      (operationsOf RISCV_R3R_TYPE_NAME formats) (firstNumber RISCV_R3R_TYPE_NAME 10 formats)) :
      IsCustom RISCV_R3R_TYPE_NAME op := isCustom_of_number (by tauto) hop
  have heq := hd.distinct F hF G hG _ hp _ hq (by rw [hFn]; exact hcustom hop)
    (by rw [hGn]; exact hcustom hop') hbits
  obtain rfl : op = op' := heq.2
  have hnodup := (hencoded F hF).nodup
  rw [hFn] at hnodup
  exact numbers_unique hnodup hop hop'

/-- `getFunc2Int` reads two bits that are zero in every number, so that only funct3 tells the
operations of the R3R format apart. -/
theorem r3rApart_getFunc2Int (h : addTopLevelFields rocc formats = .ok bem) :
    R3rApart getFunc2Int formats ↔
      customCount RISCV_R3R_TYPE_NAME (operationsOf RISCV_R3R_TYPE_NAME formats) ≤ 8 := by
  have hlimit (k : Nat) (hk : IsNumber 10 formats RISCV_R3R_TYPE_NAME k) : k + 1 < 32 := by
    obtain ⟨-, -, -, hl, -⟩ := hk.exists_entry h
    exact hl
  constructor
  · intro ha
    by_contra hc
    have h0 : IsNumber 10 formats RISCV_R3R_TYPE_NAME
        (firstNumber RISCV_R3R_TYPE_NAME 10 formats) := ⟨Nat.le_refl _, by omega⟩
    have h8 : IsNumber 10 formats RISCV_R3R_TYPE_NAME
        (firstNumber RISCV_R3R_TYPE_NAME 10 formats + 8) := ⟨Nat.le_add_right _ _, by omega⟩
    have hl := hlimit _ h8
    have := ha _ _ h0 h8 (by rw [getFunc3Int_eq, getFunc3Int_eq]; omega)
      (by rw [getFunc2Int_eq, getFunc2Int_eq]; omega)
    omega
  · intro hc k k' hk hk' h3 h2
    rw [getFunc3Int_eq, getFunc3Int_eq] at h3
    have hl := hlimit k hk
    have hl' := hlimit k' hk'
    obtain ⟨hle, hlt⟩ := hk
    obtain ⟨hle', hlt'⟩ := hk'
    omega

/-- The two bits of the R3R format's own field tell its operations apart. -/
theorem r3rApart_getFunc2StrBits (h : addTopLevelFields rocc formats = .ok bem) :
    R3rApart getFunc2StrBits formats := by
  intro k k' hk hk' h3 h2
  obtain ⟨-, -, -, hl, -⟩ := hk.exists_entry h
  obtain ⟨-, -, -, hl', -⟩ := hk'.exists_entry h
  have hl : k + 1 < 32 := hl
  have hl' : k' + 1 < 32 := hl'
  rw [getFunc3Int_eq, getFunc3Int_eq] at h3
  rw [getFunc2StrBits, getFunc2StrBits, getFunc7Int_eq, getFunc7Int_eq] at h2
  omega

end

/-- The custom operations are told apart exactly when the numbers of the formats are, and by
`getFunc2Int` at most eight of the R3R format. -/
theorem addTopLevelFields_distinguishable (rocc : Bool) (formats : List OperationTriggeredFormat)
    (bem : List InstructionFormat) (h : addTopLevelFields rocc formats = .ok bem) :
    (Distinguishable getFunc2Int bem ↔ NumbersApart rocc formats ∧
        customCount RISCV_R3R_TYPE_NAME (operationsOf RISCV_R3R_TYPE_NAME formats) ≤ 8) ∧
      (Distinguishable getFunc2StrBits bem ↔ NumbersApart rocc formats) := by
  refine ⟨⟨?_, ?_⟩, ⟨fun hd => hd.numbersApart h, ?_⟩⟩
  · intro hd
    exact ⟨hd.numbersApart h, (r3rApart_getFunc2Int h).1 (hd.r3rApart h)⟩
  · rintro ⟨hs, hc⟩
    exact hs.distinguishable h ((r3rApart_getFunc2Int h).2 hc)
  · intro hs
    exact hs.distinguishable h (r3rApart_getFunc2StrBits h)

theorem addTopLevelFields_distinguishable_default :
    ∃ bem, addTopLevelFields false [⟨RISCV_R_TYPE_NAME, ["add", "mac"]⟩,
        ⟨RISCV_R1_TYPE_NAME, ["stdout", "led"]⟩] = .ok bem ∧
      ((Distinguishable getFunc2Int bem ↔
        NumbersApart false [⟨RISCV_R_TYPE_NAME, ["add", "mac"]⟩,
            ⟨RISCV_R1_TYPE_NAME, ["stdout", "led"]⟩] ∧
          customCount RISCV_R3R_TYPE_NAME (operationsOf RISCV_R3R_TYPE_NAME
            [⟨RISCV_R_TYPE_NAME, ["add", "mac"]⟩,
              ⟨RISCV_R1_TYPE_NAME, ["stdout", "led"]⟩]) ≤ 8) ∧
        (Distinguishable getFunc2StrBits bem ↔
          NumbersApart false [⟨RISCV_R_TYPE_NAME, ["add", "mac"]⟩,
            ⟨RISCV_R1_TYPE_NAME, ["stdout", "led"]⟩])) :=
  ⟨_, rfl, addTopLevelFields_distinguishable false _ _ rfl⟩

/-- A RoCC machine with one binary operation and 77 operations without a result. -/
def roccFormats : List OperationTriggeredFormat :=
  [⟨RISCV_R_TYPE_NAME, ["mac"]⟩,
    ⟨RISCV_R1_TYPE_NAME, (List.range 77).map fun i => "led" ++ toString i⟩]

theorem roccFormats_indistinguishable :
    (¬ ∀ (rocc : Bool) (formats : List OperationTriggeredFormat) (bem : List InstructionFormat),
      addTopLevelFields rocc formats = .ok bem → Distinguishable getFunc2Int bem) ∧
    ¬ ∀ (rocc : Bool) (formats : List OperationTriggeredFormat) (bem : List InstructionFormat),
      addTopLevelFields rocc formats = .ok bem → Distinguishable getFunc2StrBits bem := by
  have hok : ∃ bem, addTopLevelFields true roccFormats = .ok bem := by
    cases h : addTopLevelFields true roccFormats with
    | ok bem => exact ⟨bem, rfl⟩
    | error e =>
      have : (addTopLevelFields true roccFormats).isOk := by decide +kernel
      rw [h] at this
      cases this
  obtain ⟨bem, hbem⟩ := hok
  have hk : IsNumber 10 roccFormats RISCV_R_TYPE_NAME 10 := ⟨by decide +kernel, by decide +kernel⟩
  have hm : IsNumber 10 roccFormats RISCV_R1_TYPE_NAME 87 := ⟨by decide +kernel, by decide +kernel⟩
  refine ⟨fun hall => ?_, fun hall => ?_⟩
  · exact (hall true roccFormats bem hbem).encoding_ne hbem hk hm (.inl rfl) (by decide)
  · exact (hall true roccFormats bem hbem).encoding_ne hbem hk hm (.inl rfl) (by decide)

end BEMGenerator

end OpenAsip
