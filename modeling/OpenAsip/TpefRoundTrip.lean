import OpenAsip.TpefCodeSection

namespace OpenAsip
set_option autoImplicit true

namespace Tpef
open Reader

theorem reads_readHalfWord (h : st.needsSwap = true) (x : UInt16) :
    Reads (readHalfWord st) [UInt8.ofNat (x.toNat / 256), UInt8.ofNat x.toNat] x := by
  have hlt : x.toNat < 65536 := x.toNat_lt
  have hx : UInt16.ofNat ((UInt8.ofNat (x.toNat / 256)).toNat * 256 +
      (UInt8.ofNat x.toNat).toNat) = x := by
    apply UInt16.toNat_inj.1
    rw [UInt16.toNat_ofNat', UInt8.toNat_ofNat', UInt8.toNat_ofNat']
    omega
  intro rest
  change (if st.needsSwap then _ else _ : Reader UInt16) rest = _
  rw [if_pos h, hx]
  rfl

/-- The ids that a version of the format can hold. -/
def IdFits (st : StreamSettings) (id : UInt16) : Prop := st.version = .v1 → id.toNat < 256

theorem writeId_reads (h : st.needsSwap = true) {x : UInt16} (hx : IdFits st x) :
    ∃ bytes, writeId st x = .ok bytes ∧ Reads (readId st) bytes x := by
  cases hv : st.version with
  | v1 =>
    rw [writeId, readId, hv]
    refine ⟨_, rfl, (reads_readByte _).map ?_⟩
    have heq : UInt16.ofNat (UInt8.ofNat x.toNat).toNat = x := by
      have hlt := hx hv
      apply UInt16.toNat_inj.1
      rw [UInt16.toNat_ofNat', UInt8.toNat_ofNat']
      omega
    rw [heq]
    exact Reads.pure x
  | v2 =>
    rw [writeId, readId, hv]
    dsimp only
    rw [writeHalfWord, if_pos h]
    exact ⟨_, rfl, reads_readHalfWord h x⟩

/-- A move as it is read back: an empty one loses its types and its guard, and one without a guard
loses the guard's type and inversion. -/
def MoveElement.normal (m : MoveElement) : MoveElement :=
  { m with
    sourceType := if m.isEmpty then .null else m.sourceType
    destinationType := if m.isEmpty then .null else m.destinationType
    isGuarded := m.isGuarded && !m.isEmpty
    isGuardInverted := m.isGuardInverted && (m.isGuarded && !m.isEmpty)
    guardType := if m.isGuarded && !m.isEmpty then m.guardType else .null }

/-- The writer accepts the types of the move. -/
def MoveElement.Typed (m : MoveElement) : Prop :=
  m.isEmpty = false → m.sourceType ≠ .null ∧ (m.destinationType = .rf ∨ m.destinationType = .unit) ∧
    (m.isGuarded = true → m.guardType = .rf ∨ m.guardType = .unit)

/-- The attributes of a move are read back. -/
theorem move_attribute (guarded empty annote isEnd : Bool) :
    let iAttr := flag iaMguard guarded ||| flag iaEmpty empty ||| flag iaAnnote annote |||
      flag iaEnd isEnd
    iAttr &&& iaType = 0 ∧ (iAttr &&& iaMguard ≠ 0 ↔ guarded = true) ∧
      (iAttr &&& iaEmpty ≠ 0 ↔ empty = true) ∧ (iAttr &&& iaAnnote ≠ 0 ↔ annote = true) ∧
      (iAttr &&& iaEnd ≠ 0 ↔ isEnd = true) := by
  revert guarded empty annote isEnd
  decide

/-- So are those of an immediate, if its length fits into four bits. -/
theorem immediate_attribute (length : Fin 16) (annote isEnd : Bool) :
    let iAttr := iaType ||| UInt8.ofNat (length % 256 * 16) ||| flag iaAnnote annote |||
      flag iaEnd isEnd
    iAttr &&& iaType ≠ 0 ∧ iAttr.toNat / 16 = length ∧
      (iAttr &&& iaAnnote ≠ 0 ↔ annote = true) ∧ (iAttr &&& iaEnd ≠ 0 ↔ isEnd = true) := by
  revert length annote isEnd
  decide

theorem sourceTypeBits_ok (h : t ≠ .null) :
    ∃ bits, sourceTypeBits t = .ok bits ∧ ∀ d ∈ [0x10, 0x30], ∀ g ∈ [0x00, 0x40, 0x80, 0xc0],
      sourceTypeOf (bits ||| d ||| g) = .ok t := by
  cases t with
  | null => exact (h rfl).elim
  | rf => exact ⟨_, rfl, by decide +kernel⟩
  | imm => exact ⟨_, rfl, by decide +kernel⟩
  | unit => exact ⟨_, rfl, by decide +kernel⟩

theorem destinationTypeBits_ok (h : t = .rf ∨ t = .unit) :
    ∃ bits ∈ [0x10, 0x30], destinationTypeBits t = .ok bits ∧
      ∀ s ∈ [0x04, 0x08, 0x0c], ∀ g ∈ [0x00, 0x40, 0x80, 0xc0],
        destinationTypeOf (s ||| bits ||| g) = .ok t := by
  rcases h with rfl | rfl
  · exact ⟨0x10, by decide, rfl, by decide +kernel⟩
  · exact ⟨0x30, by decide, rfl, by decide +kernel⟩

theorem guardBits_ok {m : MoveElement}
    (h : m.isGuarded = true → m.guardType = .rf ∨ m.guardType = .unit) :
    ∃ bits ∈ [0x00, 0x40, 0x80, 0xc0], guardBits m = .ok bits ∧
      ∀ s ∈ [0x04, 0x08, 0x0c], ∀ d ∈ [0x10, 0x30],
        (m.isGuarded = true → guardTypeOf (s ||| d ||| bits) = m.guardType) ∧
        decide ((s ||| d ||| bits) &&& 0x40 ≠ 0) = (m.isGuardInverted && m.isGuarded) := by
  rw [guardBits]
  cases hg : m.isGuarded with
  | false =>
    refine ⟨0, by decide, rfl, fun s hs d hd => ⟨fun hf => (Bool.false_ne_true hf).elim, ?_⟩⟩
    rw [Bool.and_false]
    revert s d
    decide +kernel
  | true =>
    rw [Bool.and_true]
    rcases h hg with ht | ht
    · rw [ht]
      cases m.isGuardInverted with
      | false => exact ⟨0x80, by decide, rfl, by decide +kernel⟩
      | true => exact ⟨0xc0, by decide, rfl, by decide +kernel⟩
    · rw [ht]
      cases m.isGuardInverted with
      | false => exact ⟨0x00, by decide, rfl, by decide +kernel⟩
      | true => exact ⟨0x40, by decide, rfl, by decide +kernel⟩

theorem sourceTypeBits_mem (h : sourceTypeBits t = .ok bits) : bits ∈ [0x04, 0x08, 0x0c] := by
  cases t with
  | null => cases h
  | rf =>
    cases h
    decide
  | imm =>
    cases h
    decide
  | unit =>
    cases h
    decide

/-- The types are read back from the byte that they are written to, if the attributes are those of
the move. -/
theorem readTypes_fieldTypes {m : MoveElement} {iAttr : UInt8} (h : m.Typed)
    (hguard : iAttr &&& iaMguard ≠ 0 ↔ m.isGuarded = true)
    (hempty : iAttr &&& iaEmpty ≠ 0 ↔ m.isEmpty = true) :
    ∃ types, fieldTypes m = .ok types ∧
      readTypes iAttr types MoveElement.new = .ok { MoveElement.new with
        isEmpty := m.isEmpty
        sourceType := m.normal.sourceType
        destinationType := m.normal.destinationType
        isGuarded := m.normal.isGuarded
        guardType := m.normal.guardType } ∧
      decide (types &&& 0x40 ≠ 0) = m.normal.isGuardInverted := by
  cases he : m.isEmpty with
  | true =>
    refine ⟨0, ?_, ?_, ?_⟩
    · rw [fieldTypes, if_pos he]
    · rw [readTypes, if_pos (hempty.2 he)]
      simp only [MoveElement.normal, he, if_true, Bool.not_true, Bool.and_false,
        Bool.false_eq_true, if_false]
      rfl
    · simp only [MoveElement.normal, he, Bool.not_true, Bool.and_false]
      rfl
  | false =>
    have hne : ¬ m.isEmpty = true := by
      rw [he]
      exact Bool.false_ne_true
    obtain ⟨hsource, hdest, hguardType⟩ := h he
    obtain ⟨source, hs, hsource⟩ := sourceTypeBits_ok hsource
    obtain ⟨destination, hdmem, hd, hdest⟩ := destinationTypeBits_ok hdest
    obtain ⟨guard, hgmem, hg, hguards⟩ := guardBits_ok hguardType
    have hsmem := sourceTypeBits_mem hs
    obtain ⟨hguardType, hinverted⟩ := hguards source hsmem destination hdmem
    refine ⟨source ||| destination ||| guard, ?_, ?_, ?_⟩
    · rw [fieldTypes, if_neg hne, hs, hd, hg]
      rfl
    · rw [readTypes, if_neg (mt hempty.1 hne), hsource destination hdmem guard hgmem,
        hdest source hsmem guard hgmem]
      change (if _ then _ else _) = _
      cases hguarded : m.isGuarded with
      | true =>
        rw [if_pos (hguard.2 hguarded), hguardType hguarded]
        simp only [MoveElement.normal, he, hguarded, Bool.not_false, Bool.and_self,
          Bool.false_eq_true, if_false, if_true]
        rfl
      | false =>
        have hneg : ¬ m.isGuarded = true := by
          rw [hguarded]
          exact Bool.false_ne_true
        rw [if_neg (mt hguard.1 hneg)]
        simp only [MoveElement.normal, he, hguarded, Bool.false_and, Bool.false_eq_true, if_false]
        rfl
    · rw [hinverted]
      simp only [MoveElement.normal, he, Bool.not_false, Bool.and_true]

theorem writeHalfWord_reads (h : st.needsSwap = true) (x : UInt16) :
    ∃ bytes, writeHalfWord st x = .ok bytes ∧ Reads (readHalfWord st) bytes x :=
  ⟨_, if_pos h, reads_readHalfWord h x⟩

/-- The units of a move that the version of the format can hold. -/
def MoveElement.IdsFit (st : StreamSettings) (m : MoveElement) : Prop :=
  IdFits st m.bus ∧ IdFits st m.sourceUnit ∧ IdFits st m.destinationUnit ∧ IdFits st m.guardUnit

theorem writeMove_reads (h : st.needsSwap = true) {m : MoveElement} {iAttr : UInt8}
    (htyped : m.Typed) (hids : m.IdsFit st)
    (hguard : iAttr &&& iaMguard ≠ 0 ↔ m.isGuarded = true)
    (hempty : iAttr &&& iaEmpty ≠ 0 ↔ m.isEmpty = true) :
    ∃ bytes, writeMove st m = .ok bytes ∧ Reads (readMove st iAttr) bytes m.normal := by
  obtain ⟨hbus, hsource, hdest, hguardUnit⟩ := hids
  obtain ⟨bus, hwbus, hrbus⟩ := writeId_reads h hbus
  obtain ⟨types, hwtypes, hrtypes, hinverted⟩ := readTypes_fieldTypes htyped hguard hempty
  obtain ⟨su, hwsu, hrsu⟩ := writeId_reads h hsource
  obtain ⟨si, hwsi, hrsi⟩ := writeHalfWord_reads h m.sourceIndex
  obtain ⟨du, hwdu, hrdu⟩ := writeId_reads h hdest
  obtain ⟨di, hwdi, hrdi⟩ := writeHalfWord_reads h m.destinationIndex
  obtain ⟨gu, hwgu, hrgu⟩ := writeId_reads h hguardUnit
  obtain ⟨gi, hwgi, hrgi⟩ := writeHalfWord_reads h m.guardIndex
  refine ⟨bus ++ ([types] ++ (su ++ (si ++ (du ++ (di ++ (gu ++ gi)))))), ?_, ?_⟩
  · rw [writeMove, hwbus, hwtypes, hwsu, hwsi, hwdu, hwdi, hwgu, hwgi]
    rfl
  · refine hrbus.bind ((reads_readByte types).bind ?_)
    rw [hrtypes]
    refine (Reads.lift _).skip ?_
    refine hrsu.bind (hrsi.bind (hrdu.bind (hrdi.bind (hrgu.bind (hrgi.map ?_)))))
    rw [hinverted]
    exact Reads.pure _

theorem writeImmediate_reads {i : ImmediateElement} {iAttr : UInt8} (h : i.value.length ≤ 15)
    (hlength : iAttr.toNat / 16 = i.value.length) :
    ∃ bytes, writeImmediate i = .ok bytes ∧ Reads (readImmediate iAttr) bytes i := by
  refine ⟨_, if_pos (Nat.le_succ_of_le h), ?_⟩
  refine (reads_readByte _).bind ((reads_readByte _).bind ?_)
  rw [hlength]
  exact (reads_readBytes i.value).map (Reads.pure i)

theorem size_byte (size : Fin 128) (isLast : Bool) :
    let b := UInt8.ofNat (size % 256 % 128) ||| flag 0x80 (!isLast)
    (b &&& 0x7f).toNat = size ∧ (b &&& 0x80 = 0 ↔ isLast = true) := by
  revert size isLast
  decide

theorem idBytes_reads {x : UInt32} (h : x.toNat < 2 ^ 24) : Reads readAnnotationId (idBytes x) x := by
  have hx : UInt32.ofNat ((UInt8.ofNat x.toNat).toNat + (UInt8.ofNat (x.toNat / 2 ^ 8)).toNat * 2 ^ 8 +
      (UInt8.ofNat (x.toNat / 2 ^ 16)).toNat * 2 ^ 16) = x := by
    apply UInt32.toNat_inj.1
    rw [UInt32.toNat_ofNat', UInt8.toNat_ofNat', UInt8.toNat_ofNat', UInt8.toNat_ofNat']
    omega
  refine (reads_readByte _).bind ((reads_readByte _).bind ((reads_readByte _).map ?_))
  rw [hx]
  exact Reads.pure x

/-- The annotations that are read back: the size is in seven bits and the id in three bytes. -/
def InstructionAnnotation.Fits (a : InstructionAnnotation) : Prop :=
  a.id.toNat < 2 ^ 24 ∧ a.payload.length ≤ maxAnnotationBytes

/-- One annotation, and a computation that goes on with whether it is the last one. -/
theorem writeAnnotation_reads {a : InstructionAnnotation} (h : a.Fits) (isLast : Bool)
    {f : UInt8 → UInt32 → List UInt8 → Reader β}
    (hf : ∀ b, (b &&& 0x80 = 0 ↔ isLast = true) → Reads (f b a.id a.payload) bytes r) :
    Reads (do
      let b ← readByte
      let id ← readAnnotationId
      let payload ← readBytes (b &&& 0x7f).toNat
      f b id payload) ( writeAnnotation a isLast ++ bytes) r := by
  obtain ⟨hid, hsize⟩ := h
  have hlt : a.payload.length < 128 := Nat.lt_succ_of_le hsize
  obtain ⟨hlength, hlast⟩ := size_byte ⟨a.payload.length, hlt⟩ isLast
  have htake : a.payload.take (a.payload.length % 256) = a.payload := by
    rw [Nat.mod_eq_of_lt (by omega), List.take_length]
  rw [ writeAnnotation, htake, List.append_assoc, List.append_assoc]
  refine (reads_readByte _).bind ((idBytes_reads hid).bind ?_)
  dsimp only at hlength
  rw [hlength]
  exact (reads_readBytes a.payload).bind (hf _ hlast)

theorem writeAnnotations_reads {annotations : List InstructionAnnotation}
    (h : ∀ a ∈ annotations, a.Fits) (hne : annotations ≠ []) (hn : annotations.length ≤ n) :
    Reads (readAnnotationsLoop n) (writeAnnotations annotations) annotations := by
  induction annotations generalizing n with
  | nil => exact (hne rfl).elim
  | cons a annotations ih =>
    obtain ⟨n, rfl⟩ : ∃ k, n = k + 1 := ⟨n - 1, by rw [List.length_cons] at hn; omega⟩
    rw [readAnnotationsLoop, writeAnnotations]
    refine writeAnnotation_reads (h a List.mem_cons_self) _ fun b hb => ?_
    cases annotations with
    | nil =>
      rw [if_pos (hb.2 rfl)]
      exact Reads.pure _
    | cons a' annotations =>
      rw [if_neg (mt hb.1 Bool.false_ne_true)]
      have htail := ih (fun x hx => h x (List.mem_cons_of_mem a hx)) (List.cons_ne_nil _ _)
        (Nat.le_of_succ_le_succ hn)
      exact htail.map (Reads.pure _)

theorem length_le_writeAnnotations (annotations : List InstructionAnnotation) :
    annotations.length ≤ (writeAnnotations annotations).length := by
  induction annotations with
  | nil => exact Nat.le_refl 0
  | cons a annotations ih =>
    rw [writeAnnotations, writeAnnotation, List.length_append, List.length_append,
      List.length_cons, List.length_cons]
    omega

/-- The annotations are read back if the attribute says whether there are any. -/
theorem readAnnotations_reads {annotations : List InstructionAnnotation} {iAttr : UInt8}
    (h : ∀ a ∈ annotations, a.Fits)
    (hannote : iAttr &&& iaAnnote ≠ 0 ↔ (!annotations.isEmpty) = true) :
    Reads (readAnnotations iAttr) (writeAnnotations annotations) annotations := by
  intro rest
  rw [readAnnotations]
  cases annotations with
  | nil =>
    rw [if_neg (mt hannote.1 Bool.false_ne_true)]
    rfl
  | cons a annotations =>
    rw [if_pos (hannote.2 rfl)]
    have hlength := length_le_writeAnnotations (a :: annotations)
    refine writeAnnotations_reads h (List.cons_ne_nil _ _) ?_ rest
    rw [List.length_append]
    omega

def Data.normal : Data → Data
  | .move m => .move m.normal
  | .immediate i => .immediate i

def InstructionElement.normal (e : InstructionElement) : InstructionElement :=
  { e with data := e.data.normal }

/-- The domain of the format: the writer accepts the types of a move, and the version of the format
can hold its ids and those of the annotations. -/
def InstructionElement.Valid (st : StreamSettings) (e : InstructionElement) : Prop :=
  (∀ a ∈ e.annotations, a.id.toNat < 2 ^ 24) ∧
    match e.data with
    | .move m => m.Typed ∧ m.IdsFit st
    | .immediate _ => True

/-- The length of an immediate fits into four bits, and that of an annotation into seven. -/
def InstructionElement.SizesFit (e : InstructionElement) : Prop :=
  (∀ a ∈ e.annotations, a.payload.length ≤ maxAnnotationBytes) ∧
    match e.data with
    | .move _ => True
    | .immediate i => i.value.length ≤ 15

def Data.isImmediate : Data → Bool
  | .move _ => false
  | .immediate _ => true

theorem readDataField_move {iAttr : UInt8} (h : iAttr &&& iaType = 0)
    (hread : Reads (readMove st iAttr) bytes m) : Reads (readDataField st iAttr) bytes (.move m) := by
  rw [readDataField, if_neg (fun hne => hne h)]
  exact hread.map (Reads.pure _)

theorem readDataField_immediate {iAttr : UInt8} (h : iAttr &&& iaType ≠ 0)
    (hread : Reads (readImmediate iAttr) bytes i) :
    Reads (readDataField st iAttr) bytes (.immediate i) := by
  rw [readDataField, if_pos h]
  exact hread.map (Reads.pure _)

/-- The data of an element is read back with the attribute of the element. -/
theorem writeDataField_reads {e : InstructionElement} (hvalid : e.Valid st) (hsizes : e.SizesFit)
    (hswap : st.needsSwap = true ∨ e.data.isImmediate = true) (isEnd : Bool) :
    ∃ bytes, writeDataField st e.data = .ok bytes ∧
      Reads (readDataField st (attributeField e isEnd)) bytes e.data.normal ∧
      (attributeField e isEnd &&& iaAnnote ≠ 0 ↔ (!e.annotations.isEmpty) = true) ∧
      (attributeField e isEnd &&& iaEnd ≠ 0 ↔ isEnd = true) := by
  obtain ⟨isBegin, data, annotations⟩ := e
  cases data with
  | move m =>
    obtain ⟨htyped, hids⟩ := hvalid.2
    have hswap := hswap.resolve_right Bool.false_ne_true
    obtain ⟨htype, hguard, hempty, hannote, hend⟩ :=
      move_attribute m.isGuarded m.isEmpty (!annotations.isEmpty) isEnd
    obtain ⟨bytes, hwrite, hread⟩ := writeMove_reads hswap htyped hids hguard hempty
    exact ⟨bytes, hwrite, readDataField_move htype hread, hannote, hend⟩
  | immediate i =>
    have hlength : i.value.length ≤ 15 := hsizes.2
    obtain ⟨htype, hnibble, hannote, hend⟩ :=
      immediate_attribute ⟨i.value.length, Nat.lt_succ_of_le hlength⟩ (!annotations.isEmpty) isEnd
    obtain ⟨bytes, hwrite, hread⟩ := writeImmediate_reads hlength hnibble
    exact ⟨bytes, hwrite, readDataField_immediate htype hread, hannote, hend⟩

theorem writeElement_reads {e : InstructionElement} (hvalid : e.Valid st) (hsizes : e.SizesFit)
    (hswap : st.needsSwap = true ∨ e.data.isImmediate = true) (isEnd : Bool) :
    ∃ bytes, writeElement st e isEnd = .ok bytes ∧ bytes ≠ [] ∧
      Reads (readElement st e.isBegin) bytes (e.normal, isEnd) := by
  obtain ⟨data, hwrite, hread, hannote, hend⟩ := writeDataField_reads hvalid hsizes hswap isEnd
  have hfits : ∀ a ∈ e.annotations, a.Fits := fun a ha => ⟨hvalid.1 a ha, hsizes.1 a ha⟩
  refine ⟨[attributeField e isEnd] ++ (data ++ writeAnnotations e.annotations), ?_,
    List.cons_ne_nil _ _, ?_⟩
  · rw [writeElement, hwrite]
    rfl
  · refine (reads_readByte _).bind (hread.bind ((readAnnotations_reads hfits hannote).map ?_))
    have hflag : decide (attributeField e isEnd &&& iaEnd ≠ 0) = isEnd := by
      rw [Bool.eq_iff_iff, decide_eq_true_iff]
      exact hend
    rw [hflag]
    exact Reads.pure _

/-- The loop reads the elements of the section one by one. The invariant is that the bytes left are
those of the elements left, and that the flag is the beginning flag of the next one. -/
theorem writeElements_reads {elements : List InstructionElement}
    (hvalid : ∀ e ∈ elements, e.Valid st) (hsizes : ∀ e ∈ elements, e.SizesFit)
    (hswap : ∀ e ∈ elements, st.needsSwap = true ∨ e.data.isImmediate = true) :
    ∃ bytes, writeElements st elements = .ok bytes ∧ ∀ n, bytes.length ≤ n →
      Reads (readLoop st n bytes.length (endsInstruction elements)) bytes
        (elements.map InstructionElement.normal) := by
  induction elements with
  | nil =>
    refine ⟨[], rfl, fun n _ => ?_⟩
    rw [List.length_nil, readLoop]
    exact Reads.pure []
  | cons e elements ih =>
    obtain ⟨first, hwrite, hne, hread⟩ := writeElement_reads (hvalid e List.mem_cons_self)
      (hsizes e List.mem_cons_self) (hswap e List.mem_cons_self) (endsInstruction elements)
    obtain ⟨bytes, hwrites, hreads⟩ := ih (fun x hx => hvalid x (List.mem_cons_of_mem e hx))
      (fun x hx => hsizes x (List.mem_cons_of_mem e hx))
      (fun x hx => hswap x (List.mem_cons_of_mem e hx))
    refine ⟨first ++ bytes, ?_, fun n hn rest => ?_⟩
    · rw [writeElements, hwrite, hwrites]
      rfl
    · have hpos : 0 < first.length := List.length_pos_iff.2 hne
      rw [List.length_append] at hn ⊢
      obtain ⟨n, rfl⟩ : ∃ k, n = k + 1 := ⟨n - 1, by omega⟩
      obtain ⟨left, hleft⟩ : ∃ k, first.length + bytes.length = k + 1 :=
        ⟨first.length + bytes.length - 1, by omega⟩
      have hrest : left + 1 - ((first ++ (bytes ++ rest)).length - (bytes ++ rest).length) =
          bytes.length := by
        simp only [List.length_append]
        omega
      rw [hleft, readLoop, List.append_assoc]
      dsimp only
      rw [show endsInstruction (e :: elements) = e.isBegin from rfl, hread]
      dsimp only [bind, Except.bind]
      rw [hrest, hreads n (by omega)]
      rfl

theorem yields_readImmediate (iAttr : UInt8) :
    Yields (readImmediate iAttr) fun i => i.value.length ≤ 15 := by
  refine Yields.next fun unit => Yields.next fun index => (yields_readBytes _).bind fun l hl => ?_
  refine Yields.pure ?_
  have hlt : iAttr.toNat < 256 := iAttr.toNat_lt
  dsimp only
  omega

theorem yields_readDataField (st : StreamSettings) (iAttr : UInt8) :
    Yields (readDataField st iAttr) fun d => ∀ i, d = .immediate i → i.value.length ≤ 15 := by
  rw [readDataField]
  split
  · refine (yields_readImmediate iAttr).bind fun i hi => Yields.pure ?_
    intro j hj
    cases hj
    exact hi
  · refine Yields.next fun m => Yields.pure ?_
    intro i hi
    cases hi

theorem and_7f_le (b : UInt8) : (b &&& 0x7f).toNat ≤ 127 := by
  rw [UInt8.toNat_and]
  exact Nat.and_le_right

theorem yields_readAnnotationsLoop (n : Nat) :
    Yields (readAnnotationsLoop n) fun l => ∀ a ∈ l, a.payload.length ≤ maxAnnotationBytes := by
  induction n with
  | zero => exact Yields.fail _
  | succ n ih =>
    refine Yields.next fun b => Yields.next fun x => (yields_readBytes _).bind fun payload hl => ?_
    have hsize : payload.length ≤ maxAnnotationBytes := Nat.le_trans (Nat.le_of_eq hl) (and_7f_le b)
    split
    · refine Yields.pure fun a ha => ?_
      rw [List.mem_singleton.1 ha]
      exact hsize
    · refine ih.bind fun rest hrest => Yields.pure fun a ha => ?_
      cases ha with
      | head => exact hsize
      | tail _ ha => exact hrest a ha

theorem yields_readAnnotations (iAttr : UInt8) :
    Yields (readAnnotations iAttr) fun l => ∀ a ∈ l, a.payload.length ≤ maxAnnotationBytes := by
  intro s l s' heq
  rw [readAnnotations] at heq
  split at heq
  · exact yields_readAnnotationsLoop _ s l s' heq
  · cases heq
    exact List.forall_mem_nil _

theorem yields_readElement (st : StreamSettings) (isBegin : Bool) :
    Yields (readElement st isBegin) fun r => r.1.SizesFit := by
  refine Yields.next fun iAttr => (yields_readDataField st iAttr).bind fun d hd => ?_
  refine (yields_readAnnotations iAttr).bind fun l hl => Yields.pure ⟨hl, ?_⟩
  cases d with
  | move m => trivial
  | immediate i => exact hd i rfl

/-- Whatever the bytes are, the lengths of what is read fit into their bits. -/
theorem yields_readLoop (st : StreamSettings) (n left : Nat) (isBegin : Bool) :
    Yields (readLoop st n left isBegin) fun l => ∀ e ∈ l, e.SizesFit := by
  induction n generalizing left isBegin with
  | zero =>
    cases left with
    | zero => exact Yields.pure (List.forall_mem_nil _)
    | succ left => exact Yields.fail _
  | succ n ih =>
    cases left with
    | zero => exact Yields.pure (List.forall_mem_nil _)
    | succ left =>
      intro s l s' heq
      obtain ⟨first, hfirst, heq⟩ := Except.bind_ok heq
      obtain ⟨rest, hrest, heq⟩ := Except.bind_ok heq
      cases heq
      intro e he
      cases he with
      | head => exact yields_readElement st isBegin s _ _ hfirst
      | tail _ he => exact ih _ _ _ _ _ hrest e he

theorem writeHalfWord_ok (h : writeHalfWord st x = .ok bytes) : st.needsSwap = true := by
  rw [writeHalfWord] at h
  split at h
  · assumption
  · cases h

/-- A move is written only if the byte order is swapped. -/
theorem writeElements_needsSwap (h : writeElements st elements = .ok bytes) :
    ∀ e ∈ elements, st.needsSwap = true ∨ e.data.isImmediate = true := by
  induction elements generalizing bytes with
  | nil => exact List.forall_mem_nil _
  | cons e elements ih =>
    obtain ⟨first, hfirst, h⟩ := Except.bind_ok h
    obtain ⟨rest, hrest, h⟩ := Except.bind_ok h
    intro x hx
    cases hx with
    | tail _ hx => exact ih hrest x hx
    | head =>
      obtain ⟨data, hdata, hfirst⟩ := Except.bind_ok hfirst
      cases hd : e.data with
      | immediate i => exact .inr rfl
      | move m =>
        left
        rw [hd] at hdata
        obtain ⟨bus, hbus, hdata⟩ := Except.bind_ok hdata
        obtain ⟨types, htypes, hdata⟩ := Except.bind_ok hdata
        obtain ⟨unit, hunit, hdata⟩ := Except.bind_ok hdata
        obtain ⟨index, hindex, hdata⟩ := Except.bind_ok hdata
        exact writeHalfWord_ok hindex

/-- The fields of a move that the format does not keep have the values of a new move. -/
def MoveElement.Kept (m : MoveElement) : Prop :=
  (m.isEmpty = true → m.sourceType = .null ∧ m.destinationType = .null ∧ m.isGuarded = false) ∧
    (m.isGuarded = false → m.isGuardInverted = false ∧ m.guardType = .null)

theorem MoveElement.normal_eq_iff (m : MoveElement) : m.normal = m ↔ m.Kept := by
  obtain ⟨empty, bus, st, su, si, dt, du, di, guarded, inverted, gt, gu, gi⟩ := m
  cases empty with
  | true =>
    cases guarded with
    | true => simp [MoveElement.normal, MoveElement.Kept]
    | false => simp [MoveElement.normal, MoveElement.Kept, eq_comm, and_assoc]
  | false =>
    cases guarded with
    | true => simp [MoveElement.normal, MoveElement.Kept]
    | false => simp [MoveElement.normal, MoveElement.Kept, eq_comm]

theorem InstructionElement.normal_eq_iff (e : InstructionElement) :
    e.normal = e ↔ ∀ m, e.data = .move m → m.Kept := by
  obtain ⟨isBegin, data, annotations⟩ := e
  cases data with
  | move m => simp [InstructionElement.normal, Data.normal, MoveElement.normal_eq_iff]
  | immediate i => simp [InstructionElement.normal, Data.normal]

theorem map_normal_eq_iff (elements : List InstructionElement) :
    elements.map InstructionElement.normal = elements ↔ ∀ e ∈ elements, e.normal = e := by
  induction elements with
  | nil => simp
  | cons e elements ih => simp [ih]

/-- What the format can hold of an element: the lengths fit into their bits, and the fields of a
move that are not kept are those of a new move. -/
def InstructionElement.Regular (e : InstructionElement) : Prop :=
  e.SizesFit ∧ ∀ m, e.data = .move m → m.Kept

/-- The section is written, and what is read from its bytes, and from no others, is the section. -/
def RoundTrips (st : StreamSettings) (elements : List InstructionElement) : Prop :=
  ∃ bytes, actualWriteData st elements = .ok bytes ∧
    Reads (readData st bytes.length) bytes elements

theorem actualWriteData_cons :
    actualWriteData st (e :: elements) = writeElements st (e :: elements) := by
  rw [actualWriteData]
  cases writeElements st (e :: elements) with
  | error f => rfl
  | ok bytes =>
    change (if e :: elements = [] then (.error .undefined : Outcome (List UInt8)) else .ok bytes) = _
    rw [if_neg (List.cons_ne_nil e elements)]

/-- What is read from the bytes of a section whose lengths fit. -/
theorem readData_writeElements (hbegin : e.isBegin = true)
    (hvalid : ∀ x ∈ e :: elements, x.Valid st) (hsizes : ∀ x ∈ e :: elements, x.SizesFit)
    (hswap : ∀ x ∈ e :: elements, st.needsSwap = true ∨ x.data.isImmediate = true) :
    ∃ bytes, writeElements st (e :: elements) = .ok bytes ∧
      Reads (readData st bytes.length) bytes ((e :: elements).map InstructionElement.normal) := by
  obtain ⟨bytes, hwrite, hread⟩ := writeElements_reads hvalid hsizes hswap
  refine ⟨bytes, hwrite, fun rest => ?_⟩
  have h := hread (bytes ++ rest).length (by rw [List.length_append]; omega) rest
  rwa [endsInstruction, hbegin] at h

/-- An instruction of a guarded move and a long immediate with an annotation. -/
def guardedWithImmediate : List InstructionElement :=
  [⟨true, .move ⟨false, 1, .unit, 2, 3, .rf, 4, 5, true, true, .rf, 6, 7⟩, []⟩,
    ⟨false, .immediate ⟨1, 2, [10, 20, 30, 40]⟩, [⟨70000, [1, 2, 3]⟩]⟩]

end Tpef

end OpenAsip
