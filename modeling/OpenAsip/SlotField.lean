import Mathlib.Data.List.Perm.Basic
import OpenAsip.SocketCodeTable

namespace OpenAsip
set_option autoImplicit true

namespace Bem
open BEMTester

structure SocketEncoding where
  socketName : String
  code : Encoding
  socketCodes : Option SocketCodeTable
deriving DecidableEq

structure BridgeEncoding where
  bridgeName : String
  code : Encoding
deriving DecidableEq

structure ImmediateEncoding where
  code : Encoding
  immediateWidth : Nat
deriving DecidableEq

/-- `ImmediateEncoding::width`: the encoding and the immediate together. -/
def ImmediateEncoding.width (e : ImmediateEncoding) : Nat := e.code.width + e.immediateWidth

/-- The encodings that only source fields have. -/
structure SourceField where
  bridgeEncodings : List BridgeEncoding
  immEncoding : Option ImmediateEncoding
deriving DecidableEq

/-- `SlotField`. A destination field has no `source` part. -/
structure SlotField where
  componentIDPosition : Position
  extraBits : Nat
  encodings : List SocketEncoding
  nopEncoding : Option Encoding
  source : Option SourceField
deriving DecidableEq

namespace BEMTester

/-- One comparison of `canAddComponentEncoding`, for an existing encoding of the given width. -/
def isAmbiguousComponent (position : Position) (new existing : Encoding) (existingWidth : Nat) :
    Outcome Bool := do
  let commonBits ←
    commonBitCount new existing (calculateAlignment new.width existingWidth position)
  return decide (commonBits = new.width ∨ commonBits = existingWidth)

/-- Existing encodings, with their widths, that are compared one after the other. -/
def canAddBesideComponents (position : Position) (new : Encoding) :
    List (Encoding × Nat) → Outcome Bool
  | [] => .ok true
  | existing :: rest => do
    let found ← isAmbiguousComponent position new existing.1 existing.2
    if found then .ok false else canAddBesideComponents position new rest

def canAddComponentEncoding (field : SlotField) (new : Encoding) : Outcome Bool :=
  let sockets := field.encodings.map fun e => (e.code, e.code.width)
  match field.source with
  | none => canAddBesideComponents field.componentIDPosition new sockets
  | some sField =>
    let bridges := sField.bridgeEncodings.map fun e => (e.code, e.code.width)
    let immediate := sField.immEncoding.toList.map fun e => (e.code, e.width)
    let nop := field.nopEncoding.toList.map fun e => (e, e.width)
    canAddBesideComponents field.componentIDPosition new (sockets ++ bridges ++ immediate ++ nop)

end BEMTester

namespace SlotField

def alreadyExists : Outcome α := .error (.exception .objectAlreadyExists)

/-- The check that all operations make for the new encoding. -/
def checkComponent (field : SlotField) (hasEncoding : Bool) (new : Encoding) : Outcome Unit :=
  if hasEncoding then alreadyExists
  else do
    let canAdd ← canAddComponentEncoding field new
    if canAdd then .ok () else alreadyExists

def hasSocketEncoding (field : SlotField) (socket : String) : Bool :=
  field.encodings.any fun e => e.socketName = socket

def addSocketEncoding (field : SlotField) (encoding : SocketEncoding) : Outcome SlotField := do
  field.checkComponent (field.hasSocketEncoding encoding.socketName) encoding.code
  .ok { field with encodings := field.encodings ++ [encoding] }

def setNoOperationEncoding (field : SlotField) (encoding : Encoding) : Outcome SlotField := do
  field.checkComponent field.nopEncoding.isSome encoding
  .ok { field with nopEncoding := some encoding }

def hasBridgeEncoding (sField : SourceField) (bridge : String) : Bool :=
  sField.bridgeEncodings.any fun e => e.bridgeName = bridge

/-- `SourceField::addBridgeEncoding`, for the source part of the field. -/
def addBridgeEncoding (field : SlotField) (sField : SourceField) (encoding : BridgeEncoding) :
    Outcome SlotField := do
  field.checkComponent (hasBridgeEncoding sField encoding.bridgeName) encoding.code
  if sField.bridgeEncodings.length = 2 then alreadyExists
  else .ok { field with
    source := some { sField with bridgeEncodings := sField.bridgeEncodings ++ [encoding] } }

/-- `SourceField::setImmediateEncoding`, for the source part of the field. -/
def setImmediateEncoding (field : SlotField) (sField : SourceField)
    (encoding : ImmediateEncoding) : Outcome SlotField := do
  field.checkComponent sField.immEncoding.isSome encoding.code
  .ok { field with source := some { sField with immEncoding := some encoding } }

/-- `SocketEncoding::setEncoding`, called for the socket encoding at the given position. When the
new encoding is rejected the old one is added again, and when that is rejected too the socket
encoding stays detached. -/
def setEncoding (field : SlotField) (index : Nat) (new : Encoding) : Outcome SlotField :=
  match field.encodings[index]? with
  | none => .ok field
  | some socket =>
    let detached := { field with encodings := field.encodings.eraseIdx index }
    match detached.addSocketEncoding { socket with code := new } with
    | .error (.exception .objectAlreadyExists) =>
      attempt detached (detached.addSocketEncoding socket)
    | r => r

/-- The constructions and destructions of encodings, and the changes of a socket encoding. A socket
or bridge encoding is given by its position. -/
inductive Step where
  | addSocket (encoding : SocketEncoding)
  | removeSocket (index : Nat)
  | addNOP (encoding : Encoding)
  | removeNOP
  | addBridge (encoding : BridgeEncoding)
  | removeBridge (index : Nat)
  | addImmediate (encoding : ImmediateEncoding)
  | removeImmediate
  | setEncoding (index : Nat) (encoding : Encoding)
deriving DecidableEq

/-- The changes of the source part, which a destination field does not have. -/
def onSource (field : SlotField) (change : SourceField → Outcome SlotField) : Outcome SlotField :=
  match field.source with
  | none => .ok field
  | some sField => attempt field (change sField)

def step (field : SlotField) : Step → Outcome SlotField
  | .addSocket e => attempt field (field.addSocketEncoding e)
  | .removeSocket i => .ok { field with encodings := field.encodings.eraseIdx i }
  | .addNOP e => attempt field (field.setNoOperationEncoding e)
  | .removeNOP => .ok { field with nopEncoding := none }
  | .addBridge e => field.onSource (field.addBridgeEncoding · e)
  | .removeBridge i => field.onSource fun s =>
    .ok { field with source := some { s with bridgeEncodings := s.bridgeEncodings.eraseIdx i } }
  | .addImmediate e => field.onSource (field.setImmediateEncoding · e)
  | .removeImmediate => field.onSource fun s =>
    .ok { field with source := some { s with immEncoding := none } }
  | .setEncoding i e => field.setEncoding i e

def empty (componentIDPosition : Position) (extraBits : Nat) (source : Bool) : SlotField :=
  ⟨componentIDPosition, extraBits, [], none, if source then some ⟨[], none⟩ else none⟩

/-- The ID codes of the bridges and the immediate. -/
def sourceCodes (field : SlotField) : List Encoding :=
  match field.source with
  | none => []
  | some s => s.bridgeEncodings.map BridgeEncoding.code ++
    s.immEncoding.toList.map ImmediateEncoding.code

/-- The ID codes of all components of the field. -/
def componentCodes (field : SlotField) : List Encoding :=
  field.encodings.map SocketEncoding.code ++ field.nopEncoding.toList ++ field.sourceCodes

/-- No ID code can be taken for another one. -/
def Unambiguous (field : SlotField) : Prop :=
  field.componentCodes.Pairwise fun a b => ¬ Ambiguous field.componentIDPosition a b

/-- The codes of the field that a new code is not compared with as they stand: the NOP encoding of
a destination field and, with its immediate, the immediate encoding of a source field. -/
def missedCodes (field : SlotField) : List Encoding :=
  match field.source with
  | none => field.nopEncoding.toList
  | some s => (s.immEncoding.toList.filter fun e => e.immediateWidth ≠ 0).map ImmediateEncoding.code

def Step.code : Step → Option Encoding
  | .addSocket e => some e.code
  | .addNOP e => some e
  | .addBridge e => some e.code
  | .addImmediate e => some e.code
  | .setEncoding _ e => some e
  | _ => none

/-- The new code is not ambiguous with the codes that it is not compared with. -/
def Step.Apart (field : SlotField) (a : Step) : Prop :=
  ∀ e ∈ a.code, ∀ missed ∈ field.missedCodes, ¬ Ambiguous field.componentIDPosition e missed

instance (field : SlotField) : Decidable field.Unambiguous :=
  inferInstanceAs (Decidable (field.componentCodes.Pairwise _))

instance (field : SlotField) (a : Step) : Decidable (a.Apart field) :=
  inferInstanceAs (Decidable (∀ e ∈ a.code, ∀ missed ∈ field.missedCodes,
    ¬ Ambiguous field.componentIDPosition e missed))

theorem isAmbiguousComponent_false
    (h : isAmbiguousComponent position new existing existing.width = .ok false) :
    ¬ Ambiguous position new existing := by
  obtain ⟨n, hn, h⟩ := Except.bind_ok h
  rw [← commonBitCount_iff hn]
  have hd : decide (n = new.width ∨ n = existing.width) = false := by injection h
  exact of_decide_eq_false hd

theorem canAddBesideComponents_true (h : canAddBesideComponents position new codes = .ok true) :
    ∀ e, (e, e.width) ∈ codes → ¬ Ambiguous position new e := by
  induction codes with
  | nil =>
    intro e he
    cases he
  | cons c codes ih =>
    obtain ⟨found, hc, h⟩ := Except.bind_ok h
    cases found with
    | true => cases h
    | false =>
      intro e he
      rcases List.mem_cons.1 he with rfl | he
      · exact isAmbiguousComponent_false hc
      · exact ih h e he

/-- An accepted code is not ambiguous with any code but those that it is not compared with. -/
theorem canAddComponentEncoding_true {field : SlotField}
    (h : canAddComponentEncoding field new = .ok true)
    (hmissed : ∀ c ∈ field.missedCodes, ¬ Ambiguous field.componentIDPosition new c) :
    ∀ c ∈ field.componentCodes, ¬ Ambiguous field.componentIDPosition new c := by
  intro c hc
  rw [canAddComponentEncoding] at h
  rw [missedCodes] at hmissed
  rw [componentCodes, sourceCodes] at hc
  cases hs : field.source with
  | none =>
    rw [hs] at h hmissed hc
    rw [List.append_nil] at hc
    rcases List.mem_append.1 hc with hc | hc
    · obtain ⟨e, he, rfl⟩ := List.mem_map.1 hc
      exact canAddBesideComponents_true h _ (List.mem_map_of_mem he)
    · exact hmissed c hc
  | some s =>
    rw [hs] at h hmissed hc
    have hall := canAddBesideComponents_true h
    simp only [List.mem_append, List.mem_map, Prod.mk.injEq] at hall
    rcases List.mem_append.1 hc with hc | hc
    · rcases List.mem_append.1 hc with hc | hc
      · obtain ⟨e, he, rfl⟩ := List.mem_map.1 hc
        exact hall _ (.inl (.inl (.inl ⟨e, he, rfl, rfl⟩)))
      · exact hall _ (.inr ⟨c, hc, rfl, rfl⟩)
    · rcases List.mem_append.1 hc with hc | hc
      · obtain ⟨e, he, rfl⟩ := List.mem_map.1 hc
        exact hall _ (.inl (.inl (.inr ⟨e, he, rfl, rfl⟩)))
      · obtain ⟨e, he, rfl⟩ := List.mem_map.1 hc
        by_cases hw : e.immediateWidth = 0
        · refine hall _ (.inl (.inr ⟨e, he, rfl, ?_⟩))
          rw [ImmediateEncoding.width, hw, Nat.add_zero]
        · apply hmissed
          apply List.mem_map_of_mem
          exact List.mem_filter.2 ⟨he, decide_eq_true hw⟩

theorem missedCodes_subset {field : SlotField} (h : c ∈ field.missedCodes) :
    c ∈ field.componentCodes := by
  rw [missedCodes] at h
  rw [componentCodes, sourceCodes]
  cases hs : field.source with
  | none =>
    rw [hs] at h
    exact List.mem_append_left _ (List.mem_append_right _ h)
  | some s =>
    rw [hs] at h
    obtain ⟨e, he, rfl⟩ := List.mem_map.1 h
    exact List.mem_append_right _
      (List.mem_append_right _ (List.mem_map_of_mem (List.mem_filter.1 he).1))

/-- What an accepted addition does to the codes of a field. -/
structure Added (field : SlotField) (c : Encoding) (field' : SlotField) : Prop where
  canAdd : canAddComponentEncoding field c = .ok true
  position : field'.componentIDPosition = field.componentIDPosition
  codes : field'.componentCodes.Perm (c :: field.componentCodes)

theorem checkComponent_ok (h : checkComponent field has new = .ok u) :
    has = false ∧ canAddComponentEncoding field new = .ok true := by
  rw [checkComponent] at h
  cases has with
  | true => cases h
  | false =>
    rw [if_neg Bool.false_ne_true] at h
    obtain ⟨canAdd, hc, h⟩ := Except.bind_ok h
    cases canAdd with
    | false => cases h
    | true => exact ⟨rfl, hc⟩

theorem addSocketEncoding_added (h : addSocketEncoding field e = .ok field') :
    field.Added e.code field' := by
  obtain ⟨u, hcheck, h⟩ := Except.bind_ok h
  cases h
  refine ⟨(checkComponent_ok hcheck).2, rfl, ?_⟩
  simp only [componentCodes, List.map_append, List.map_singleton, List.append_assoc,
    List.singleton_append]
  exact List.perm_middle

theorem setNoOperationEncoding_added (h : setNoOperationEncoding field e = .ok field') :
    field.Added e field' := by
  obtain ⟨u, hcheck, h⟩ := Except.bind_ok h
  cases h
  obtain ⟨hnone, hcan⟩ := checkComponent_ok hcheck
  refine ⟨hcan, rfl, ?_⟩
  have hnop : field.nopEncoding = none :=
    Option.isNone_iff_eq_none.1 (Option.isSome_eq_false_iff.1 hnone)
  simp only [componentCodes, hnop, Option.toList_some, Option.toList_none, List.append_assoc,
    List.singleton_append, List.nil_append]
  exact List.perm_middle

theorem addBridgeEncoding_added (hs : field.source = some s)
    (h : addBridgeEncoding field s e = .ok field') : field.Added e.code field' := by
  obtain ⟨u, hcheck, h⟩ := Except.bind_ok h
  split at h
  · cases h
  · cases h
    refine ⟨(checkComponent_ok hcheck).2, rfl, ?_⟩
    simp only [componentCodes, sourceCodes, hs, List.map_append, List.map_singleton,
      List.append_assoc, List.singleton_append]
    simp only [← List.append_assoc]
    exact List.perm_middle

theorem setImmediateEncoding_added (hs : field.source = some s)
    (h : setImmediateEncoding field s e = .ok field') : field.Added e.code field' := by
  obtain ⟨u, hcheck, h⟩ := Except.bind_ok h
  cases h
  obtain ⟨hnone, hcan⟩ := checkComponent_ok hcheck
  refine ⟨hcan, rfl, ?_⟩
  have himm : s.immEncoding = none :=
    Option.isNone_iff_eq_none.1 (Option.isSome_eq_false_iff.1 hnone)
  simp only [componentCodes, sourceCodes, hs, himm, Option.toList_some, Option.toList_none,
    List.map_nil, List.map_singleton, List.append_nil]
  rw [← List.append_assoc]
  exact List.perm_append_singleton _ _

/-- The field is unambiguous and its codes are at most 31 bits wide. -/
structure Valid (field : SlotField) : Prop where
  unambiguous : field.Unambiguous
  width_le : ∀ c ∈ field.componentCodes, c.width ≤ 31

theorem Valid.perm {field field' : SlotField} (h : field.Valid)
    (hpos : field'.componentIDPosition = field.componentIDPosition)
    (hp : field'.componentCodes.Perm field.componentCodes) : field'.Valid := by
  constructor
  · rw [Unambiguous, hpos]
    apply (List.Perm.pairwise_iff _ hp).2 h.unambiguous
    intro a b hab hba
    exact hab hba.symm
  · intro c hc
    exact h.width_le c (hp.subset hc)

theorem Valid.sublist {field field' : SlotField} (h : field.Valid)
    (hpos : field'.componentIDPosition = field.componentIDPosition)
    (hs : field'.componentCodes.Sublist field.componentCodes) : field'.Valid := by
  constructor
  · rw [Unambiguous, hpos]
    exact List.Pairwise.sublist hs h.unambiguous
  · intro c hc
    exact h.width_le c (hs.subset hc)

theorem Valid.added {field field' : SlotField} (h : field.Valid) (ha : field.Added c field')
    (hw : c.width ≤ 31)
    (hmissed : ∀ m ∈ field.missedCodes, ¬ Ambiguous field.componentIDPosition c m) :
    field'.Valid := by
  have hcodes := canAddComponentEncoding_true ha.canAdd hmissed
  constructor
  · rw [Unambiguous, ha.position]
    apply (List.Perm.pairwise_iff _ ha.codes).2
    · exact List.pairwise_cons.2 ⟨hcodes, h.unambiguous⟩
    · intro a b hab hba
      exact hab hba.symm
  · intro d hd
    rcases List.mem_cons.1 (ha.codes.subset hd) with rfl | hd
    · exact hw
    · exact h.width_le d hd

theorem canAddBesideComponents_ok (hn : new.width ≤ 32) (h : ∀ c ∈ codes, c.1.width ≤ 32) :
    ∃ canAdd, canAddBesideComponents position new codes = .ok canAdd := by
  induction codes with
  | nil => exact ⟨true, rfl⟩
  | cons c codes ih =>
    obtain ⟨n, hcount⟩ := commonBitCount_defined (.inl ⟨hn, h c List.mem_cons_self⟩)
      (calculateAlignment new.width c.2 position)
    rw [canAddBesideComponents, isAmbiguousComponent, hcount]
    change ∃ canAdd, (if decide (n = new.width ∨ n = c.2) = true then _ else _) = _
    split
    · exact ⟨false, rfl⟩
    · exact ih fun d hd => h d (List.mem_cons_of_mem c hd)

theorem Valid.canAddComponentEncoding_ok {field : SlotField} (h : field.Valid)
    (hn : new.width ≤ 31) : ∃ canAdd, canAddComponentEncoding field new = .ok canAdd := by
  have hw : ∀ c ∈ field.componentCodes, c.width ≤ 32 := fun c hc =>
    Nat.le_succ_of_le (h.width_le c hc)
  simp only [componentCodes, sourceCodes, List.mem_append] at hw
  rw [canAddComponentEncoding]
  cases hs : field.source with
  | none =>
    apply canAddBesideComponents_ok (Nat.le_succ_of_le hn)
    intro c hc
    obtain ⟨e, he, rfl⟩ := List.mem_map.1 hc
    exact hw _ (.inl (.inl (List.mem_map_of_mem he)))
  | some s =>
    rw [hs] at hw
    apply canAddBesideComponents_ok (Nat.le_succ_of_le hn)
    intro c hc
    simp only [List.mem_append] at hc
    rcases hc with ((hc | hc) | hc) | hc
    · obtain ⟨e, he, rfl⟩ := List.mem_map.1 hc
      exact hw _ (.inl (.inl (List.mem_map_of_mem he)))
    · obtain ⟨e, he, rfl⟩ := List.mem_map.1 hc
      exact hw _ (.inr (List.mem_append_left _ (List.mem_map_of_mem he)))
    · obtain ⟨e, he, rfl⟩ := List.mem_map.1 hc
      exact hw _ (.inr (List.mem_append_right _ (List.mem_map_of_mem he)))
    · obtain ⟨e, he, rfl⟩ := List.mem_map.1 hc
      exact hw _ (.inl (.inr he))

/-- A check of codes of at most 31 bits passes or throws `ObjectAlreadyExists`. -/
theorem Valid.checkComponent_cases {field : SlotField} (h : field.Valid) (hn : new.width ≤ 31)
    (has : Bool) :
    field.checkComponent has new = .ok () ∨ field.checkComponent has new = alreadyExists := by
  rw [checkComponent]
  cases has with
  | true => exact .inr rfl
  | false =>
    rw [if_neg Bool.false_ne_true]
    obtain ⟨canAdd, hcan⟩ := h.canAddComponentEncoding_ok hn
    rw [hcan]
    cases canAdd with
    | true => exact .inl rfl
    | false => exact .inr rfl

theorem Valid.checkComponent_defined {field : SlotField} (h : field.Valid) (hn : new.width ≤ 31)
    (has : Bool) : (field.checkComponent has new).Defined := by
  rcases h.checkComponent_cases hn has with hc | hc
  · rw [hc]
    exact Outcome.defined_ok _
  · rw [hc]
    exact Outcome.defined_exception _

/-- An addition that returns or throws leaves a valid field. -/
theorem Valid.attempt {field : SlotField} (h : field.Valid) (hd : r.Defined)
    (hr : ∀ field', r = .ok field' → field'.Valid) :
    ∃ field', attempt field r = .ok field' ∧ field'.Valid := by
  obtain ⟨field', h'⟩ := hd.attempt_ok field
  refine ⟨field', h', ?_⟩
  rcases attempt_ok h' with rfl | hok
  · exact h
  · exact hr field' hok

theorem Valid.onSource {field : SlotField} (h : field.Valid)
    (hd : ∀ s, field.source = some s → (change s).Defined)
    (hr : ∀ s field', field.source = some s → change s = .ok field' → field'.Valid) :
    ∃ field', field.onSource change = .ok field' ∧ field'.Valid := by
  rw [SlotField.onSource]
  split
  · exact ⟨field, rfl, h⟩
  · rename_i s hs
    exact h.attempt (hd s hs) fun field' => hr s field' hs

theorem Valid.addSocketEncoding_cases {field : SlotField} (h : field.Valid)
    (hw : e.code.width ≤ 31) :
    (∃ field', field.addSocketEncoding e = .ok field') ∨
      field.addSocketEncoding e = alreadyExists := by
  rw [addSocketEncoding]
  rcases h.checkComponent_cases hw (field.hasSocketEncoding e.socketName) with hc | hc
  · rw [hc]
    exact .inl ⟨_, rfl⟩
  · rw [hc]
    exact .inr rfl

theorem Valid.attempt_addSocketEncoding {field : SlotField} (h : field.Valid)
    (hw : e.code.width ≤ 31)
    (hmissed : ∀ m ∈ field.missedCodes, ¬ Ambiguous field.componentIDPosition e.code m) :
    ∃ field', OpenAsip.attempt field (field.addSocketEncoding e) = .ok field' ∧ field'.Valid := by
  apply h.attempt
  · exact (h.checkComponent_defined hw _).bind fun _ _ => Outcome.defined_ok _
  · exact fun field' h' => h.added (addSocketEncoding_added h') hw hmissed

/-- The code of a socket beside the codes of the field without that socket. -/
theorem componentCodes_perm_eraseIdx {field : SlotField} (h : field.encodings[i]? = some e) :
    field.componentCodes.Perm
      (e.code :: componentCodes { field with encodings := field.encodings.eraseIdx i }) := by
  obtain ⟨hi, rfl⟩ := List.getElem?_eq_some_iff.1 h
  have hp := (List.getElem_cons_eraseIdx_perm hi).symm.map SocketEncoding.code
  simp only [componentCodes, List.append_assoc]
  exact hp.append_right _

theorem Valid.setEncoding {field : SlotField} (h : field.Valid) (hw : c.width ≤ 31)
    (hmissed : ∀ m ∈ field.missedCodes, ¬ Ambiguous field.componentIDPosition c m) (i : Nat) :
    ∃ field', field.setEncoding i c = .ok field' ∧ field'.Valid := by
  rw [SlotField.setEncoding]
  cases he : field.encodings[i]? with
  | none => exact ⟨field, rfl, h⟩
  | some e =>
    have hperm := componentCodes_perm_eraseIdx he
    have hdet : Valid { field with encodings := field.encodings.eraseIdx i } := by
      refine h.sublist rfl ?_
      exact ((List.eraseIdx_sublist _ i).map _).append (List.Sublist.refl _)
        |>.append (List.Sublist.refl _)
    dsimp only
    rcases hdet.addSocketEncoding_cases (e := { e with code := c }) hw with ⟨field', hadd⟩ | hadd
    · rw [hadd]
      exact ⟨field', rfl, hdet.added (addSocketEncoding_added hadd) hw hmissed⟩
    · rw [hadd]
      -- the old code is not ambiguous with any other code, because it was in the field
      have hcons := (List.Perm.pairwise_iff (fun hab hba => hab hba.symm) hperm).1 h.unambiguous
      apply hdet.attempt_addSocketEncoding
      · exact h.width_le _ (hperm.symm.subset List.mem_cons_self)
      · intro m hm
        exact (List.pairwise_cons.1 hcons).1 m (missedCodes_subset hm)

/-- A step with a code of at most 31 bits that is apart from the codes it is not compared with
returns and keeps the field valid. -/
theorem Valid.step {field : SlotField} (h : field.Valid) (a : Step)
    (hw : ∀ c ∈ a.code, c.width ≤ 31) (ha : a.Apart field) :
    ∃ field', field.step a = .ok field' ∧ field'.Valid := by
  cases a with
  | addSocket e => exact h.attempt_addSocketEncoding (hw _ rfl) (ha _ rfl)
  | removeSocket i =>
    refine ⟨_, rfl, h.sublist rfl ?_⟩
    exact ((List.eraseIdx_sublist _ i).map _).append (List.Sublist.refl _)
      |>.append (List.Sublist.refl _)
  | addNOP e =>
    apply h.attempt
    · exact (h.checkComponent_defined (hw _ rfl) _).bind fun _ _ => Outcome.defined_ok _
    · exact fun field' h' => h.added (setNoOperationEncoding_added h') (hw _ rfl) (ha _ rfl)
  | removeNOP =>
    refine ⟨_, rfl, h.sublist rfl ?_⟩
    exact ((List.Sublist.refl _).append (List.nil_sublist _)).append (List.Sublist.refl _)
  | addBridge e =>
    apply h.onSource
    · intro s hs
      apply (h.checkComponent_defined (hw _ rfl) _).bind
      intro _ _
      apply Outcome.Defined.ite
      · exact fun _ => Outcome.defined_exception _
      · exact fun _ => Outcome.defined_ok _
    · exact fun s field' hs h' => h.added (addBridgeEncoding_added hs h') (hw _ rfl) (ha _ rfl)
  | removeBridge i =>
    apply h.onSource (fun _ _ => Outcome.defined_ok _)
    intro s field' hs h'
    cases h'
    refine h.sublist rfl ?_
    simp only [componentCodes, sourceCodes, hs]
    apply (List.Sublist.refl _).append
    exact ((List.eraseIdx_sublist _ i).map _).append (List.Sublist.refl _)
  | addImmediate e =>
    apply h.onSource
    · exact fun s hs => (h.checkComponent_defined (hw _ rfl) _).bind fun _ _ =>
        Outcome.defined_ok _
    · exact fun s field' hs h' =>
        h.added (setImmediateEncoding_added hs h') (hw _ rfl) (ha _ rfl)
  | removeImmediate =>
    apply h.onSource (fun _ _ => Outcome.defined_ok _)
    intro s field' hs h'
    cases h'
    refine h.sublist rfl ?_
    simp only [componentCodes, sourceCodes, hs]
    exact (List.Sublist.refl _).append ((List.Sublist.refl _).append (List.nil_sublist _))
  | setEncoding i e => exact h.setEncoding (hw _ rfl) (ha _ rfl) i

theorem empty_valid (position : Position) (extraBits : Nat) (source : Bool) :
    (empty position extraBits source).Valid := by
  have hc : (empty position extraBits source).componentCodes = [] := by
    cases source with
    | true => rfl
    | false => rfl
  constructor
  · rw [Unambiguous, hc]
    exact List.Pairwise.nil
  · rw [hc]
    exact fun c h => (List.not_mem_nil h).elim

/-- In every run with codes of at most 31 bits in which each new code is apart from the codes it is
not compared with, no two codes of the field are ambiguous. -/
theorem run_unambiguous (position : Position) (extraBits : Nat) (source : Bool)
    (steps : List Step) (hw : ∀ a ∈ steps, ∀ c ∈ a.code, c.width ≤ 31)
    (h : Along step (fun field a => a.Apart field) (empty position extraBits source) steps) :
    ∃ field, steps.foldlM step (empty position extraBits source) = .ok field ∧
      field.Unambiguous := by
  have hstep (field : SlotField) (a : Step) (hmem : a ∈ steps) (hv : field.Valid)
      (ha : a.Apart field) : ∃ field', field.step a = .ok field' ∧ field'.Valid :=
    hv.step a (hw a hmem) ha
  obtain ⟨field, hrun, hv⟩ := Along.run Valid hstep (empty_valid position extraBits source) h
  exact ⟨field, hrun, hv.unambiguous⟩

/-- A socket, an immediate, a bridge and a NOP encoding in a source field, whose socket is then
given a longer code. -/
theorem run_unambiguous_source_field :
    ∃ field, [Step.addSocket ⟨"s1", ⟨0, 1, by decide, by decide⟩, none⟩,
        .addImmediate ⟨⟨2, 0, by decide, by decide⟩, 8⟩,
        .addBridge ⟨"b1", ⟨6, 0, by decide, by decide⟩⟩,
        .addNOP ⟨7, 0, by decide, by decide⟩,
        .setEncoding 0 ⟨0, 3, by decide, by decide⟩].foldlM step (empty .left 0 true) =
      .ok field ∧ field.Unambiguous := by
  apply run_unambiguous
  · decide
  · apply Along.cons (by decide) rfl
    apply Along.cons (by decide) rfl
    apply Along.cons (by decide) rfl
    apply Along.cons (by decide) rfl
    apply Along.cons (by decide) rfl
    trivial

/-- A destination field accepts a socket with the code of its NOP encoding, and a source field a
socket with the code of its immediate encoding. -/
theorem run_ambiguous_missed :
    (∃ field, [Step.addNOP ⟨1, 0, by decide, by decide⟩,
        .addSocket ⟨"s1", ⟨1, 0, by decide, by decide⟩, none⟩].foldlM step
          (empty .left 0 false) = .ok field ∧ ¬ field.Unambiguous) ∧
      ∃ field, [Step.addImmediate ⟨⟨1, 0, by decide, by decide⟩, 8⟩,
        .addSocket ⟨"s1", ⟨1, 0, by decide, by decide⟩, none⟩].foldlM step
          (empty .left 0 true) = .ok field ∧ ¬ field.Unambiguous :=
  ⟨⟨⟨.left, 0, [⟨"s1", ⟨1, 0, by decide, by decide⟩, none⟩],
      some ⟨1, 0, by decide, by decide⟩, none⟩, by decide, by decide⟩,
    ⟨.left, 0, [⟨"s1", ⟨1, 0, by decide, by decide⟩, none⟩], none,
      some ⟨[], some ⟨⟨1, 0, by decide, by decide⟩, 8⟩⟩⟩, by decide, by decide⟩

end SlotField

end Bem

end OpenAsip
