import OpenAsip.BEMTester

namespace OpenAsip
set_option autoImplicit true

namespace StringTools

def stringToLower (source : String) : List Char := source.toList.map Char.toLower

def ciEqual (a b : String) : Bool := stringToLower a = stringToLower b

theorem stringToLower_eq_nil : stringToLower s = [] ↔ s = "" := by
  rw [stringToLower, List.map_eq_nil_iff, String.toList_eq_nil_iff]

end StringTools

namespace Bem
open BEMTester StringTools

/-- `PortCode`. A code without port ID has no encoding. -/
structure PortCode where
  unitName : String
  code : Option Encoding
  indexWidth : Nat
deriving DecidableEq

namespace PortCode

def hasEncoding (c : PortCode) : Bool := c.code.isSome

def encoding (c : PortCode) : Outcome Encoding :=
  match c.code with
  | some e => .ok e
  | none => .error (.exception .notAvailable)

def width (c : PortCode) : Nat :=
  match c.code with
  | some e => e.width + c.indexWidth
  | none => c.indexWidth

def encodingWidth (c : PortCode) : Nat := c.width - c.indexWidth

/-- The port ID as a string of `encodingWidth` bits. -/
def bits (c : PortCode) : List Bool :=
  match c.code with
  | some e => e.bits
  | none => []

/-- The two port IDs, if there are two, are short enough to be compared. -/
def Comparable (c d : PortCode) : Prop :=
  ∀ e ∈ c.code, ∀ e' ∈ d.code, BEMTester.Comparable e e'

theorem encoding_ok (h : encoding c = .ok e) : c.code = some e := by
  rw [encoding] at h
  split at h
  · rename_i hc
    cases h
    exact hc
  · cases h

theorem encodingWidth_eq (h : c.code = some e) : encodingWidth c = e.width := by
  rw [encodingWidth, width, h]
  exact Nat.add_sub_cancel _ _

theorem bits_eq (h : c.code = some e) : bits c = e.bits := by
  rw [bits, h]

theorem length_bits (c : PortCode) : c.bits.length = c.encodingWidth := by
  rw [bits, encodingWidth, width]
  split
  · rw [Encoding.length_bits]
    exact (Nat.add_sub_cancel _ _).symm
  · exact (Nat.sub_self _).symm

end PortCode

/-- `FUPortCode`. A port of a function unit has no registers, and an empty operation name means
that no operation is identified. -/
structure FUPortCode extends PortCode where
  portName : String
  opName : String
  indexWidth_eq : indexWidth = 0 := by rfl
deriving DecidableEq

/-- The constructors of `FUPortCode`. -/
def FUPortCode.new (unitName portName opName : String) (code : Option Encoding) : FUPortCode where
  unitName := unitName
  code := code
  indexWidth := 0
  portName := portName
  opName := opName

def FUPortCode.hasOperation (c : FUPortCode) : Bool := c.opName ≠ ""

/-- What an FU port code is looked up by. -/
def FUPortCode.key (c : FUPortCode) : String × String × List Char :=
  (c.unitName, c.portName, stringToLower c.opName)

structure SocketCodeTable where
  fuPortCodes : List FUPortCode
  rfPortCodes : List PortCode
  iuPortCodes : List PortCode
  extraBits : Nat
deriving DecidableEq

namespace SocketCodeTable

def empty (extraBits : Nat) : SocketCodeTable := ⟨[], [], [], extraBits⟩

def hasFUPortCode (t : SocketCodeTable) (fu port : String) : Bool :=
  t.fuPortCodes.any fun c => c.unitName = fu && c.portName = port && !c.hasOperation

/-- The overload of `hasFUPortCode` with an operation name. -/
def hasFUPortCodeOperation (t : SocketCodeTable) (fu port operation : String) : Bool :=
  t.fuPortCodes.any fun c =>
    c.unitName = fu && c.portName = port && c.hasOperation && ciEqual c.opName operation

/-- The lookup by which `addFUPortCode` finds a code for the same port. -/
def hasCodeFor (t : SocketCodeTable) (code : FUPortCode) : Bool :=
  if code.hasOperation then t.hasFUPortCodeOperation code.unitName code.portName code.opName
  else t.hasFUPortCode code.unitName code.portName

def hasRFPortCode (t : SocketCodeTable) (regFile : String) : Bool :=
  t.rfPortCodes.any fun c => c.unitName = regFile

def hasIUPortCode (t : SocketCodeTable) (immediateUnit : String) : Bool :=
  t.iuPortCodes.any fun c => c.unitName = immediateUnit

/-- A list of one code, which has no encoding. -/
def hasSingleWithoutEncoding : List PortCode → Bool
  | [c] => !c.hasEncoding
  | _ => false

def hasRFOrIUPortCodeWithoutEncoding (t : SocketCodeTable) : Bool :=
  hasSingleWithoutEncoding t.rfPortCodes || hasSingleWithoutEncoding t.iuPortCodes

def containsPortCode (t : SocketCodeTable) : Bool :=
  t.fuPortCodes.length ≠ 0 || t.rfPortCodes.length ≠ 0 || t.iuPortCodes.length ≠ 0

end SocketCodeTable

namespace BEMTester

/-- Whether one code of the table is ambiguous with the new encoding. -/
def isAmbiguous (new : Encoding) (code : PortCode) : Outcome Bool := do
  let encoding ← code.encoding
  let commonBits ← commonBitCount new encoding ((code.encodingWidth : Int) - new.width)
  return decide (commonBits = new.width ∨ commonBits = code.encodingWidth)

/-- A loop of `canAddPortEncoding`. -/
def canAddBeside (new : Encoding) : List PortCode → Outcome Bool
  | [] => .ok true
  | code :: codes => do
    let found ← isAmbiguous new code
    if found then .ok false else canAddBeside new codes

def canAddPortEncoding (t : SocketCodeTable) (new : Encoding) : Outcome Bool := do
  let fu ← canAddBeside new (t.fuPortCodes.map FUPortCode.toPortCode)
  if fu then
    let rf ← canAddBeside new t.rfPortCodes
    if rf then canAddBeside new t.iuPortCodes else .ok false
  else .ok false

end BEMTester

namespace SocketCodeTable

def alreadyExists : Outcome α := .error (.exception .objectAlreadyExists)

def addFUPortCode (t : SocketCodeTable) (code : FUPortCode) : Outcome SocketCodeTable :=
  if t.hasRFOrIUPortCodeWithoutEncoding then alreadyExists
  else do
    let encoding ← code.encoding
    let canAdd ← canAddPortEncoding t encoding
    if ¬ canAdd then alreadyExists
    else if t.hasCodeFor code then alreadyExists
    else .ok { t with fuPortCodes := t.fuPortCodes ++ [code] }

/-- The checks that `addRFPortCode` and `addIUPortCode` make before they look for the unit. -/
def checkPortCode (t : SocketCodeTable) (code : PortCode) : Outcome Unit :=
  if !code.hasEncoding && t.containsPortCode then alreadyExists
  else if code.hasEncoding then do
    let encoding ← code.encoding
    let canAdd ← canAddPortEncoding t encoding
    if ¬ canAdd then alreadyExists else .ok ()
  else .ok ()

def addRFPortCode (t : SocketCodeTable) (code : PortCode) : Outcome SocketCodeTable := do
  t.checkPortCode code
  if t.hasRFPortCode code.unitName then alreadyExists
  else .ok { t with rfPortCodes := t.rfPortCodes ++ [code] }

def addIUPortCode (t : SocketCodeTable) (code : PortCode) : Outcome SocketCodeTable := do
  t.checkPortCode code
  if t.hasIUPortCode code.unitName then alreadyExists
  else .ok { t with iuPortCodes := t.iuPortCodes ++ [code] }

/-- The constructions and destructions of port codes. A destroyed code is given by its position. -/
inductive Step where
  | addFU (code : FUPortCode)
  | addRF (code : PortCode)
  | addIU (code : PortCode)
  | removeFU (index : Nat)
  | removeRF (index : Nat)
  | removeIU (index : Nat)
deriving DecidableEq

def step (t : SocketCodeTable) : Step → Outcome SocketCodeTable
  | .addFU code => attempt t (t.addFUPortCode code)
  | .addRF code => attempt t (t.addRFPortCode code)
  | .addIU code => attempt t (t.addIUPortCode code)
  | .removeFU index => .ok { t with fuPortCodes := t.fuPortCodes.eraseIdx index }
  | .removeRF index => .ok { t with rfPortCodes := t.rfPortCodes.eraseIdx index }
  | .removeIU index => .ok { t with iuPortCodes := t.iuPortCodes.eraseIdx index }

/-- All port codes of the table. -/
def portCodes (t : SocketCodeTable) : List PortCode :=
  t.fuPortCodes.map FUPortCode.toPortCode ++ (t.rfPortCodes ++ t.iuPortCodes)

/-- There is a single code, which consists of the register index alone. -/
def Unencoded (codes : List PortCode) : Prop := ∃ c, codes = [c] ∧ c.hasEncoding = false

/-- All codes have a port ID, and no port ID is a prefix of another one. -/
structure Encoded (codes : List PortCode) : Prop where
  hasEncoding : ∀ c ∈ codes, c.hasEncoding = true
  prefixFree : PrefixFree (codes.map PortCode.bits)

/-- No port, register file or immediate unit has two codes. -/
structure DistinctKeys (t : SocketCodeTable) : Prop where
  fu : (t.fuPortCodes.map FUPortCode.key).Nodup
  rf : (t.rfPortCodes.map PortCode.unitName).Nodup
  iu : (t.iuPortCodes.map PortCode.unitName).Nodup

structure Valid (t : SocketCodeTable) : Prop where
  fuEncoded : ∀ c ∈ t.fuPortCodes, c.hasEncoding = true
  shape : Unencoded t.portCodes ∨ Encoded t.portCodes
  keys : t.DistinctKeys

/-- Every encoding of the table can be compared with that of an added code. -/
def Step.Readable (t : SocketCodeTable) : Step → Prop
  | .addFU code => ∀ c ∈ t.portCodes, PortCode.Comparable code.toPortCode c
  | .addRF code => ∀ c ∈ t.portCodes, PortCode.Comparable code c
  | .addIU code => ∀ c ∈ t.portCodes, PortCode.Comparable code c
  | _ => True

instance (c d : PortCode) : Decidable (PortCode.Comparable c d) :=
  inferInstanceAs (Decidable (∀ e ∈ c.code, ∀ e' ∈ d.code, BEMTester.Comparable e e'))

instance (t : SocketCodeTable) : DecidablePred (Step.Readable t)
  | .addFU code => inferInstanceAs
    (Decidable (∀ c ∈ t.portCodes, PortCode.Comparable code.toPortCode c))
  | .addRF code => inferInstanceAs (Decidable (∀ c ∈ t.portCodes, PortCode.Comparable code c))
  | .addIU code => inferInstanceAs (Decidable (∀ c ∈ t.portCodes, PortCode.Comparable code c))
  | .removeFU _ => .isTrue trivial
  | .removeRF _ => .isTrue trivial
  | .removeIU _ => .isTrue trivial

theorem isAmbiguous_false (h : isAmbiguous new c = .ok false) :
    ∃ e, c.code = some e ∧ ¬ Ambiguous .left new e := by
  obtain ⟨e, he, h⟩ := Except.bind_ok h
  have hc : c.code = some e := PortCode.encoding_ok he
  obtain ⟨n, hn, h⟩ := Except.bind_ok h
  rw [PortCode.encodingWidth_eq hc] at hn h
  refine ⟨e, hc, ?_⟩
  rw [← commonBitCount_left hn]
  have hd : decide (n = new.width ∨ n = e.width) = false := by injection h
  exact of_decide_eq_false hd

theorem canAddBeside_true (h : canAddBeside new codes = .ok true) :
    ∀ c ∈ codes, ∃ e, c.code = some e ∧ ¬ Ambiguous .left new e := by
  induction codes with
  | nil =>
    intro c hc
    cases hc
  | cons d codes ih =>
    rw [canAddBeside] at h
    obtain ⟨found, hd, h⟩ := Except.bind_ok h
    cases found with
    | true => cases h
    | false =>
      intro c hc
      rcases List.mem_cons.1 hc with rfl | hc
      · exact isAmbiguous_false hd
      · exact ih h c hc

theorem canAddPortEncoding_true (h : canAddPortEncoding t new = .ok true) :
    ∀ c ∈ t.portCodes, ∃ e, c.code = some e ∧ ¬ Ambiguous .left new e := by
  rw [canAddPortEncoding] at h
  obtain ⟨fu, hfu, h⟩ := Except.bind_ok h
  cases fu with
  | false => cases h
  | true =>
    obtain ⟨rf, hrf, h⟩ := Except.bind_ok h
    cases rf with
    | false => cases h
    | true =>
      intro c hc
      rcases List.mem_append.1 hc with hc | hc
      · exact canAddBeside_true hfu c hc
      · rcases List.mem_append.1 hc with hc | hc
        · exact canAddBeside_true hrf c hc
        · exact canAddBeside_true h c hc

/-- The code may stand beside the codes already there. -/
def Accepts (codes : List PortCode) (c : PortCode) : Prop :=
  c.code = none ∧ codes = [] ∨
    ∃ e, c.code = some e ∧ ∀ d ∈ codes, ∃ e', d.code = some e' ∧ ¬ Ambiguous .left e e'

theorem Encoded.cons {codes : List PortCode} (h : Encoded codes) (he : c.code = some e)
    (hc : ∀ d ∈ codes, ∃ e', d.code = some e' ∧ ¬ Ambiguous .left e e') :
    Encoded (c :: codes) := by
  constructor
  · intro d hd
    rcases List.mem_cons.1 hd with rfl | hd
    · rw [PortCode.hasEncoding, he]
      rfl
    · exact h.hasEncoding d hd
  · apply List.Pairwise.cons _ h.prefixFree
    intro b hb
    obtain ⟨d, hd, rfl⟩ := List.mem_map.1 hb
    obtain ⟨e', he', hn⟩ := hc d hd
    rw [PortCode.bits_eq he, PortCode.bits_eq he']
    exact not_or.1 hn

theorem Encoded.perm {codes codes' : List PortCode} (h : Encoded codes) (hp : codes'.Perm codes) :
    Encoded codes' := by
  constructor
  · intro c hc
    exact h.hasEncoding c (hp.subset hc)
  · apply (List.Perm.pairwise_iff _ (hp.map PortCode.bits)).2 h.prefixFree
    intro a b hab
    exact hab.symm

theorem Encoded.sublist {codes codes' : List PortCode} (h : Encoded codes)
    (hs : codes'.Sublist codes) : Encoded codes' := by
  constructor
  · intro c hc
    exact h.hasEncoding c (hs.subset hc)
  · exact List.Pairwise.sublist (hs.map PortCode.bits) h.prefixFree

theorem encoded_nil : Encoded [] := ⟨fun _ h => (List.not_mem_nil h).elim, List.Pairwise.nil⟩

theorem shape_add {codes codes' : List PortCode} (h : Unencoded codes ∨ Encoded codes)
    (ha : Accepts codes c) (hp : codes'.Perm (c :: codes)) :
    Unencoded codes' ∨ Encoded codes' := by
  rcases ha with ⟨hn, rfl⟩ | ⟨e, he, hc⟩
  · refine .inl ⟨c, List.perm_singleton.1 hp, ?_⟩
    rw [PortCode.hasEncoding, hn]
    rfl
  · apply Or.inr
    rcases h with ⟨d, rfl, hd⟩ | h
    · obtain ⟨e', he', -⟩ := hc d List.mem_cons_self
      rw [PortCode.hasEncoding, he'] at hd
      cases hd
    · exact (h.cons he hc).perm hp

theorem shape_remove {codes codes' : List PortCode} (h : Unencoded codes ∨ Encoded codes)
    (hs : codes'.Sublist codes) : Unencoded codes' ∨ Encoded codes' := by
  rcases h with ⟨c, rfl, hc⟩ | h
  · rcases List.sublist_singleton.1 hs with rfl | rfl
    · exact .inr encoded_nil
    · exact .inl ⟨c, rfl, hc⟩
  · exact .inr (h.sublist hs)

theorem checkPortCode_ok (h : checkPortCode t c = .ok u) : Accepts t.portCodes c := by
  rw [checkPortCode] at h
  cases hc : c.code with
  | none =>
    have hn : c.hasEncoding = false := by rw [PortCode.hasEncoding, hc]; rfl
    rw [hn] at h
    refine .inl ⟨hc, ?_⟩
    cases hcontains : t.containsPortCode with
    | true =>
      rw [hcontains] at h
      cases h
    | false =>
      simp only [containsPortCode, ne_eq, decide_not, Bool.or_eq_false_iff, Bool.not_eq_false',
        decide_eq_true_eq, List.length_eq_zero_iff] at hcontains
      simp only [portCodes, hcontains, List.map_nil, List.append_nil]
  | some e =>
    have hy : c.hasEncoding = true := by rw [PortCode.hasEncoding, hc]; rfl
    rw [hy] at h
    simp only [Bool.not_true, Bool.false_and, Bool.false_eq_true, if_false, if_true] at h
    obtain ⟨e', he', h⟩ := Except.bind_ok h
    obtain ⟨canAdd, hcan, h⟩ := Except.bind_ok h
    cases canAdd with
    | false => cases h
    | true => exact .inr ⟨e', PortCode.encoding_ok he', canAddPortEncoding_true hcan⟩

theorem key_not_mem {t : SocketCodeTable} {c : FUPortCode}
    (h : ¬ t.hasCodeFor c = true) : c.key ∉ t.fuPortCodes.map FUPortCode.key := by
  intro hmem
  obtain ⟨d, hd, hkey⟩ := List.mem_map.1 hmem
  simp only [FUPortCode.key, Prod.mk.injEq] at hkey
  obtain ⟨hunit, hport, hop⟩ := hkey
  have hhas : d.hasOperation = c.hasOperation := by
    simp only [FUPortCode.hasOperation, ne_eq, decide_not, ← stringToLower_eq_nil, hop]
  apply h
  rw [hasCodeFor]
  cases hc : c.hasOperation with
  | true =>
    rw [if_pos rfl]
    apply List.any_eq_true.2
    refine ⟨d, hd, ?_⟩
    simp only [hunit, hport, hhas, hc, ciEqual, hop, decide_true, Bool.and_self]
  | false =>
    rw [if_neg Bool.false_ne_true]
    apply List.any_eq_true.2
    refine ⟨d, hd, ?_⟩
    simp only [hunit, hport, hhas, hc, decide_true, Bool.not_false, Bool.and_self]

theorem unitName_not_mem {codes : List PortCode} {c : PortCode}
    (h : ¬ (codes.any fun d => d.unitName = c.unitName) = true) :
    c.unitName ∉ codes.map PortCode.unitName := by
  intro hmem
  obtain ⟨d, hd, hunit⟩ := List.mem_map.1 hmem
  exact h (List.any_eq_true.2 ⟨d, hd, decide_eq_true hunit⟩)

theorem addFUPortCode_ok (h : addFUPortCode t c = .ok t') :
    c.hasEncoding = true ∧ Accepts t.portCodes c.toPortCode ∧ c.key ∉ t.fuPortCodes.map FUPortCode.key ∧
      t' = { t with fuPortCodes := t.fuPortCodes ++ [c] } := by
  rw [addFUPortCode] at h
  split at h
  · cases h
  · obtain ⟨e, he, h⟩ := Except.bind_ok h
    obtain ⟨canAdd, hcan, h⟩ := Except.bind_ok h
    cases canAdd with
    | false => cases h
    | true =>
      rw [if_neg (by simp only [not_true_eq_false, not_false_eq_true])] at h
      split at h
      · cases h
      · rename_i hkey
        cases h
        have hc := PortCode.encoding_ok he
        refine ⟨?_, .inr ⟨e, hc, canAddPortEncoding_true hcan⟩, key_not_mem hkey, rfl⟩
        rw [PortCode.hasEncoding, hc]
        rfl

theorem addRFPortCode_ok (h : addRFPortCode t c = .ok t') :
    Accepts t.portCodes c ∧ c.unitName ∉ t.rfPortCodes.map PortCode.unitName ∧
      t' = { t with rfPortCodes := t.rfPortCodes ++ [c] } := by
  obtain ⟨u, hcheck, h⟩ := Except.bind_ok h
  split at h
  · cases h
  · rename_i hunit
    cases h
    exact ⟨checkPortCode_ok hcheck, unitName_not_mem hunit, rfl⟩

theorem addIUPortCode_ok (h : addIUPortCode t c = .ok t') :
    Accepts t.portCodes c ∧ c.unitName ∉ t.iuPortCodes.map PortCode.unitName ∧
      t' = { t with iuPortCodes := t.iuPortCodes ++ [c] } := by
  obtain ⟨u, hcheck, h⟩ := Except.bind_ok h
  split at h
  · cases h
  · rename_i hunit
    cases h
    exact ⟨checkPortCode_ok hcheck, unitName_not_mem hunit, rfl⟩

theorem nodup_map_concat {f : α → β} {l : List α} (h : (l.map f).Nodup) (ha : f a ∉ l.map f) :
    ((l ++ [a]).map f).Nodup := by
  rw [List.map_append, List.map_singleton]
  apply List.nodup_append.2
  refine ⟨h, List.pairwise_singleton _ _, ?_⟩
  intro b hb c hc
  rw [List.mem_singleton.1 hc]
  exact fun he => ha (he ▸ hb)

theorem nodup_map_eraseIdx {f : α → β} {l : List α} (h : (l.map f).Nodup) (i : Nat) :
    ((l.eraseIdx i).map f).Nodup := h.sublist ((List.eraseIdx_sublist l i).map f)

/-- A step that returns keeps the table valid. -/
theorem Valid.step {t : SocketCodeTable} (ht : t.Valid) (h : t.step a = .ok t') : t'.Valid := by
  obtain ⟨hfu, hshape, hkeys⟩ := ht
  cases a with
  | addFU c =>
    rcases attempt_ok h with rfl | h
    · exact ⟨hfu, hshape, hkeys⟩
    · obtain ⟨henc, ha, hkey, rfl⟩ := addFUPortCode_ok h
      refine ⟨?_, shape_add hshape ha ?_, nodup_map_concat hkeys.fu hkey, hkeys.rf, hkeys.iu⟩
      · intro d hd
        rcases List.mem_append.1 hd with hd | hd
        · exact hfu d hd
        · rw [List.mem_singleton.1 hd]
          exact henc
      · simp only [portCodes, List.map_append, List.map_singleton, List.append_assoc,
          List.singleton_append]
        exact List.perm_middle
  | addRF c =>
    rcases attempt_ok h with rfl | h
    · exact ⟨hfu, hshape, hkeys⟩
    · obtain ⟨ha, hkey, rfl⟩ := addRFPortCode_ok h
      refine ⟨hfu, shape_add hshape ha ?_, hkeys.fu, nodup_map_concat hkeys.rf hkey, hkeys.iu⟩
      simp only [portCodes, List.append_assoc, List.singleton_append]
      rw [← List.append_assoc, ← List.append_assoc]
      exact List.perm_middle
  | addIU c =>
    rcases attempt_ok h with rfl | h
    · exact ⟨hfu, hshape, hkeys⟩
    · obtain ⟨ha, hkey, rfl⟩ := addIUPortCode_ok h
      refine ⟨hfu, shape_add hshape ha ?_, hkeys.fu, hkeys.rf, nodup_map_concat hkeys.iu hkey⟩
      simp only [portCodes]
      rw [← List.append_assoc, ← List.append_assoc, ← List.append_assoc]
      exact List.perm_append_singleton _ _
  | removeFU i =>
    cases h
    have hsub := List.eraseIdx_sublist t.fuPortCodes i
    refine ⟨fun d hd => hfu d (hsub.subset hd), shape_remove hshape ?_,
      nodup_map_eraseIdx hkeys.fu i, hkeys.rf, hkeys.iu⟩
    exact (hsub.map _).append (List.Sublist.refl _)
  | removeRF i =>
    cases h
    refine ⟨hfu, shape_remove hshape ?_, hkeys.fu, nodup_map_eraseIdx hkeys.rf i, hkeys.iu⟩
    exact (List.Sublist.refl _).append ((List.eraseIdx_sublist _ i).append (List.Sublist.refl _))
  | removeIU i =>
    cases h
    refine ⟨hfu, shape_remove hshape ?_, hkeys.fu, hkeys.rf, nodup_map_eraseIdx hkeys.iu i⟩
    exact (List.Sublist.refl _).append ((List.Sublist.refl _).append (List.eraseIdx_sublist _ i))

theorem isAmbiguous_defined (h : ∀ e ∈ c.code, BEMTester.Comparable new e) :
    (isAmbiguous new c).Defined := by
  rw [isAmbiguous, PortCode.encoding]
  cases hc : c.code with
  | none => exact Outcome.defined_exception _
  | some e =>
    obtain ⟨n, hn⟩ := commonBitCount_defined (h e hc) ((c.encodingWidth : Int) - new.width)
    change Outcome.Defined (commonBitCount new e _ >>= _)
    rw [hn]
    exact Outcome.defined_ok _

theorem canAddBeside_defined (h : ∀ c ∈ codes, ∀ e ∈ c.code, BEMTester.Comparable new e) :
    (canAddBeside new codes).Defined := by
  induction codes with
  | nil => exact Outcome.defined_ok _
  | cons c codes ih =>
    rw [canAddBeside]
    apply (isAmbiguous_defined (h c List.mem_cons_self)).bind
    intro found _
    apply Outcome.Defined.ite
    · exact fun _ => Outcome.defined_ok _
    · exact fun _ => ih fun d hd => h d (List.mem_cons_of_mem c hd)

theorem canAddPortEncoding_defined
    (h : ∀ c ∈ t.portCodes, ∀ e ∈ c.code, BEMTester.Comparable new e) :
    (canAddPortEncoding t new).Defined := by
  rw [canAddPortEncoding]
  apply (canAddBeside_defined fun c hc => h c (List.mem_append_left _ hc)).bind
  intro fu _
  apply Outcome.Defined.ite
  · intro _
    apply Outcome.Defined.bind (canAddBeside_defined fun c hc =>
      h c (List.mem_append_right _ (List.mem_append_left _ hc)))
    intro rf _
    apply Outcome.Defined.ite
    · exact fun _ => canAddBeside_defined fun c hc =>
        h c (List.mem_append_right _ (List.mem_append_right _ hc))
    · exact fun _ => Outcome.defined_ok _
  · exact fun _ => Outcome.defined_ok _

theorem encoding_defined (c : PortCode) : c.encoding.Defined := by
  rw [PortCode.encoding]
  split
  · exact Outcome.defined_ok _
  · exact Outcome.defined_exception _

theorem addFUPortCode_defined (h : ∀ d ∈ t.portCodes, PortCode.Comparable c.toPortCode d) :
    (addFUPortCode t c).Defined := by
  apply Outcome.Defined.ite
  · exact fun _ => Outcome.defined_exception _
  · intro _
    apply (encoding_defined _).bind
    intro e he
    apply (canAddPortEncoding_defined fun d hd => h d hd e (PortCode.encoding_ok he)).bind
    intro canAdd _
    apply Outcome.Defined.ite
    · exact fun _ => Outcome.defined_exception _
    · intro _
      apply Outcome.Defined.ite
      · exact fun _ => Outcome.defined_exception _
      · exact fun _ => Outcome.defined_ok _

theorem checkPortCode_defined (h : ∀ d ∈ t.portCodes, PortCode.Comparable c d) :
    (checkPortCode t c).Defined := by
  apply Outcome.Defined.ite
  · exact fun _ => Outcome.defined_exception _
  · intro _
    apply Outcome.Defined.ite
    · intro _
      apply (encoding_defined _).bind
      intro e he
      apply (canAddPortEncoding_defined fun d hd => h d hd e (PortCode.encoding_ok he)).bind
      intro canAdd _
      apply Outcome.Defined.ite
      · exact fun _ => Outcome.defined_exception _
      · exact fun _ => Outcome.defined_ok _
    · exact fun _ => Outcome.defined_ok _

/-- A step that only compares readable encodings returns. -/
theorem step_ok (t : SocketCodeTable) (a : Step) (h : a.Readable t) : ∃ t', t.step a = .ok t' := by
  cases a with
  | addFU c => exact (addFUPortCode_defined h).attempt_ok t
  | addRF c =>
    apply Outcome.Defined.attempt_ok _ t
    apply (checkPortCode_defined h).bind
    intro _ _
    apply Outcome.Defined.ite
    · exact fun _ => Outcome.defined_exception _
    · exact fun _ => Outcome.defined_ok _
  | addIU c =>
    apply Outcome.Defined.attempt_ok _ t
    apply (checkPortCode_defined h).bind
    intro _ _
    apply Outcome.Defined.ite
    · exact fun _ => Outcome.defined_exception _
    · exact fun _ => Outcome.defined_ok _
  | removeFU i => exact ⟨_, rfl⟩
  | removeRF i => exact ⟨_, rfl⟩
  | removeIU i => exact ⟨_, rfl⟩

theorem empty_valid (extraBits : Nat) : (empty extraBits).Valid where
  fuEncoded := fun _ h => (List.not_mem_nil h).elim
  shape := .inr encoded_nil
  keys := ⟨List.nodup_nil, List.nodup_nil, List.nodup_nil⟩

/-- Any run in which only readable encodings are compared ends in a valid table. -/
theorem run_valid (extraBits : Nat) (steps : List Step)
    (h : Along step (fun t a => a.Readable t) (empty extraBits) steps) :
    ∃ t, steps.foldlM step (empty extraBits) = .ok t ∧
      (Unencoded t.portCodes ∨ Encoded t.portCodes) ∧ t.DistinctKeys := by
  have hstep (t : SocketCodeTable) (a : Step) (_ : a ∈ steps) (ht : t.Valid)
      (ha : a.Readable t) : ∃ t', t.step a = .ok t' ∧ t'.Valid := by
    obtain ⟨t', h'⟩ := step_ok t a ha
    exact ⟨t', h', ht.step h'⟩
  obtain ⟨t, ht, hv⟩ := Along.run Valid hstep (empty_valid extraBits) h
  exact ⟨t, ht, hv.shape, hv.keys⟩

/-- A register file alone, replaced by a port of a function unit and another register file. -/
theorem run_valid_replaced :
    ∃ t, [Step.addRF ⟨"rf", none, 4⟩, .removeRF 0,
        .addFU (.new "alu" "in1" "" (some ⟨0, 1, by decide, by decide⟩)),
        .addRF ⟨"rf", some ⟨1, 0, by decide, by decide⟩, 3⟩].foldlM step (empty 0) = .ok t ∧
      (Unencoded t.portCodes ∨ Encoded t.portCodes) ∧ t.DistinctKeys := by
  apply run_valid
  apply Along.cons (by decide) rfl
  apply Along.cons (by decide) rfl
  apply Along.cons (by decide) rfl
  apply Along.cons (by decide) rfl
  trivial

/-- A port with a code of 33 zeros and a register file with the extension of that code by a one. -/
def wideCodes : List Step :=
  [.addFU (.new "alu" "in1" "" (some ⟨0, 33, by decide, by decide⟩)),
    .addRF ⟨"rf", some ⟨1, 33, by decide, by decide⟩, 3⟩]

/-- Their comparison asks `MathTools::bit` for bit 32. -/
theorem run_wideCodes_undefined :
    wideCodes.foldlM step (empty 0) = .error .undefined ∧
      ¬ ∃ t, wideCodes.foldlM step (empty 0) = .ok t ∧
        (Unencoded t.portCodes ∨ Encoded t.portCodes) ∧ t.DistinctKeys := by
  have h : wideCodes.foldlM step (empty 0) = .error .undefined := by decide
  refine ⟨h, ?_⟩
  rintro ⟨t, ht, -⟩
  rw [h] at ht
  cases ht

end SocketCodeTable

end Bem

end OpenAsip
