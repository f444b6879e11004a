import Mathlib.Data.List.Nodup
import Mathlib.Data.List.Pairwise
import OpenAsip.BitVectors
import OpenAsip.SocketCodeTable

namespace OpenAsip
set_option autoImplicit true

namespace Bem
open BitVector

namespace SocketCodeTable

def maxCodeWidth (t : SocketCodeTable) : Nat :=
  maxWidth (maxWidth (maxWidth 0 (t.fuPortCodes.map fun c => c.width))
    (t.rfPortCodes.map PortCode.width)) (t.iuPortCodes.map PortCode.width)

def width (t : SocketCodeTable) : Nat := t.maxCodeWidth + t.extraBits

end SocketCodeTable

namespace CodeCompressorPlugin

/-- The socket code bits that `encodeFUTerminal` pushes for the port code it has found. -/
def fuSocketCodeBits (socketCodes : SocketCodeTable) (portCode : FUPortCode) :
    Outcome (List Bool) := do
  let encoding ← portCode.encoding
  pushBack [] encoding.encoding socketCodes.width

/-- The first bits of `socketCodeBits`, which a code without port ID does not have. -/
def portIDBits (portCode : PortCode) : Outcome (List Bool) :=
  if portCode.hasEncoding then do
    let encoding ← portCode.encoding
    pushBack [] encoding.encoding (portCode.width - portCode.indexWidth)
  else .ok []

def socketCodeBits (socketCodes : SocketCodeTable) (portCode : PortCode) (registerIndex : Nat) :
    Outcome (List Bool) := do
  let encodingWidth := portCode.width - portCode.indexWidth
  let idBits ← portIDBits portCode
  let bits ← pushBack idBits registerIndex (socketCodes.width - encodingWidth)
  if bits.length = socketCodes.width then .ok bits else .error .assertion

end CodeCompressorPlugin

namespace SocketCodeTable
open CodeCompressorPlugin

inductive UnitKind where
  | rf
  | iu
deriving DecidableEq, Repr

def unitPortCodes (t : SocketCodeTable) : UnitKind → List PortCode
  | .rf => t.rfPortCodes
  | .iu => t.iuPortCodes

/-- What a socket code stands for: a port of a function unit or a register of another unit. -/
inductive Terminal where
  | fu (code : FUPortCode)
  | register (kind : UnitKind) (code : PortCode) (registerIndex : Nat)
deriving DecidableEq

namespace Terminal

/-- The table has the code of the terminal, and its register index is an `unsigned` number that the
index width of the code allows. -/
def In (t : SocketCodeTable) : Terminal → Prop
  | fu code => code ∈ t.fuPortCodes
  | register kind code registerIndex =>
    code ∈ t.unitPortCodes kind ∧ registerIndex < 2 ^ code.indexWidth ∧ registerIndex < 2 ^ 32

def bits (t : SocketCodeTable) : Terminal → Outcome (List Bool)
  | fu code => fuSocketCodeBits t code
  | register _ code registerIndex => socketCodeBits t code registerIndex

end Terminal

/-- Every terminal of the table is given bits, and no other terminal is given the same. -/
structure Identifies (t : SocketCodeTable) : Prop where
  emitted : ∀ a : Terminal, a.In t → ∃ bits, a.bits t = .ok bits
  distinct : ∀ a b : Terminal, a.In t → b.In t → a ≠ b → a.bits t ≠ b.bits t

/-- Read as numbers of the table width, the codes of the registers of a unit start at the port ID
followed by zeros. -/
def RangeOf (t : SocketCodeTable) (code : PortCode) (id : Encoding) (n : Nat) : Prop :=
  id.encoding * 2 ^ (t.width - id.width) ≤ n ∧
    n < id.encoding * 2 ^ (t.width - id.width) + 2 ^ code.indexWidth

instance (t : SocketCodeTable) (code : PortCode) (id : Encoding) (n : Nat) :
    Decidable (t.RangeOf code id n) :=
  inferInstanceAs (Decidable (id.encoding * 2 ^ (t.width - id.width) ≤ n ∧
    n < id.encoding * 2 ^ (t.width - id.width) + 2 ^ code.indexWidth))

/-- The bits are readable by `MathTools::bit`, the encodings of FU ports are different numbers, and
none of them lies in the range of a unit. -/
structure Separated (t : SocketCodeTable) : Prop where
  fuWidth : ∀ c ∈ t.fuPortCodes, t.width ≤ 32
  unitWidth : ∀ kind, ∀ c ∈ t.unitPortCodes kind,
    c.encodingWidth ≤ 32 ∧ t.width - c.encodingWidth ≤ 32
  fuDistinct : t.fuPortCodes.Pairwise fun c d =>
    ∀ e ∈ c.code, ∀ e' ∈ d.code, e.encoding ≠ e'.encoding
  apart : ∀ c ∈ t.fuPortCodes, ∀ kind, ∀ d ∈ t.unitPortCodes kind,
    ∀ e ∈ c.code, ∀ e' ∈ d.code, ¬ t.RangeOf d e' e.encoding

theorem width_le_of_mem {t : SocketCodeTable} (h : c ∈ t.portCodes) : c.width ≤ t.width := by
  apply Nat.le_trans _ (Nat.le_add_right _ _)
  rw [maxCodeWidth]
  rcases List.mem_append.1 h with h | h
  · obtain ⟨d, hd, rfl⟩ := List.mem_map.1 h
    have hfu := (le_maxWidth 0 (t.fuPortCodes.map fun c => c.width)).2 _ (List.mem_map_of_mem hd)
    exact Nat.le_trans hfu (Nat.le_trans (le_maxWidth _ _).1 (le_maxWidth _ _).1)
  · rcases List.mem_append.1 h with h | h
    · exact Nat.le_trans ((le_maxWidth _ _).2 _ (List.mem_map_of_mem h)) (le_maxWidth _ _).1
    · exact (le_maxWidth _ _).2 _ (List.mem_map_of_mem h)

theorem mem_portCodes_fu {t : SocketCodeTable} {c : FUPortCode} (h : c ∈ t.fuPortCodes) :
    c.toPortCode ∈ t.portCodes :=
  List.mem_append_left _ (List.mem_map_of_mem h)

theorem mem_portCodes_unit {t : SocketCodeTable} (h : c ∈ t.unitPortCodes kind) :
    c ∈ t.portCodes := by
  cases kind with
  | rf => exact List.mem_append_right _ (List.mem_append_left _ h)
  | iu => exact List.mem_append_right _ (List.mem_append_right _ h)

theorem fuSocketCodeBits_eq (he : c.code = some e) :
    fuSocketCodeBits t c = pushBack [] e.encoding t.width := by
  rw [fuSocketCodeBits, PortCode.encoding, he]
  rfl

theorem portIDBits_eq (hw : c.encodingWidth ≤ 32) : portIDBits c = .ok c.bits := by
  rw [portIDBits, PortCode.hasEncoding, PortCode.bits, PortCode.encoding]
  cases hc : c.code with
  | none => rfl
  | some e =>
    have hwe : c.width - c.indexWidth = e.width := PortCode.encodingWidth_eq hc
    rw [PortCode.encodingWidth, hwe] at hw
    change pushBack [] e.encoding (c.width - c.indexWidth) = _
    rw [hwe, pushBack_eq e.encoding_lt hw, List.nil_append]
    rfl

theorem portIDBits_ok (h : portIDBits c = .ok bits) : c.encodingWidth ≤ 32 := by
  rw [portIDBits, PortCode.hasEncoding, PortCode.encoding] at h
  cases hc : c.code with
  | none =>
    rw [PortCode.encodingWidth, PortCode.width, hc]
    exact Nat.le_trans (Nat.le_of_eq (Nat.sub_self _)) (Nat.zero_le _)
  | some e =>
    rw [hc] at h
    exact (pushBack_ok e.encoding_lt h).1

theorem length_register {t : SocketCodeTable} (hd : d ∈ t.portCodes) (i : Nat) :
    (d.bits ++ toBits (t.width - d.encodingWidth) i).length = t.width := by
  have hle := width_le_of_mem hd
  rw [List.length_append, PortCode.length_bits, length_toBits]
  rw [PortCode.encodingWidth]
  omega

theorem socketCodeBits_eq (hm : c ∈ t.portCodes) (hw : c.encodingWidth ≤ 32)
    (hr : t.width - c.encodingWidth ≤ 32) (hi : i < 2 ^ 32) :
    socketCodeBits t c i = .ok (c.bits ++ toBits (t.width - c.encodingWidth) i) := by
  rw [socketCodeBits, portIDBits_eq hw]
  change (pushBack c.bits i (t.width - c.encodingWidth) >>= _) = _
  rw [pushBack_eq hi hr]
  change (if _ then _ else _) = _
  rw [if_pos (length_register hm i)]

theorem socketCodeBits_ok (hi : i < 2 ^ 32) (h : socketCodeBits t c i = .ok bits) :
    c.encodingWidth ≤ 32 ∧ t.width - c.encodingWidth ≤ 32 := by
  obtain ⟨idBits, hid, h⟩ := Except.bind_ok h
  obtain ⟨bits', hp, -⟩ := Except.bind_ok h
  exact ⟨portIDBits_ok hid, (pushBack_ok hi hp).1⟩

/-- The number that the bits of a register denote. -/
theorem ofBits_register {c : PortCode} (he : c.code = some e) (k i : Nat) :
    ofBits (c.bits ++ toBits k i) = e.encoding * 2 ^ k + i % 2 ^ k := by
  rw [PortCode.bits_eq he, Encoding.bits, ofBits_append, ofBits_toBits, ofBits_toBits,
    length_toBits, Nat.mod_eq_of_lt e.encoding_lt_width]

/-- A register index below the index width is not cut off. -/
theorem index_mod {t : SocketCodeTable} (hm : c ∈ t.portCodes) (hi : i < 2 ^ c.indexWidth) :
    i % 2 ^ (t.width - c.encodingWidth) = i := by
  apply Nat.mod_eq_of_lt
  apply Nat.lt_of_lt_of_le hi
  apply Nat.pow_le_pow_right Nat.two_pos
  have hle := width_le_of_mem hm
  have hw : c.indexWidth ≤ c.width := by
    rw [PortCode.width]
    split <;> omega
  rw [PortCode.encodingWidth]
  omega

theorem encoding_mod {t : SocketCodeTable} (hm : c ∈ t.portCodes) (he : c.code = some e) :
    e.encoding % 2 ^ t.width = e.encoding := by
  apply Nat.mod_eq_of_lt
  apply Nat.lt_of_lt_of_le e.encoding_lt_width
  apply Nat.pow_le_pow_right Nat.two_pos
  have hle := width_le_of_mem hm
  rw [PortCode.width, he] at hle
  exact Nat.le_of_add_right_le hle

theorem Valid.fu_code {t : SocketCodeTable} (ht : t.Valid) (hc : c ∈ t.fuPortCodes) :
    ∃ e, c.code = some e := Option.isSome_iff_exists.1 (ht.fuEncoded c hc)

/-- Beside a code of an FU port, all codes have a port ID. -/
theorem Valid.unit_code {t : SocketCodeTable} (ht : t.Valid) (hc : c ∈ t.fuPortCodes)
    (hd : d ∈ t.unitPortCodes kind) : ∃ e, d.code = some e := by
  rcases ht.shape with ⟨x, hx, hn⟩ | h
  · have hmem := mem_portCodes_fu hc
    rw [hx, List.mem_singleton] at hmem
    have hy := ht.fuEncoded c hc
    rw [hmem, hn] at hy
    cases hy
  · exact Option.isSome_iff_exists.1 (h.hasEncoding d (mem_portCodes_unit hd))

/-- An FU port is given the bits of a register when its encoding is the number they denote. -/
theorem fu_bits_eq_register_iff {t : SocketCodeTable} (hT : t.width ≤ 32)
    (hc : c ∈ t.fuPortCodes) (hd : d ∈ t.unitPortCodes kind) (he : c.code = some e)
    (he' : d.code = some e') (hi : i < 2 ^ d.indexWidth) (hi' : i < 2 ^ 32) :
    fuSocketCodeBits t c = socketCodeBits t d i ↔
      e.encoding = e'.encoding * 2 ^ (t.width - e'.width) + i := by
  have hd := mem_portCodes_unit hd
  have hle := width_le_of_mem hd
  have hw : d.encodingWidth ≤ 32 := by
    rw [PortCode.encodingWidth]
    omega
  have hn := ofBits_register he' (t.width - d.encodingWidth) i
  have hfu : ofBits (toBits t.width e.encoding) = e.encoding := by
    rw [ofBits_toBits, encoding_mod (mem_portCodes_fu hc) he]
  rw [index_mod hd hi, PortCode.encodingWidth_eq he'] at hn
  rw [fuSocketCodeBits_eq he, pushBack_eq e.encoding_lt hT, List.nil_append,
    socketCodeBits_eq hd hw (by omega) hi', ← hn, PortCode.encodingWidth_eq he']
  constructor
  · intro h
    injection h with h
    rw [← h, hfu]
  · intro h
    congr 1
    apply ofBits_injective
    · rw [length_toBits, ← PortCode.encodingWidth_eq he', length_register hd]
    · rw [hfu, h]

/-- Codes of which neither starts the other differ, whatever follows them. -/
theorem append_ne_of_not_prefix {a b x y : List Bool} (h : ¬ a <+: b ∧ ¬ b <+: a) : a ++ x ≠ b ++ y := by
  intro he
  have ha : a <+: b ++ y := he ▸ List.prefix_append _ _
  rcases List.prefix_or_prefix_of_prefix ha (List.prefix_append _ _) with hp | hp
  · exact h.1 hp
  · exact h.2 hp

theorem pair_sublist_of_mem {l : List α} (ha : a ∈ l) (hb : b ∈ l) (h : a ≠ b) :
    [a, b].Sublist l ∨ [b, a].Sublist l := by
  have : Std.Symm fun a b => [a, b].Sublist l ∨ [b, a].Sublist l := ⟨fun _ _ h => h.symm⟩
  have hp : l.Pairwise fun a b => [a, b].Sublist l ∨ [b, a].Sublist l :=
    List.pairwise_of_forall_sublist fun h => .inl h
  exact hp.forall ha hb h

/-- Different units have their codes at different positions of the table. -/
theorem unit_pair_sublist {t : SocketCodeTable} (hc : c ∈ t.unitPortCodes kind)
    (hd : d ∈ t.unitPortCodes kind') (hne : kind = kind' → c ≠ d) :
    [c, d].Sublist t.portCodes ∨ [d, c].Sublist t.portCodes := by
  have hrf : t.rfPortCodes.Sublist t.portCodes :=
    (List.sublist_append_left _ _).trans (List.sublist_append_right _ _)
  have hiu : t.iuPortCodes.Sublist t.portCodes :=
    (List.sublist_append_right _ _).trans (List.sublist_append_right _ _)
  have hboth {x y : PortCode} (hx : x ∈ t.rfPortCodes) (hy : y ∈ t.iuPortCodes) :
      [x, y].Sublist t.portCodes :=
    ((List.singleton_sublist.2 hx).append (List.singleton_sublist.2 hy)).trans
      (List.sublist_append_right _ _)
  cases kind with
  | rf =>
    cases kind' with
    | rf => exact (pair_sublist_of_mem hc hd (hne rfl)).imp (·.trans hrf) (·.trans hrf)
    | iu => exact .inl (hboth hc hd)
  | iu =>
    cases kind' with
    | rf => exact .inr (hboth hd hc)
    | iu => exact (pair_sublist_of_mem hc hd (hne rfl)).imp (·.trans hiu) (·.trans hiu)

theorem Valid.not_prefix_of_pair {t : SocketCodeTable} (ht : t.Valid)
    (h : [c, d].Sublist t.portCodes) : ¬ c.bits <+: d.bits ∧ ¬ d.bits <+: c.bits := by
  rcases ht.shape with ⟨x, hx, -⟩ | he
  · have hlen := h.length_le
    rw [hx] at hlen
    exact (Nat.not_succ_le_self 1 hlen).elim
  · exact (List.pairwise_map.1 he.prefixFree).forall_sublist h

theorem Valid.unit_prefixFree {t : SocketCodeTable} (ht : t.Valid)
    (hc : c ∈ t.unitPortCodes kind) (hd : d ∈ t.unitPortCodes kind')
    (hne : kind = kind' → c ≠ d) : ¬ c.bits <+: d.bits ∧ ¬ d.bits <+: c.bits := by
  rcases unit_pair_sublist hc hd hne with h | h
  · exact ht.not_prefix_of_pair h
  · exact (ht.not_prefix_of_pair h).symm

theorem Identifies.separated {t : SocketCodeTable} (ht : t.Valid) (h : t.Identifies) :
    t.Separated := by
  have hfuWidth : ∀ c ∈ t.fuPortCodes, t.width ≤ 32 := by
    intro c hc
    obtain ⟨e, he⟩ := ht.fu_code hc
    obtain ⟨bits, hb⟩ := h.emitted (.fu c) hc
    change fuSocketCodeBits t c = .ok bits at hb
    rw [fuSocketCodeBits_eq he] at hb
    exact (pushBack_ok e.encoding_lt hb).1
  refine ⟨hfuWidth, ?_, ?_, ?_⟩
  · intro kind c hc
    obtain ⟨bits, hb⟩ := h.emitted (.register kind c 0)
      ⟨hc, Nat.two_pow_pos _, Nat.two_pow_pos _⟩
    exact socketCodeBits_ok (Nat.two_pow_pos _) hb
  · apply List.Nodup.pairwise_of_forall_ne ht.keys.fu.of_map
    intro c hc d hd hne e he e' he' heq
    apply h.distinct (.fu c) (.fu d) hc hd (fun hf => hne (by injection hf))
    change fuSocketCodeBits t c = fuSocketCodeBits t d
    rw [fuSocketCodeBits_eq he, fuSocketCodeBits_eq he', heq]
  · rintro c hc kind d hd e he e' he' ⟨hlo, hhi⟩
    obtain ⟨i, hi⟩ := Nat.exists_eq_add_of_le hlo
    rw [hi, Nat.add_lt_add_iff_left] at hhi
    have hi32 : i < 2 ^ 32 := by
      have hlt := e.encoding_lt
      omega
    apply h.distinct (.fu c) (.register kind d i) hc ⟨hd, hhi, hi32⟩ (fun hf => by cases hf)
    exact (fu_bits_eq_register_iff (hfuWidth c hc) hc hd he he' hhi hi32).2 hi

theorem Separated.register_bits {t : SocketCodeTable} (hs : t.Separated)
    (ha : (Terminal.register kind c i).In t) :
    (Terminal.register kind c i).bits t =
      .ok (c.bits ++ toBits (t.width - c.encodingWidth) i) := by
  obtain ⟨hc, -, hi⟩ := ha
  obtain ⟨hw, hr⟩ := hs.unitWidth kind c hc
  exact socketCodeBits_eq (mem_portCodes_unit hc) hw hr hi

theorem Separated.fu_bits_ne_register {t : SocketCodeTable} (ht : t.Valid) (hs : t.Separated)
    (hc : (Terminal.fu c).In t) (hd : (Terminal.register kind d i).In t) :
    (Terminal.fu c).bits t ≠ (Terminal.register kind d i).bits t := by
  obtain ⟨hd, hi, hi32⟩ := hd
  obtain ⟨e, he⟩ := ht.fu_code hc
  obtain ⟨e', he'⟩ := ht.unit_code hc hd
  intro heq
  have hn := (fu_bits_eq_register_iff (hs.fuWidth c hc) hc hd he he' hi hi32).1 heq
  apply hs.apart c hc kind d hd e he e' he'
  rw [RangeOf, hn]
  exact ⟨Nat.le_add_right _ _, Nat.add_lt_add_left hi _⟩

theorem Separated.fu_bits_ne {t : SocketCodeTable} (ht : t.Valid) (hs : t.Separated)
    (hc : (Terminal.fu c).In t) (hd : (Terminal.fu d).In t) (hne : c ≠ d) :
    (Terminal.fu c).bits t ≠ (Terminal.fu d).bits t := by
  obtain ⟨e, he⟩ := ht.fu_code hc
  obtain ⟨e', he'⟩ := ht.fu_code hd
  have hT := hs.fuWidth c hc
  intro heq
  change fuSocketCodeBits t c = fuSocketCodeBits t d at heq
  rw [fuSocketCodeBits_eq he, fuSocketCodeBits_eq he', pushBack_eq e.encoding_lt hT,
    pushBack_eq e'.encoding_lt hT] at heq
  injection heq with heq
  have hn := toBits_inj.1 heq
  rw [encoding_mod (mem_portCodes_fu hc) he, encoding_mod (mem_portCodes_fu hd) he'] at hn
  have : Std.Symm fun c d : FUPortCode =>
      ∀ e ∈ c.code, ∀ e' ∈ d.code, e.encoding ≠ e'.encoding :=
    ⟨fun _ _ h e he e' he' => (h e' he' e he).symm⟩
  exact hs.fuDistinct.forall hc hd hne e he e' he' hn

theorem Separated.register_bits_ne {t : SocketCodeTable} (ht : t.Valid) (hs : t.Separated)
    (hc : (Terminal.register kind c i).In t) (hd : (Terminal.register kind' d j).In t)
    (hne : Terminal.register kind c i ≠ Terminal.register kind' d j) :
    (Terminal.register kind c i).bits t ≠ (Terminal.register kind' d j).bits t := by
  intro heq
  rw [hs.register_bits hc, hs.register_bits hd] at heq
  injection heq with heq
  by_cases hsame : kind = kind' ∧ c = d
  · obtain ⟨rfl, rfl⟩ := hsame
    have hij := toBits_inj.1 (List.append_cancel_left heq)
    rw [index_mod (mem_portCodes_unit hc.1) hc.2.1, index_mod (mem_portCodes_unit hd.1) hd.2.1]
      at hij
    exact hne (by rw [hij])
  · exact append_ne_of_not_prefix
      (ht.unit_prefixFree hc.1 hd.1 fun hk hcd => hsame ⟨hk, hcd⟩) heq

/-- The emitted bits identify the terminals of a valid table exactly when its encodings are
separated as numbers. -/
theorem Valid.identifies_iff {t : SocketCodeTable} (ht : t.Valid) :
    t.Identifies ↔ t.Separated := by
  refine ⟨fun h => h.separated ht, fun hs => ⟨?_, ?_⟩⟩
  · intro a ha
    cases a with
    | fu c =>
      obtain ⟨e, he⟩ := ht.fu_code ha
      refine ⟨[] ++ toBits t.width e.encoding, ?_⟩
      exact (fuSocketCodeBits_eq he).trans (pushBack_eq e.encoding_lt (hs.fuWidth c ha))
    | register kind c i => exact ⟨_, hs.register_bits ha⟩
  · intro a b ha hb hne
    cases a with
    | fu c =>
      cases b with
      | fu d => exact hs.fu_bits_ne ht ha hb (fun h => hne (by rw [h]))
      | register kind d i => exact hs.fu_bits_ne_register ht ha hb
    | register kind c i =>
      cases b with
      | fu d => exact (hs.fu_bits_ne_register ht hb ha).symm
      | register kind' d j => exact hs.register_bits_ne ht ha hb hne

/-- The emitted bits identify the terminals of a table built by accepted additions exactly when the
encodings are separated as numbers of the table width. -/
theorem identifies_iff_separated (extraBits : Nat) (steps : List Step) (t : SocketCodeTable)
    (h : steps.foldlM step (empty extraBits) = .ok t) : t.Identifies ↔ t.Separated :=
  Valid.identifies_iff (foldlM_invariant (fun _ _ _ ht h => ht.step h) (empty_valid extraBits) h)

/-- A port beside a register file. -/
def portAndRegisters (port registers : Encoding) (indexWidth : Nat) : List Step :=
  [.addFU (.new "alu" "in1" "" (some port)), .addRF ⟨"rf", some registers, indexWidth⟩]

/-- A port with the code `10` is above the two registers with the code `0`. -/
theorem identifies_port_above_registers :
    ∃ t, (portAndRegisters ⟨2, 0, by decide, by decide⟩ ⟨0, 1, by decide, by decide⟩ 1).foldlM step
      (empty 0) = .ok t ∧ t.Identifies := by
  refine ⟨⟨[.new "alu" "in1" "" (some ⟨2, 0, by decide, by decide⟩)],
    [⟨"rf", some ⟨0, 1, by decide, by decide⟩, 1⟩], [], 0⟩, by decide, ?_⟩
  apply (identifies_iff_separated 0
    (portAndRegisters ⟨2, 0, by decide, by decide⟩ ⟨0, 1, by decide, by decide⟩ 1) _ rfl).2
  refine ⟨by decide, ?_, by decide, ?_⟩
  · intro kind
    cases kind <;> decide
  · intro c hc kind
    revert c
    cases kind <;> decide

/-- A port with the code `1` is given the bits `001`, which are those of the register 1. -/
theorem not_identifies_port_among_registers :
    ∃ t, (portAndRegisters ⟨1, 0, by decide, by decide⟩ ⟨0, 1, by decide, by decide⟩ 2).foldlM step
      (empty 0) = .ok t ∧ ¬ t.Identifies := by
  refine ⟨⟨[.new "alu" "in1" "" (some ⟨1, 0, by decide, by decide⟩)],
    [⟨"rf", some ⟨0, 1, by decide, by decide⟩, 2⟩], [], 0⟩, by decide, fun h => ?_⟩
  apply h.distinct (.fu (.new "alu" "in1" "" (some ⟨1, 0, by decide, by decide⟩)))
    (.register .rf ⟨"rf", some ⟨0, 1, by decide, by decide⟩, 2⟩ 1) List.mem_cons_self
    ⟨List.mem_cons_self, by decide, by decide⟩ (by decide)
  decide

end SocketCodeTable

end Bem

end OpenAsip
