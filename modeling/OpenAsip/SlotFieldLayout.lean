import Mathlib.Data.Nat.Prime.Basic
import OpenAsip.BitLayout
import OpenAsip.SlotField
import OpenAsip.SocketCodeBits

namespace OpenAsip
set_option autoImplicit true

namespace Bem
open BitVector

/-- The table width of the socket codes, if the socket has any. -/
def SocketEncoding.socketCodeWidth (e : SocketEncoding) : Nat :=
  match e.socketCodes with
  | none => 0
  | some t => t.width

def SocketEncoding.width (e : SocketEncoding) : Nat := e.code.width + e.socketCodeWidth

namespace SlotField

/-- `SlotField::width` without the extra bits. -/
def slotEncodingWidth (field : SlotField) : Nat :=
  maxWidth (maxWidth 0 (field.encodings.map SocketEncoding.width))
    (field.nopEncoding.toList.map Encoding.width)

/-- `SlotField::width` and `SourceField::width`. -/
def width (field : SlotField) : Nat :=
  match field.source with
  | none => field.slotEncodingWidth + field.extraBits
  | some s =>
    maxWidth (maxWidth field.slotEncodingWidth (s.bridgeEncodings.map fun e => e.code.width))
      (s.immEncoding.toList.map ImmediateEncoding.width) + field.extraBits

/-- `SocketEncoding::socketIDPosition`. -/
def socketIDPosition (field : SlotField) (socket : SocketEncoding) : Nat :=
  match field.componentIDPosition with
  | .right => 0
  | .left => field.width - field.extraBits - socket.code.width

/-- `SocketEncoding::socketCodePosition`. -/
def socketCodePosition (field : SlotField) (socket : SocketEncoding) : Nat :=
  match field.componentIDPosition with
  | .right => field.width - field.extraBits - socket.socketCodeWidth
  | .left => 0

/-- `ImmediateEncoding::encodingPosition`. -/
def encodingPosition (field : SlotField) (encoding : ImmediateEncoding) : Nat :=
  match field.componentIDPosition with
  | .left => field.width - field.extraBits - encoding.code.width
  | .right => 0

/-- `ImmediateEncoding::immediatePosition`. -/
def immediatePosition (field : SlotField) (encoding : ImmediateEncoding) : Nat :=
  match field.componentIDPosition with
  | .left => 0
  | .right => field.width - field.extraBits - encoding.immediateWidth

def immediateEncoding (field : SlotField) : Option ImmediateEncoding :=
  match field.source with
  | none => none
  | some s => s.immEncoding

end SlotField

namespace CodeCompressorPlugin

/-- The assertion at the end of the encoding functions. -/
def checkSize (field : SlotField) (bitVector bits : List Bool) : Outcome (List Bool) :=
  if bits.length - bitVector.length = field.width then .ok bits else .error .assertion

def encodeSlotField (field : SlotField) (componentIDBits socketCodeBits bitVector : List Bool) :
    Outcome (List Bool) :=
  let numberOfZeros := field.width - componentIDBits.length - socketCodeBits.length
  match field.componentIDPosition with
  | .left => do
    let bits ← pushBack (bitVector ++ componentIDBits) 0 numberOfZeros
    checkSize field bitVector (bits ++ socketCodeBits)
  | .right => do
    let bits ← pushBack (bitVector ++ socketCodeBits) 0 numberOfZeros
    checkSize field bitVector (bits ++ componentIDBits)

def encodeImmediateTerminal (field : SlotField) (immValue : Nat) (bitVector : List Bool) :
    Outcome (List Bool) :=
  match field.immediateEncoding with
  | none => .error (.exception .invalidData)
  | some encoding => do
    let immediateBits ← pushBack [] immValue (field.width - encoding.code.width)
    match field.componentIDPosition with
    | .left => do
      let bits ← pushBack bitVector encoding.code.encoding encoding.code.width
      checkSize field bitVector (bits ++ immediateBits)
    | .right => do
      let bits ← pushBack (bitVector ++ immediateBits) encoding.code.encoding encoding.code.width
      checkSize field bitVector bits

end CodeCompressorPlugin

namespace SlotField
open CodeCompressorPlugin

/-- The socket ID and the socket code are put where the encoding map says, for any bits before
them. -/
def SocketPlaced (field : SlotField) (socket : SocketEncoding) (codeBits : List Bool) : Prop :=
  ∀ bitVector, ∃ bits,
    encodeSlotField field socket.code.bits codeBits bitVector = .ok (bitVector ++ bits) ∧
      bits.length = field.width ∧
      Layout bits (field.socketIDPosition socket) socket.code.bits
        (field.socketCodePosition socket) codeBits

/-- The encoding of the immediate and its value are put where the encoding map says. -/
def ImmediatePlaced (field : SlotField) (encoding : ImmediateEncoding) (immValue : Nat) : Prop :=
  ∀ bitVector, ∃ bits,
    encodeImmediateTerminal field immValue bitVector = .ok (bitVector ++ bits) ∧
      bits.length = field.width ∧
      Layout bits (field.encodingPosition encoding) encoding.code.bits
        (field.immediatePosition encoding) (toBits encoding.immediateWidth immValue)

/-- The field has no extra bits, or they would only be put beside zeros. -/
def SocketAligned (field : SlotField) (socket : SocketEncoding) (codeBits : List Bool) : Prop :=
  field.width - socket.code.width - codeBits.length ≤ 32 ∧
    (field.extraBits = 0 ∨
      match field.componentIDPosition with
      | .left => socket.code.encoding = 0
      | .right => ofBits codeBits = 0)

/-- The part of the immediate that is encoded fits in the declared width and, unless it is zero,
takes up the whole field beside the encoding. -/
def ImmediateAligned (field : SlotField) (encoding : ImmediateEncoding) (immValue : Nat) : Prop :=
  encoding.code.width ≤ 32 ∧ field.width - encoding.code.width ≤ 32 ∧
    match field.componentIDPosition with
    | .left => (field.extraBits = 0 ∨ encoding.code.encoding = 0) ∧
      immValue % 2 ^ (field.width - encoding.code.width) < 2 ^ encoding.immediateWidth
    | .right => immValue % 2 ^ (field.width - encoding.code.width) = 0 ∨
      field.width = field.extraBits + encoding.width ∧
        immValue % 2 ^ (field.width - encoding.code.width) < 2 ^ encoding.immediateWidth

theorem slotEncodingWidth_le (field : SlotField) :
    field.slotEncodingWidth + field.extraBits ≤ field.width := by
  rw [width]
  split
  · exact Nat.le_refl _
  · apply Nat.add_le_add_right
    exact Nat.le_trans (le_maxWidth _ _).1 (le_maxWidth _ _).1

theorem socket_width_le {field : SlotField} (h : socket ∈ field.encodings) :
    socket.width + field.extraBits ≤ field.width := by
  apply Nat.le_trans _ field.slotEncodingWidth_le
  apply Nat.add_le_add_right
  exact Nat.le_trans ((le_maxWidth _ _).2 _ (List.mem_map_of_mem h)) (le_maxWidth _ _).1

theorem immediate_width_le {field : SlotField} (h : field.immediateEncoding = some encoding) :
    encoding.width + field.extraBits ≤ field.width := by
  rw [immediateEncoding] at h
  rw [width]
  split at h
  · cases h
  · rename_i s hs
    apply Nat.add_le_add_right
    apply (le_maxWidth _ _).2
    rw [h]
    exact List.mem_cons_self

/-- The bits that `encodeSlotField` puts at the end of the bit vector. -/
def slotBits (field : SlotField) (idBits codeBits : List Bool) : List Bool :=
  let zeros := toBits (field.width - idBits.length - codeBits.length) 0
  match field.componentIDPosition with
  | .left => idBits ++ zeros ++ codeBits
  | .right => codeBits ++ zeros ++ idBits

theorem checkSize_append (h : bits.length = SlotField.width field) (bitVector : List Bool) :
    checkSize field bitVector (bitVector ++ bits) = .ok (bitVector ++ bits) := by
  rw [checkSize, if_pos]
  rw [List.length_append, Nat.add_sub_cancel_left, h]

theorem length_slotBits {field : SlotField} (h : idBits.length + codeBits.length ≤ field.width) :
    (field.slotBits idBits codeBits).length = field.width := by
  rw [slotBits]
  cases field.componentIDPosition with
  | left =>
    simp only [List.length_append, length_toBits]
    omega
  | right =>
    simp only [List.length_append, length_toBits]
    omega

theorem encodeSlotField_eq (h : idBits.length + codeBits.length ≤ SlotField.width field)
    (hz : field.width - idBits.length - codeBits.length ≤ 32) (bitVector : List Bool) :
    encodeSlotField field idBits codeBits bitVector =
      .ok (bitVector ++ field.slotBits idBits codeBits) := by
  have hlen := length_slotBits h
  rw [slotBits] at *
  rw [encodeSlotField]
  cases hp : field.componentIDPosition with
  | left =>
    rw [hp] at hlen
    dsimp only
    rw [pushBack_eq (Nat.two_pow_pos _) hz]
    change checkSize field bitVector _ = _
    rw [List.append_assoc, List.append_assoc, ← List.append_assoc idBits]
    exact checkSize_append hlen bitVector
  | right =>
    rw [hp] at hlen
    dsimp only
    rw [pushBack_eq (Nat.two_pow_pos _) hz]
    change checkSize field bitVector _ = _
    rw [List.append_assoc, List.append_assoc, ← List.append_assoc codeBits]
    exact checkSize_append hlen bitVector

theorem encodeSlotField_ok (h : encodeSlotField field idBits codeBits bitVector = .ok bits) :
    field.width - idBits.length - codeBits.length ≤ 32 := by
  rw [encodeSlotField] at h
  cases hp : field.componentIDPosition with
  | left =>
    rw [hp] at h
    obtain ⟨b, hb, -⟩ := Except.bind_ok h
    exact (pushBack_ok (Nat.two_pow_pos _) hb).1
  | right =>
    rw [hp] at h
    obtain ⟨b, hb, -⟩ := Except.bind_ok h
    exact (pushBack_ok (Nat.two_pow_pos _) hb).1

theorem mul_two_pow_eq_iff (h : e ≤ m) : n * 2 ^ m = n * 2 ^ (m - e) ↔ e = 0 ∨ n = 0 := by
  constructor
  · intro heq
    by_cases hn : n = 0
    · exact .inr hn
    · have hpow := Nat.eq_of_mul_eq_mul_left (Nat.pos_of_ne_zero hn) heq
      have hexp := Nat.pow_right_injective (Nat.le_refl 2) hpow
      omega
  · rintro (rfl | rfl)
    · rw [Nat.sub_zero]
    · rw [Nat.zero_mul, Nat.zero_mul]

theorem ofBits_padded (a b : List Bool) (z : Nat) :
    ofBits (a ++ toBits z 0 ++ b) = ofBits a * 2 ^ (z + b.length) + ofBits b := by
  rw [ofBits_append, ofBits_append, ofBits_toBits, Nat.zero_mod, Nat.add_zero, length_toBits,
    Nat.mul_assoc, ← Nat.pow_add]

/-- Where the bits stand agrees with the declared positions when the extra bits do not matter. -/
theorem slotBits_layout_iff {field : SlotField} (hs : socket ∈ field.encodings)
    (hc : codeBits.length = socket.socketCodeWidth) :
    Layout (field.slotBits socket.code.bits codeBits) (field.socketIDPosition socket)
        socket.code.bits (field.socketCodePosition socket) codeBits ↔
      field.extraBits = 0 ∨
        match field.componentIDPosition with
        | .left => socket.code.encoding = 0
        | .right => ofBits codeBits = 0 := by
  have hw := socket_width_le hs
  have hid : ofBits socket.code.bits = socket.code.encoding := by
    rw [Encoding.bits, ofBits_toBits, Nat.mod_eq_of_lt socket.code.encoding_lt_width]
  rw [SocketEncoding.width] at hw
  rw [slotBits, socketIDPosition, socketCodePosition]
  cases field.componentIDPosition with
  | left =>
    dsimp only
    have hpos : field.width - field.extraBits - socket.code.width =
        field.width - socket.code.width - codeBits.length + codeBits.length -
          field.extraBits := by omega
    rw [layout_iff (by omega), ofBits_padded, Encoding.length_bits, Nat.add_right_cancel_iff, hpos,
      mul_two_pow_eq_iff (by omega), hid]
  | right =>
    dsimp only
    have hpos : field.width - field.extraBits - socket.socketCodeWidth =
        field.width - socket.code.width - codeBits.length + socket.code.width -
          field.extraBits := by omega
    rw [layout_comm, layout_iff (by rw [Encoding.length_bits]; omega), ofBits_padded, Encoding.length_bits,
      Nat.add_right_cancel_iff, hpos, mul_two_pow_eq_iff (by omega)]

theorem socketPlaced_iff {field : SlotField} (hs : socket ∈ field.encodings)
    (hc : codeBits.length = socket.socketCodeWidth) :
    field.SocketPlaced socket codeBits ↔ field.SocketAligned socket codeBits := by
  have hw := socket_width_le hs
  rw [SocketEncoding.width] at hw
  have hlen : socket.code.bits.length + codeBits.length ≤ field.width := by
    rw [Encoding.length_bits]
    omega
  rw [SocketAligned, ← slotBits_layout_iff hs hc, ← Encoding.length_bits]
  constructor
  · intro h
    obtain ⟨bits, hb, -, hl⟩ := h []
    have hz := encodeSlotField_ok hb
    rw [encodeSlotField_eq hlen hz] at hb
    injection hb with hb
    rw [List.nil_append, List.nil_append] at hb
    subst hb
    exact ⟨hz, hl⟩
  · rintro ⟨hz, hl⟩ bitVector
    exact ⟨_, encodeSlotField_eq hlen hz bitVector, length_slotBits hlen, hl⟩

/-- The bits that `encodeImmediateTerminal` puts at the end of the bit vector. -/
def immediateBits (field : SlotField) (encoding : ImmediateEncoding) (immValue : Nat) :
    List Bool :=
  match field.componentIDPosition with
  | .left => encoding.code.bits ++ toBits (field.width - encoding.code.width) immValue
  | .right => toBits (field.width - encoding.code.width) immValue ++ encoding.code.bits

theorem length_immediateBits {field : SlotField} (h : encoding.code.width ≤ field.width)
    (immValue : Nat) : (field.immediateBits encoding immValue).length = field.width := by
  rw [immediateBits]
  cases field.componentIDPosition with
  | left =>
    rw [List.length_append, Encoding.length_bits, length_toBits]
    omega
  | right =>
    rw [List.length_append, Encoding.length_bits, length_toBits]
    omega

theorem encodeImmediateTerminal_eq (he : SlotField.immediateEncoding field = some encoding)
    (hv : immValue < 2 ^ 32) (h : encoding.code.width ≤ field.width)
    (hw : encoding.code.width ≤ 32) (hi : field.width - encoding.code.width ≤ 32)
    (bitVector : List Bool) :
    encodeImmediateTerminal field immValue bitVector =
      .ok (bitVector ++ field.immediateBits encoding immValue) := by
  have hlen := length_immediateBits h immValue
  rw [immediateBits] at *
  rw [encodeImmediateTerminal, he]
  dsimp only
  rw [pushBack_eq hv hi, List.nil_append]
  cases hp : field.componentIDPosition with
  | left =>
    rw [hp] at hlen
    change (pushBack bitVector _ _ >>= _) = _
    rw [pushBack_eq encoding.code.encoding_lt hw]
    change checkSize field bitVector _ = _
    rw [List.append_assoc]
    exact checkSize_append hlen bitVector
  | right =>
    rw [hp] at hlen
    change (pushBack (bitVector ++ _) _ _ >>= _) = _
    rw [pushBack_eq encoding.code.encoding_lt hw]
    change checkSize field bitVector _ = _
    rw [List.append_assoc]
    exact checkSize_append hlen bitVector

theorem encodeImmediateTerminal_ok (he : SlotField.immediateEncoding field = some encoding)
    (hv : immValue < 2 ^ 32) (h : encodeImmediateTerminal field immValue bitVector = .ok bits) :
    encoding.code.width ≤ 32 ∧ field.width - encoding.code.width ≤ 32 := by
  rw [encodeImmediateTerminal, he] at h
  obtain ⟨valueBits, hvb, h⟩ := Except.bind_ok h
  refine ⟨?_, (pushBack_ok hv hvb).1⟩
  cases hp : field.componentIDPosition with
  | left =>
    rw [hp] at h
    obtain ⟨b, hb, -⟩ := Except.bind_ok h
    exact (pushBack_ok encoding.code.encoding_lt hb).1
  | right =>
    rw [hp] at h
    obtain ⟨b, hb, -⟩ := Except.bind_ok h
    exact (pushBack_ok encoding.code.encoding_lt hb).1

theorem odd_two_pow_sub_one (hk : k ≠ 0) : Odd (2 ^ k - 1) := by
  obtain ⟨j, rfl⟩ := Nat.exists_eq_succ_of_ne_zero hk
  refine ⟨2 ^ j - 1, ?_⟩
  have hp := Nat.two_pow_pos j
  rw [Nat.succ_eq_add_one, Nat.pow_succ]
  omega

/-- A number that is its own low part moved to the left is zero. -/
theorem eq_mod_mul_two_pow_iff :
    r = r % 2 ^ w * 2 ^ k ↔ r = 0 ∨ k = 0 ∧ r < 2 ^ w := by
  constructor
  · intro h
    by_cases hk : k = 0
    · subst hk
      rw [Nat.pow_zero, Nat.mul_one] at h
      exact .inr ⟨rfl, h ▸ Nat.mod_lt _ (Nat.two_pow_pos w)⟩
    · have hdvd : 2 ^ w ∣ r - r % 2 ^ w := Nat.dvd_sub_mod r
      have hsub : r - r % 2 ^ w = r % 2 ^ w * (2 ^ k - 1) := by
        rw [Nat.mul_sub_one, ← h]
      rw [hsub] at hdvd
      have hcop : Nat.Coprime (2 ^ w) (2 ^ k - 1) :=
        Nat.Coprime.pow_left w (Nat.coprime_two_left.2 (odd_two_pow_sub_one hk))
      have hzero : r % 2 ^ w = 0 :=
        Nat.eq_zero_of_dvd_of_lt (hcop.dvd_of_dvd_mul_right hdvd)
          (Nat.mod_lt _ (Nat.two_pow_pos w))
      rw [hzero, Nat.zero_mul] at h
      exact .inl h
  · rintro (rfl | ⟨rfl, hlt⟩)
    · rw [Nat.zero_mod, Nat.zero_mul]
    · rw [Nat.mod_eq_of_lt hlt, Nat.pow_zero, Nat.mul_one]

/-- Two parts with and without extra bits between them denote one number only when there are no
extra bits or the upper part is zero. -/
theorem mul_two_pow_add_eq_iff (he : w + e ≤ m) :
    n * 2 ^ m + r = n * 2 ^ (m - e) + r % 2 ^ w ↔ (e = 0 ∨ n = 0) ∧ r < 2 ^ w := by
  constructor
  · intro h
    have hlt : r % 2 ^ w < 2 ^ (m - e) := Nat.lt_of_lt_of_le (Nat.mod_lt _ (Nat.two_pow_pos w))
      (Nat.pow_le_pow_right Nat.two_pos (by omega))
    have hen : e = 0 ∨ n = 0 := by
      by_contra hne
      have hn : 1 ≤ n := by omega
      have hm : 2 ^ (m - e) * 2 ≤ 2 ^ m := by
        rw [← Nat.pow_succ]
        exact Nat.pow_le_pow_right Nat.two_pos (by omega)
      have h1 : n * (2 ^ (m - e) * 2) ≤ n * 2 ^ m := Nat.mul_le_mul_left n hm
      have h2 : 1 * 2 ^ (m - e) ≤ n * 2 ^ (m - e) := Nat.mul_le_mul_right _ hn
      rw [← Nat.mul_assoc] at h1
      omega
    refine ⟨hen, ?_⟩
    rw [(mul_two_pow_eq_iff (by omega)).2 hen, Nat.add_left_cancel_iff] at h
    rw [h]
    exact Nat.mod_lt _ (Nat.two_pow_pos w)
  · rintro ⟨hen, hlt⟩
    rw [(mul_two_pow_eq_iff (by omega)).2 hen, Nat.mod_eq_of_lt hlt]

theorem immediateBits_layout_iff {field : SlotField}
    (he : field.immediateEncoding = some encoding) (immValue : Nat) :
    Layout (field.immediateBits encoding immValue) (field.encodingPosition encoding)
        encoding.code.bits (field.immediatePosition encoding)
        (toBits encoding.immediateWidth immValue) ↔
      match field.componentIDPosition with
      | .left => (field.extraBits = 0 ∨ encoding.code.encoding = 0) ∧
        immValue % 2 ^ (field.width - encoding.code.width) < 2 ^ encoding.immediateWidth
      | .right => immValue % 2 ^ (field.width - encoding.code.width) = 0 ∨
        field.width = field.extraBits + encoding.width ∧
          immValue % 2 ^ (field.width - encoding.code.width) < 2 ^ encoding.immediateWidth := by
  have hw := immediate_width_le he
  rw [ImmediateEncoding.width] at *
  have henc : ofBits encoding.code.bits = encoding.code.encoding := by
    rw [Encoding.bits, ofBits_toBits, Nat.mod_eq_of_lt encoding.code.encoding_lt_width]
  have hmod : immValue % 2 ^ encoding.immediateWidth =
      immValue % 2 ^ (field.width - encoding.code.width) % 2 ^ encoding.immediateWidth :=
    (Nat.mod_mod_of_dvd _ (Nat.pow_dvd_pow 2 (by omega))).symm
  rw [immediateBits, encodingPosition, immediatePosition]
  cases field.componentIDPosition with
  | left =>
    dsimp only
    have hpos : field.width - field.extraBits - encoding.code.width =
        field.width - encoding.code.width - field.extraBits := by omega
    rw [layout_iff (by rw [length_toBits]; omega), ofBits_append, ofBits_toBits, ofBits_toBits,
      length_toBits, henc, hmod, hpos, mul_two_pow_add_eq_iff (by omega)]
  | right =>
    dsimp only
    have hpos : field.width - field.extraBits - encoding.immediateWidth =
        (field.width - field.extraBits - encoding.immediateWidth - encoding.code.width) +
          encoding.code.width := by omega
    rw [layout_comm, layout_iff (by rw [Encoding.length_bits]; omega), ofBits_append,
      ofBits_toBits, ofBits_toBits, Encoding.length_bits, Nat.add_right_cancel_iff, hmod, hpos,
      Nat.pow_add, ← Nat.mul_assoc,
      Nat.mul_right_cancel_iff (Nat.two_pow_pos encoding.code.width), eq_mod_mul_two_pow_iff]
    apply or_congr_right
    apply and_congr_left
    intro _
    omega

theorem immediatePlaced_iff {field : SlotField} (he : field.immediateEncoding = some encoding)
    (hv : immValue < 2 ^ 32) :
    field.ImmediatePlaced encoding immValue ↔ field.ImmediateAligned encoding immValue := by
  have hle := immediate_width_le he
  have hw : encoding.code.width ≤ field.width := by
    rw [ImmediateEncoding.width] at hle
    omega
  rw [ImmediateAligned, ← immediateBits_layout_iff he]
  constructor
  · intro h
    obtain ⟨bits, hb, -, hl⟩ := h []
    obtain ⟨h32, hi⟩ := encodeImmediateTerminal_ok he hv hb
    rw [encodeImmediateTerminal_eq he hv hw h32 hi] at hb
    injection hb with hb
    rw [List.nil_append, List.nil_append] at hb
    subst hb
    exact ⟨h32, hi, hl⟩
  · rintro ⟨h32, hi, hl⟩ bitVector
    exact ⟨_, encodeImmediateTerminal_eq he hv hw h32 hi bitVector,
      length_immediateBits hw immValue, hl⟩

/-- The encoder puts the parts of a slot field at their declared positions exactly when they are
aligned: for every socket of the field with any socket code, and for every immediate. -/
theorem placed_iff_aligned (field : SlotField) :
    (∀ socket ∈ field.encodings, ∀ codeBits : List Bool,
      codeBits.length = socket.socketCodeWidth →
        (field.SocketPlaced socket codeBits ↔ field.SocketAligned socket codeBits)) ∧
    ∀ encoding, field.immediateEncoding = some encoding → ∀ immValue, immValue < 2 ^ 32 →
      (field.ImmediatePlaced encoding immValue ↔ field.ImmediateAligned encoding immValue) :=
  ⟨fun _ hs _ hc => socketPlaced_iff hs hc, fun _ he _ hv => immediatePlaced_iff he hv⟩

/-- A source field with one socket and an immediate. -/
def socketAndImmediate (position : Position) (extraBits : Nat) (socket immediate : Encoding)
    (immediateWidth : Nat) : SlotField :=
  ⟨position, extraBits, [⟨"s1", socket, none⟩], none,
    some ⟨[], some ⟨immediate, immediateWidth⟩⟩⟩

theorem placed_without_extra_bits :
    (socketAndImmediate .left 0 ⟨1, 0, by decide, by decide⟩ ⟨0, 1, by decide, by decide⟩
        8).SocketPlaced ⟨"s1", ⟨1, 0, by decide, by decide⟩, none⟩ [] ∧
      (socketAndImmediate .left 0 ⟨1, 0, by decide, by decide⟩ ⟨0, 1, by decide, by decide⟩
        8).ImmediatePlaced ⟨⟨0, 1, by decide, by decide⟩, 8⟩ 200 :=
  ⟨((placed_iff_aligned _).1 _ List.mem_cons_self [] rfl).2 ⟨by decide, .inl rfl⟩,
    ((placed_iff_aligned _).2 _ rfl 200 (by decide)).2
      ⟨by decide, by decide, .inl rfl, by decide⟩⟩

/-- An extra bit moves the socket ID `1` of a field with the IDs on the left from its position, and
beside a wider socket ID a field with the IDs on the right has the immediate at another position
than the declared one. -/
theorem not_placed_wider_field :
    ¬ (socketAndImmediate .left 1 ⟨1, 0, by decide, by decide⟩ ⟨0, 1, by decide, by decide⟩
        0).SocketPlaced ⟨"s1", ⟨1, 0, by decide, by decide⟩, none⟩ [] ∧
      ¬ (socketAndImmediate .right 0 ⟨8, 0, by decide, by decide⟩ ⟨1, 0, by decide, by decide⟩
        2).ImmediatePlaced ⟨⟨1, 0, by decide, by decide⟩, 2⟩ 1 := by
  constructor
  · intro h
    obtain ⟨bits, hb, -, hl⟩ := h []
    have hbits : bits = [true, false] := by
      injection hb with hb
      exact hb.symm
    subst hbits
    have hfirst := hl.first 0 (by decide)
    revert hfirst
    decide
  · intro h
    obtain ⟨bits, hb, -, hl⟩ := h []
    have hbits : bits = [false, false, true, true] := by
      injection hb with hb
      exact hb.symm
    subst hbits
    have hsecond := hl.second 0 (by decide)
    revert hsecond
    decide

end SlotField

end Bem

end OpenAsip
