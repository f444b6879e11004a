import OpenAsip.BitStrings
import OpenAsip.Containers
import OpenAsip.InstructionTemplates
import OpenAsip.ReferenceFixing

namespace OpenAsip
set_option autoImplicit true

namespace SimValue

def simdWordWidth : Nat := 4096

/-- The bytes that a copy of a value takes over. The others are not initialised. -/
def byteCount (v : SimValue) : Nat := (v.width + 7) / 8

/-- `SimValue::bitElement`, which asserts the size of the largest value and not that of its own. -/
def bitElement (v : SimValue) (elementIndex : Nat) : Outcome Bool :=
  if elementIndex + 1 ≤ simdWordWidth then
    if elementIndex < 8 * v.byteCount then .ok (v.bits.testBit elementIndex)
    else .error .undefined
  else .error .assertion

end SimValue

namespace ITemplate.InstructionTemplate

/-- The slots of a unit. The first one has the most significant part of its immediates. -/
def slotsOfDestination (t : InstructionTemplate) (dstUnit : String) : List TemplateSlot :=
  t.slots.filter fun s => s.destination = dstUnit

/-- `supportedWidth` of a slot. -/
def slotWidth (t : InstructionTemplate) (slotName : String) : Nat :=
  match t.slots.find? fun s => s.slot = slotName with
  | some s => s.width
  | none => 0

/-- What `InstructionTemplate::addSlot` checks. -/
structure Valid (t : InstructionTemplate) : Prop where
  nodup : (t.slots.map TemplateSlot.slot).Nodup
  width_pos : ∀ s ∈ t.slots, 0 < s.width

theorem Valid.slotWidth_eq {t : InstructionTemplate} (h : t.Valid)
    (hs : s ∈ t.slots) : t.slotWidth s.slot = s.width := by
  rw [slotWidth, find?_of_mem h.nodup hs]

theorem Valid.destinationOfSlot_eq {t : InstructionTemplate}
    (h : t.Valid) (hs : s ∈ t.slots) : t.destinationOfSlot s.slot = some s.destination := by
  rw [destinationOfSlot, find?_of_mem h.nodup hs, Option.map_some]

end ITemplate.InstructionTemplate

namespace Pig
open ITemplate

/-- A long immediate of an instruction, with the instruction whose address it is. -/
structure Immediate where
  value : SimValue
  destinationUnit : String
  referenced : Option InstructionId
deriving DecidableEq, Repr

/-- The loop that finds the rightmost bit of the part of a slot, from the last slot on. -/
def rightmostBitToEncode (t : InstructionTemplate) (slotName : String) :
    List TemplateSlot → Nat → Nat
  | [], rightmost => rightmost
  | s :: slots, rightmost =>
    if s.slot ≠ slotName then
      rightmostBitToEncode t slotName slots (rightmost + t.slotWidth s.slot)
    else rightmost

/-- The part of the value for a slot behind the zeros that fill the slot, and the bounds of the
slot when the value is the address of an instruction. -/
def encodePart (t : InstructionTemplate) (slotName : String) (slotWidth : Nat) (dstUnit : String)
    (imm : Immediate) (bitVector : List Bool) :
    Outcome (List Bool × Option (InstructionId × IndexBound)) :=
  let rightmost := rightmostBitToEncode t slotName (t.slotsOfDestination dstUnit).reverse 0
  let limmSlotWidth := t.slotWidth slotName
  if 0 < limmSlotWidth ∧ limmSlotWidth ≤ slotWidth then do
    let bits ← (List.range limmSlotWidth).reverse.mapM fun j => imm.value.bitElement (rightmost + j)
    let bitVector := bitVector ++ List.replicate (slotWidth - limmSlotWidth) false ++ bits
    .ok (bitVector, imm.referenced.map fun instruction =>
      (instruction, ⟨bitVector.length - slotWidth, bitVector.length - 1,
        some ⟨limmSlotWidth, rightmost + limmSlotWidth - 1, rightmost⟩⟩))
  else .error .assertion

/-- `CodeCompressorPlugin::encodeLongImmediate`: the loop that should find the correct immediate
returns at the first one when the template uses the slot. -/
def encodeLongImmediate (t : InstructionTemplate) (slotName : String) (slotWidth : Nat) :
    List Immediate → List Bool → Outcome (List Bool × Option (InstructionId × IndexBound))
  | [], _ => .error .assertion
  | imm :: immediates, bitVector =>
    match t.destinationOfSlot slotName with
    | some dstUnit => encodePart t slotName slotWidth dstUnit imm bitVector
    | none => encodeLongImmediate t slotName slotWidth immediates bitVector

/-- The slots of an instruction: their widths, which of them are move slots, and the encoding of the
moves. -/
structure SlotFields where
  width : String → Nat
  isMoveSlot : String → Bool
  encodeMove : String → List Bool → Outcome (List Bool)

def addBitsForMoveSlot (fields : SlotFields) (t : InstructionTemplate) (slotName : String)
    (immediates : List Immediate) (bitVector : List Bool) :
    Outcome (List Bool × Option (InstructionId × IndexBound)) :=
  if t.usesSlot slotName then
    encodeLongImmediate t slotName (fields.width slotName) immediates bitVector
  else do
    let bits ← fields.encodeMove slotName bitVector
    .ok (bits, none)

def addBitsForImmediateSlot (fields : SlotFields) (t : InstructionTemplate) (slotName : String)
    (immediates : List Immediate) (bitVector : List Bool) :
    Outcome (List Bool × Option (InstructionId × IndexBound)) :=
  if t.usesSlot slotName then
    encodeLongImmediate t slotName (fields.width slotName) immediates bitVector
  else .ok (bitVector ++ List.replicate (fields.width slotName) false, none)

/-- The bits of a slot of the template in the instruction. -/
def slotBits (t : InstructionTemplate) (fields : SlotFields) (immediates : List Immediate)
    (s : TemplateSlot) : Outcome (List Bool) := do
  let r ← if fields.isMoveSlot s.slot then addBitsForMoveSlot fields t s.slot immediates []
    else addBitsForImmediateSlot fields t s.slot immediates []
  .ok r.1

/-- The parts of an immediate in the bits of its slots. -/
def decodeParts (slots : List TemplateSlot) (bits : List (List Bool)) : List Bool :=
  (List.zipWith (fun s b => b.drop (b.length - s.width)) slots bits).flatten

/-- The slots of the unit of an immediate hold its value. -/
def Decodes (t : InstructionTemplate) (fields : SlotFields) (immediates : List Immediate)
    (imm : Immediate) : Prop :=
  ∃ bits, (t.slotsOfDestination imm.destinationUnit).mapM (slotBits t fields immediates) =
      .ok bits ∧
    ofBits (decodeParts (t.slotsOfDestination imm.destinationUnit) bits) =
      imm.value.bits % 2 ^ t.supportedWidth imm.destinationUnit

/-- The width of a list of slots. -/
def partsWidth (slots : List TemplateSlot) : Nat := (slots.map TemplateSlot.width).sum

/-- The slots behind a slot have the bits to the right of its own. -/
theorem rightmostBitToEncode_eq {t : InstructionTemplate} (ht : t.Valid)
    (hslots : ∀ s' ∈ post, s' ∈ t.slots ∧ s'.slot ≠ s.slot) (pre : List TemplateSlot) (n : Nat) :
    rightmostBitToEncode t s.slot (post ++ s :: pre) n = n + partsWidth post := by
  induction post generalizing n with
  | nil =>
    rw [List.nil_append, rightmostBitToEncode, if_neg (not_not_intro rfl)]
    rfl
  | cons s' post ih =>
    obtain ⟨hmem, hne⟩ := hslots s' List.mem_cons_self
    rw [List.cons_append, rightmostBitToEncode, if_pos hne, ht.slotWidth_eq hmem,
      ih fun s'' hs => hslots s'' (List.mem_cons_of_mem s' hs), Nat.add_assoc]
    rfl

theorem partsWidth_reverse (slots : List TemplateSlot) :
    partsWidth slots.reverse = partsWidth slots := by
  rw [partsWidth, List.map_reverse, List.sum_reverse]
  rfl

theorem bitElement_ok {v : SimValue} : v.bitElement i = .ok b ↔
    i + 1 ≤ SimValue.simdWordWidth ∧ i < 8 * v.byteCount ∧ v.bits.testBit i = b := by
  rw [SimValue.bitElement]
  by_cases hs : i + 1 ≤ SimValue.simdWordWidth
  · by_cases hb : i < 8 * v.byteCount
    · rw [if_pos hs, if_pos hb, Except.ok.injEq]
      exact (and_iff_right hs).trans (and_iff_right hb) |>.symm
    · rw [if_pos hs, if_neg hb]
      exact iff_of_false nofun fun h => hb h.2.1
  · rw [if_neg hs]
    exact iff_of_false nofun fun h => hs h.1

/-- The bits of a value from the bit `rightmost` on are read when its bytes have them. -/
theorem bitElements_ok {v : SimValue} {bits : List Bool} :
    (List.range w).reverse.mapM (fun j => v.bitElement (rightmost + j)) = .ok bits ↔
      (0 < w → rightmost + w ≤ SimValue.simdWordWidth ∧ rightmost + w ≤ 8 * v.byteCount) ∧
        bits = toBits w (v.bits / 2 ^ rightmost) := by
  induction w generalizing bits with
  | zero =>
    constructor
    · rintro ⟨⟩
      exact ⟨nofun, rfl⟩
    · rintro ⟨-, rfl⟩
      rfl
  | succ w ih =>
    rw [List.range_succ, List.reverse_append, List.reverse_singleton, List.singleton_append,
      List.mapM_cons, toBits, Nat.testBit_div_two_pow, Nat.add_comm w rightmost]
    constructor
    · intro h
      obtain ⟨b, hb, h⟩ := Except.bind_ok h
      obtain ⟨rest, hrest, h⟩ := Except.bind_ok h
      cases h
      obtain ⟨hsimd, hbytes, rfl⟩ := bitElement_ok.1 hb
      exact ⟨fun _ => ⟨hsimd, hbytes⟩, by rw [(ih.1 hrest).2]⟩
    · rintro ⟨hw, rfl⟩
      obtain ⟨hsimd, hbytes⟩ := hw (Nat.succ_pos w)
      have hb : v.bitElement (rightmost + w) = .ok (v.bits.testBit (rightmost + w)) :=
        bitElement_ok.2 ⟨hsimd, hbytes, rfl⟩
      rw [hb]
      have hrest := ih.2 ⟨fun _ => ⟨by omega, by omega⟩, rfl⟩
      change ((List.range w).reverse.mapM (fun j => v.bitElement (rightmost + j)) >>= fun rest =>
        .ok (v.bits.testBit (rightmost + w) :: rest)) = _
      rw [hrest]
      rfl

/-- The bits that a slot of the template should have: zeros and the part of the first immediate. -/
def expectedBits (fields : SlotFields) (v : SimValue) (s : TemplateSlot) (rightmost : Nat) :
    List Bool :=
  List.replicate (fields.width s.slot - s.width) false ++ toBits s.width (v.bits / 2 ^ rightmost)

/-- The value has the bits of a slot, and the slot has room for them. -/
def PartFits (fields : SlotFields) (v : SimValue) (s : TemplateSlot) (rightmost : Nat) : Prop :=
  s.width ≤ fields.width s.slot ∧ rightmost + s.width ≤ SimValue.simdWordWidth ∧
    rightmost + s.width ≤ 8 * v.byteCount

theorem slotBits_eq {t : InstructionTemplate} (fields : SlotFields) (immediates : List Immediate)
    (hs : s ∈ t.slots) : slotBits t fields immediates s =
      (encodeLongImmediate t s.slot (fields.width s.slot) immediates []).map Prod.fst := by
  have huses : t.usesSlot s.slot := ⟨s, hs, rfl⟩
  rw [slotBits, addBitsForMoveSlot, addBitsForImmediateSlot, if_pos huses, if_pos huses, ite_self]
  cases encodeLongImmediate t s.slot (fields.width s.slot) immediates [] <;> rfl

/-- A slot gets its part of the first immediate of the instruction, whatever its unit is. -/
theorem slotBits_ok {t : InstructionTemplate} (fields : SlotFields) (first : Immediate)
    (immediates : List Immediate) {bits : List Bool} (ht : t.Valid)
    (hslots : t.slotsOfDestination s.destination = pre ++ s :: post) :
    slotBits t fields (first :: immediates) s = .ok bits ↔
      PartFits fields first.value s (partsWidth post) ∧
        bits = expectedBits fields first.value s (partsWidth post) := by
  have hmem : ∀ s' ∈ pre ++ s :: post, s' ∈ t.slots := by
    intro s' hs'
    rw [← hslots] at hs'
    exact List.mem_of_mem_filter hs'
  have hs : s ∈ t.slots := hmem s (List.mem_append_right _ List.mem_cons_self)
  have hnodup : ((pre ++ s :: post).map TemplateSlot.slot).Nodup := by
    rw [← hslots]
    exact ht.nodup.sublist (List.filter_sublist.map _)
  have hpost : ∀ s' ∈ post.reverse, s' ∈ t.slots ∧ s'.slot ≠ s.slot := by
    intro s' hs'
    rw [List.mem_reverse] at hs'
    refine ⟨hmem s' (List.mem_append_right _ (List.mem_cons_of_mem s hs')), fun heq => ?_⟩
    rw [List.map_append, List.map_cons] at hnodup
    have := (List.nodup_cons.1 (List.nodup_append.1 hnodup).2.1).1
    exact this (heq ▸ List.mem_map_of_mem hs')
  have hright : rightmostBitToEncode t s.slot (t.slotsOfDestination s.destination).reverse 0 =
      partsWidth post := by
    rw [hslots, List.reverse_append, List.reverse_cons, List.append_assoc, List.singleton_append,
      rightmostBitToEncode_eq ht hpost, partsWidth_reverse, Nat.zero_add]
  have hpos := ht.width_pos s hs
  rw [slotBits_eq fields _ hs, encodeLongImmediate, ht.destinationOfSlot_eq hs]
  dsimp only
  rw [encodePart, hright, ht.slotWidth_eq hs]
  by_cases hw : s.width ≤ fields.width s.slot
  · rw [if_pos ⟨hpos, hw⟩]
    constructor
    · intro h
      cases hpart : (List.range s.width).reverse.mapM fun j =>
          first.value.bitElement (partsWidth post + j) with
      | error e =>
        rw [hpart] at h
        cases h
      | ok part =>
        rw [hpart] at h
        cases h
        obtain ⟨hfits, rfl⟩ := bitElements_ok.1 hpart
        exact ⟨⟨hw, hfits hpos⟩, rfl⟩
    · rintro ⟨⟨-, hfits⟩, rfl⟩
      rw [bitElements_ok.2 ⟨fun _ => hfits, rfl⟩]
      rfl
  · rw [if_neg fun h => hw h.2]
    exact iff_of_false nofun fun h => hw h.1.1

/-- The bits of the last slots of a unit. -/
def expectedParts (fields : SlotFields) (v : SimValue) : List TemplateSlot → List (List Bool)
  | [] => []
  | s :: post => expectedBits fields v s (partsWidth post) :: expectedParts fields v post

theorem slotsBits_ok {t : InstructionTemplate} (fields : SlotFields) (first : Immediate)
    (immediates : List Immediate) {bits : List (List Bool)} (ht : t.Valid)
    (hslots : t.slotsOfDestination unit = pre ++ slots) :
    slots.mapM (slotBits t fields (first :: immediates)) = .ok bits ↔
      ((∀ s ∈ slots, s.width ≤ fields.width s.slot) ∧
        partsWidth slots ≤ SimValue.simdWordWidth ∧
          partsWidth slots ≤ 8 * first.value.byteCount) ∧
        bits = expectedParts fields first.value slots := by
  induction slots generalizing pre bits with
  | nil =>
    constructor
    · rintro ⟨⟩
      exact ⟨⟨nofun, Nat.zero_le _, Nat.zero_le _⟩, rfl⟩
    · rintro ⟨-, rfl⟩
      rfl
  | cons s post ih =>
    have hdst : s.destination = unit := by
      have hs : s ∈ t.slotsOfDestination unit := by
        rw [hslots]
        exact List.mem_append_right _ List.mem_cons_self
      exact of_decide_eq_true (List.mem_filter.1 hs).2
    have hpost : t.slotsOfDestination unit = (pre ++ [s]) ++ post := by
      rw [hslots, List.append_assoc, List.singleton_append]
    have hwidth : partsWidth (s :: post) = partsWidth post + s.width := by
      rw [partsWidth, List.map_cons, List.sum_cons, Nat.add_comm]
      rfl
    have hdslots : t.slotsOfDestination s.destination = pre ++ s :: post := hdst ▸ hslots
    rw [List.mapM_cons, List.forall_mem_cons, hwidth, expectedParts]
    constructor
    · intro h
      obtain ⟨b, hb, h⟩ := Except.bind_ok h
      obtain ⟨rest, hrest, h⟩ := Except.bind_ok h
      cases h
      obtain ⟨⟨hw, hsimd, hbytes⟩, rfl⟩ :=
        (slotBits_ok fields first immediates ht hdslots).1 hb
      obtain ⟨⟨hws, -, -⟩, rfl⟩ := (ih hpost).1 hrest
      exact ⟨⟨⟨hw, hws⟩, hsimd, hbytes⟩, rfl⟩
    · rintro ⟨⟨⟨hw, hws⟩, hsimd, hbytes⟩, rfl⟩
      rw [(slotBits_ok fields first immediates ht hdslots).2 ⟨⟨hw, hsimd, hbytes⟩, rfl⟩]
      have hrest := (ih hpost).2 ⟨⟨hws, by omega, by omega⟩, rfl⟩
      change (post.mapM (slotBits t fields (first :: immediates)) >>= fun rest =>
        .ok (expectedBits fields first.value s (partsWidth post) :: rest)) = _
      rw [hrest]
      rfl

/-- The parts of a value in its slots, one behind the other, are the value. -/
theorem decodeParts_expected (fields : SlotFields) (v : SimValue)
    (slots : List TemplateSlot) :
    decodeParts slots (expectedParts fields v slots) = toBits (partsWidth slots) v.bits := by
  induction slots with
  | nil => rfl
  | cons s post ih =>
    have hpart : (expectedBits fields v s (partsWidth post)).drop
        ((expectedBits fields v s (partsWidth post)).length - s.width) =
          toBits s.width (v.bits / 2 ^ partsWidth post) := by
      rw [expectedBits, List.length_append, List.length_replicate, length_toBits,
        Nat.add_sub_cancel]
      exact List.drop_left' (List.length_replicate)
    rw [decodeParts, expectedParts, List.zipWith_cons_cons, List.flatten_cons, hpart]
    change _ ++ decodeParts post (expectedParts fields v post) = _
    rw [ih, ← toBits_add]
    rfl

/-- The immediates of an instruction are encoded right exactly when each slot has room for its
part, and the first immediate has, for every unit that is written, the same bits as the immediate
of that unit. -/
theorem encodeLongImmediate_decodes_iff (t : InstructionTemplate) (fields : SlotFields)
    (first : Immediate) (immediates : List Immediate) (ht : t.Valid) :
    (∀ imm ∈ first :: immediates, Decodes t fields (first :: immediates) imm) ↔
      ∀ imm ∈ first :: immediates,
        (∀ s ∈ t.slotsOfDestination imm.destinationUnit, s.width ≤ fields.width s.slot) ∧
          t.supportedWidth imm.destinationUnit ≤ SimValue.simdWordWidth ∧
          t.supportedWidth imm.destinationUnit ≤ 8 * first.value.byteCount ∧
          first.value.bits % 2 ^ t.supportedWidth imm.destinationUnit =
            imm.value.bits % 2 ^ t.supportedWidth imm.destinationUnit := by
  refine forall₂_congr fun imm himm => ?_
  have hslots := (List.nil_append (t.slotsOfDestination imm.destinationUnit)).symm
  constructor
  · rintro ⟨bits, hok, hvalue⟩
    obtain ⟨⟨hw, hsimd, hbytes⟩, rfl⟩ := (slotsBits_ok fields first immediates ht hslots).1 hok
    rw [decodeParts_expected, ofBits_toBits] at hvalue
    exact ⟨hw, hsimd, hbytes, hvalue⟩
  · rintro ⟨hw, hsimd, hbytes, hvalue⟩
    refine ⟨_, (slotsBits_ok fields first immediates ht hslots).2 ⟨⟨hw, hsimd, hbytes⟩, rfl⟩, ?_⟩
    rw [decodeParts_expected, ofBits_toBits]
    exact hvalue

/-- Two move slots of ten bits, whose moves are not encoded here. -/
def tenBits : SlotFields := ⟨fun _ => 10, fun _ => true, fun _ _ => .error .assertion⟩

/-- A template with one slot for each of two units. -/
def twoUnits : InstructionTemplate :=
  ⟨"limm", [⟨"B0", 8, "IU0"⟩, ⟨"B1", 8, "IU1"⟩]⟩

theorem twoUnits_valid : twoUnits.Valid := ⟨by decide, by decide⟩

theorem encodeLongImmediate_decodes_oneUnit :
    (∀ imm ∈ [Immediate.mk ⟨0xab, 8⟩ "IU1" none],
        Decodes twoUnits tenBits [⟨⟨0xab, 8⟩, "IU1", none⟩] imm) ↔
      ∀ imm ∈ [Immediate.mk ⟨0xab, 8⟩ "IU1" none],
        (∀ s ∈ twoUnits.slotsOfDestination imm.destinationUnit, s.width ≤ tenBits.width s.slot) ∧
          twoUnits.supportedWidth imm.destinationUnit ≤ SimValue.simdWordWidth ∧
          twoUnits.supportedWidth imm.destinationUnit ≤ 8 * SimValue.byteCount ⟨0xab, 8⟩ ∧
          0xab % 2 ^ twoUnits.supportedWidth imm.destinationUnit =
            imm.value.bits % 2 ^ twoUnits.supportedWidth imm.destinationUnit :=
  encodeLongImmediate_decodes_iff twoUnits tenBits ⟨⟨0xab, 8⟩, "IU1", none⟩ []
    ⟨by decide, by decide⟩

/-- With two immediates the slot of the second unit gets the value of the first one. -/
theorem encodeLongImmediate_first_only :
    ¬ ∀ (t : InstructionTemplate) (fields : SlotFields) (first : Immediate)
      (immediates : List Immediate), t.Valid →
        ∀ imm ∈ first :: immediates, Decodes t fields (first :: immediates) imm := by
  intro h
  obtain ⟨bits, hok, hvalue⟩ := h twoUnits tenBits ⟨⟨1, 8⟩, "IU0", none⟩
    [⟨⟨2, 8⟩, "IU1", none⟩] twoUnits_valid ⟨⟨2, 8⟩, "IU1", none⟩
    (List.mem_cons_of_mem _ List.mem_cons_self)
  have hbits : (twoUnits.slotsOfDestination "IU1").mapM (slotBits twoUnits tenBits
      [⟨⟨1, 8⟩, "IU0", none⟩, ⟨⟨2, 8⟩, "IU1", none⟩]) = .ok [toBits 10 1] := by decide
  cases hok.symm.trans hbits
  exact absurd hvalue (by decide)

/-- The bits behind those that are there do not depend on them. -/
theorem encodeLongImmediate_append (t : InstructionTemplate) (slotName : String) (slotWidth : Nat)
    (immediates : List Immediate) (bitVector : List Bool) :
    (encodeLongImmediate t slotName slotWidth immediates bitVector).map Prod.fst =
      (encodeLongImmediate t slotName slotWidth immediates []).map
        fun r => bitVector ++ r.1 := by
  induction immediates with
  | nil => rfl
  | cons imm immediates ih =>
    rw [encodeLongImmediate, encodeLongImmediate]
    cases t.destinationOfSlot slotName with
    | none => exact ih
    | some dstUnit =>
      dsimp only
      rw [encodePart, encodePart]
      split
      case isFalse => rfl
      case isTrue =>
        cases hbits : (List.range (t.slotWidth slotName)).reverse.mapM fun j =>
            imm.value.bitElement (rightmostBitToEncode t slotName
              (t.slotsOfDestination dstUnit).reverse 0 + j) with
        | error e => rfl
        | ok bits =>
          change Except.ok (bitVector ++ _ ++ bits) = Except.ok (bitVector ++ ([] ++ _ ++ bits))
          rw [List.nil_append, List.append_assoc]

/-- The bounds that are noted for an address are those of its slot, with a slice that `fixBits`
accepts. -/
theorem encodeLongImmediate_bound {t : InstructionTemplate}
    (h : encodeLongImmediate t slotName slotWidth immediates bitVector =
      .ok (bits, some (reference, b))) :
    InstructionBitVector.Inside bits.length [b] ∧ b.slotStartIndex = bitVector.length ∧
      b.width = slotWidth := by
  induction immediates with
  | nil => cases h
  | cons imm immediates ih =>
    rw [encodeLongImmediate] at h
    cases hd : t.destinationOfSlot slotName with
    | none =>
      rw [hd] at h
      exact ih h
    | some dstUnit =>
      rw [hd] at h
      dsimp only at h
      rw [encodePart] at h
      split at h
      case isFalse => cases h
      case isTrue hw =>
        obtain ⟨part, hpart, h⟩ := Except.bind_ok h
        obtain ⟨-, rfl⟩ := bitElements_ok.1 hpart
        simp only [Except.ok.injEq, Prod.mk.injEq, Option.map_eq_some_iff] at h
        obtain ⟨rfl, i, -, -, rfl⟩ := h
        have hlen (r : Nat) : (bitVector ++ List.replicate (slotWidth - t.slotWidth slotName) false ++
            toBits (t.slotWidth slotName) r).length = bitVector.length + slotWidth := by
          rw [List.length_append, List.length_append, List.length_replicate, length_toBits]
          omega
        rw [hlen]
        refine ⟨⟨?_, ?_, ?_, List.pairwise_singleton _ _⟩, ?_, ?_⟩
        · intro c hc
          cases List.mem_singleton.1 hc
          dsimp only
          omega
        · intro c hc
          cases List.mem_singleton.1 hc
          dsimp only
          omega
        · intro c hc l hl
          cases List.mem_singleton.1 hc
          cases hl
          dsimp only
          omega
        · exact Nat.add_sub_cancel _ _
        · rw [IndexBound.width]
          dsimp only
          omega

end Pig

end OpenAsip
