import Mathlib.Data.List.Pairwise
import OpenAsip.ReferencePositions

namespace OpenAsip
set_option autoImplicit true

namespace Pig
open InstructionBitVector

/-- The settings of `CodeCompressorPlugin` that an image depends on. -/
structure PluginSettings where
  mau : Nat
  mau_pos : 0 < mau
  addressSpaceOffset : Nat
  allStartsAtBeginningOfMAU : Bool
  instructionsAtBeginningOfMAU : List InstructionId

/-- What `CodeCompressorPlugin` keeps while it builds an image. -/
structure PluginState where
  programBits : Option InstructionBitVector
  instructionAddresses : StdMap InstructionId Nat
deriving DecidableEq

namespace InstructionBitVector

/-- A vector whose references to known addresses hold these addresses, and whose other bits are
those of `raw`. -/
structure Relocated (v : InstructionBitVector) (raw : List Bool) : Prop where
  length_eq : v.bits.length = raw.length
  referencesOk : ReferencesOk v.bits.length v.references
  outside : ∀ i, (∀ r ∈ v.references, ¬ Covers r.2 i) → v.bits[i]? = raw[i]?
  address_lt : ∀ i address, v.instructionAddresses.lookup i = some address → address < 2 ^ 32
  wideEnough : ∀ r ∈ v.references, ∀ address, v.instructionAddresses.lookup r.1 = some address →
    WideEnough r.2 address
  written : ∀ r ∈ v.references, ∀ address, v.instructionAddresses.lookup r.1 = some address →
    ∀ p ∈ layout r.2, v.bits[p.1]? = some (address.testBit p.2)

theorem covers_lt (h : TableOk size indexes) (hi : Covers indexes i) : i < size := by
  obtain ⟨b, hb, hcov⟩ := hi
  exact Nat.lt_of_le_of_lt hcov.2 (h.end_lt b hb)

theorem ReferencesOk.mono (h : ReferencesOk size refs) (hs : size ≤ size') :
    ReferencesOk size' refs :=
  ⟨fun r hr => (h.table r hr).mono hs, h.apart⟩

/-- References before a position and references after it do not overlap. -/
theorem ReferencesOk.append_shift (h : ReferencesOk n refs) (h' : ReferencesOk size refs') :
    ReferencesOk (n + size) (refs ++ refs'.map (shiftReference n)) := by
  constructor
  · intro r hr
    rcases List.mem_append.1 hr with hr | hr
    · exact (h.table r hr).mono (Nat.le_add_right n size)
    · obtain ⟨s, hs, rfl⟩ := List.mem_map.1 hr
      exact (h'.table s hs).shift n
  · apply List.pairwise_append.2
    refine ⟨h.apart, ?_, ?_⟩
    · apply List.pairwise_map.2
      apply h'.apart.imp
      intro r s hrs i hi hi'
      exact hrs (i - n) (covers_shift.1 hi).2 (covers_shift.1 hi').2
    · intro r hr s hs i hi hi'
      obtain ⟨t, -, rfl⟩ := List.mem_map.1 hs
      have hlt := covers_lt (h.table r hr) hi
      have hle := (covers_shift.1 hi').1
      omega

theorem Relocated.pad {v : InstructionBitVector} (h : v.Relocated raw) (n : Nat) :
    Relocated { v with bits := v.bits ++ List.replicate n false }
      (raw ++ List.replicate n false) := by
  have hlen : v.bits.length ≤ (v.bits ++ List.replicate n false).length := by
    rw [List.length_append]
    exact Nat.le_add_right _ _
  constructor
  · rw [List.length_append, List.length_append, h.length_eq]
  · exact h.referencesOk.mono hlen
  · intro i hi
    change (v.bits ++ _)[i]? = _
    by_cases hlt : i < v.bits.length
    · rw [List.getElem?_append_left hlt, List.getElem?_append_left (h.length_eq ▸ hlt)]
      exact h.outside i hi
    · rw [List.getElem?_append_right (Nat.le_of_not_lt hlt),
        List.getElem?_append_right (h.length_eq ▸ Nat.le_of_not_lt hlt), h.length_eq]
  · exact h.address_lt
  · exact h.wideEnough
  · intro r hr address ha p hp
    have hok := h.referencesOk.table r hr
    have hlt := covers_lt hok (layout_covered hok hp)
    change (v.bits ++ _)[p.1]? = _
    rw [List.getElem?_append_left hlt]
    exact h.written r hr address ha p hp

/-- A vector is appended with its references to known addresses fixed. -/
theorem Relocated.pushBack {v b : InstructionBitVector} (h : v.Relocated raw)
    (hb : ReferencesOk b.bits.length b.references)
    (hsize : v.bits.length + b.bits.length ≤ 2 ^ 32)
    (hw : ∀ r ∈ b.references, ∀ address, v.instructionAddresses.lookup r.1 = some address →
      WideEnough r.2 address)
    (hr : ∀ r ∈ b.references, ∀ address, v.instructionAddresses.lookup r.1 = some address →
      Readable r.2 address) :
    ∃ v', v.pushBack b = .ok v' ∧ v'.Relocated (raw ++ b.bits) ∧
      v'.references = v.references ++ b.references.map (shiftReference v.bits.length) ∧
      v'.instructionBoundaries = v.instructionBoundaries ∧
      v'.instructionAddresses = v.instructionAddresses := by
  obtain ⟨copy, hcopy⟩ := fixReferences_ok (fun i => v.instructionAddresses.lookup i) hb
    fun r hr' address ha =>
      ⟨h.address_lt r.1 address ha, hw r hr' address ha, hr r hr' address ha⟩
  have hfixed := fixReferences_spec hb (fun r _ => h.address_lt r.1) hcopy
  have hrefs : b.references.map (rebase v.bits.length) =
      b.references.map (shiftReference v.bits.length) := by
    apply List.map_congr_left
    intro r hr'
    exact rebase_eq (hb.table r hr') hsize
  refine ⟨{ v with
    references := v.references ++ b.references.map (shiftReference v.bits.length)
    bits := v.bits ++ copy }, ?_, ?_, rfl, rfl, rfl⟩
  · rw [InstructionBitVector.pushBack, hcopy, hrefs]
    rfl
  constructor
  · change (v.bits ++ copy).length = _
    rw [List.length_append, List.length_append, hfixed.length_eq, h.length_eq]
  · change ReferencesOk (v.bits ++ copy).length _
    rw [List.length_append, hfixed.length_eq]
    exact h.referencesOk.append_shift hb
  · intro i hi
    change (v.bits ++ copy)[i]? = _
    by_cases hlt : i < v.bits.length
    · rw [List.getElem?_append_left hlt, List.getElem?_append_left (h.length_eq ▸ hlt)]
      exact h.outside i fun r hr' => hi r (List.mem_append_left _ hr')
    · rw [List.getElem?_append_right (Nat.le_of_not_lt hlt),
        List.getElem?_append_right (h.length_eq ▸ Nat.le_of_not_lt hlt), ← h.length_eq]
      apply hfixed.outside
      intro r hr' _ hcov
      exact hi _ (List.mem_append_right _ (List.mem_map_of_mem hr'))
        (covers_shift.2 ⟨Nat.le_of_not_lt hlt, hcov⟩)
  · exact h.address_lt
  · intro r hr' address ha
    rcases List.mem_append.1 hr' with hr' | hr'
    · exact h.wideEnough r hr' address ha
    · obtain ⟨s, hs, rfl⟩ := List.mem_map.1 hr'
      exact (hw s hs address ha).shift _
  · intro r hr' address ha p hp
    change (v.bits ++ copy)[p.1]? = _
    rcases List.mem_append.1 hr' with hr' | hr'
    · have hok := h.referencesOk.table r hr'
      rw [List.getElem?_append_left (covers_lt hok (layout_covered hok hp))]
      exact h.written r hr' address ha p hp
    · obtain ⟨s, hs, rfl⟩ := List.mem_map.1 hr'
      change p ∈ layout (s.2.map _) at hp
      rw [layout_shift] at hp
      obtain ⟨q, hq, rfl⟩ := List.mem_map.1 hp
      rw [List.getElem?_append_right (Nat.le_add_left _ _), Nat.add_sub_cancel]
      exact hfixed.written s hs address ha q hq

/-- The references to an instruction are fixed in place when its address becomes known. -/
theorem Relocated.fixInstructionAddress {v : InstructionBitVector} (h : v.Relocated raw)
    (instruction : InstructionId) (address : Nat)
    (hnew : v.instructionAddresses.lookup instruction = none) (hlt : address < 2 ^ 32)
    (hw : ∀ r ∈ v.references, r.1 = instruction → WideEnough r.2 address)
    (hr : ∀ r ∈ v.references, r.1 = instruction → Readable r.2 address) :
    ∃ v', v.fixInstructionAddress instruction address = .ok v' ∧ v'.Relocated raw ∧
      v'.references = v.references ∧ v'.instructionBoundaries = v.instructionBoundaries ∧
      v'.instructionAddresses = v.instructionAddresses.insert instruction address := by
  have honly {i value : Nat} (hi : (if i = instruction then some address else none) = some value) :
      i = instruction ∧ value = address := by
    split at hi
    · rename_i he
      cases hi
      exact ⟨he, rfl⟩
    · cases hi
  obtain ⟨fixed, hok⟩ := fixReferences_ok (fun i => if i = instruction then some address else none)
    h.referencesOk (by
      intro r hr' value hval
      obtain ⟨he, rfl⟩ := honly hval
      exact ⟨hlt, hw r hr' he, hr r hr' he⟩)
  have hfixed := fixReferences_spec h.referencesOk (by
    intro r _ value hval
    rw [(honly hval).2]
    exact hlt) hok
  have hlookup {i value : Nat}
      (hi : (v.instructionAddresses.insert instruction address).lookup i = some value) :
      i = instruction ∧ value = address ∨ i ≠ instruction ∧
        v.instructionAddresses.lookup i = some value := by
    by_cases he : i = instruction
    · subst he
      rw [StdMap.lookup_insert_self hnew] at hi
      cases hi
      exact .inl ⟨rfl, rfl⟩
    · rw [StdMap.lookup_insert_ne he] at hi
      exact .inr ⟨he, hi⟩
  refine ⟨{ v with
    instructionAddresses := v.instructionAddresses.insert instruction address
    bits := fixed }, ?_, ?_, rfl, rfl, rfl⟩
  · rw [InstructionBitVector.fixInstructionAddress, hok]
    rfl
  constructor
  · exact hfixed.length_eq.trans h.length_eq
  · change ReferencesOk fixed.length _
    rw [hfixed.length_eq]
    exact h.referencesOk
  · intro i hi
    exact (hfixed.outside i fun r hr' _ => hi r hr').trans (h.outside i hi)
  · intro i value hi
    rcases hlookup hi with ⟨-, rfl⟩ | ⟨-, hi⟩
    · exact hlt
    · exact h.address_lt i value hi
  · intro r hr' value hi
    rcases hlookup hi with ⟨he, rfl⟩ | ⟨-, hi⟩
    · exact hw r hr' he
    · exact h.wideEnough r hr' value hi
  · intro r hr' value hi p hp
    rcases hlookup hi with ⟨he, rfl⟩ | ⟨hne, hi⟩
    · exact hfixed.written r hr' value (if_pos he) p hp
    · -- the references to other instructions do not overlap with those that are fixed
      change fixed[p.1]? = _
      rw [hfixed.outside p.1]
      · exact h.written r hr' value hi p hp
      · intro s hs hsome hcov
        have hes : s.1 = instruction := by
          obtain ⟨value', hval⟩ := Option.isSome_iff_exists.1 hsome
          exact (honly hval).1
        have hrs : r ≠ s := fun heq => hne (heq ▸ hes)
        have hsymm : Std.Symm fun r s : Reference => ∀ i, Covers r.2 i → ¬ Covers s.2 i :=
          ⟨fun _ _ hab i hb ha => hab i ha hb⟩
        exact h.referencesOk.apart.forall hr' hs hrs p.1
          (layout_covered (h.referencesOk.table r hr') hp) hcov

end InstructionBitVector

namespace CodeCompressorPlugin

def startsAtBeginningOfMAU (c : PluginSettings) (instruction : InstructionId) : Bool :=
  c.allStartsAtBeginningOfMAU || c.instructionsAtBeginningOfMAU.contains instruction

def nextAddressablePositionFrom (c : PluginSettings) (position : Nat) : Nat :=
  if position % c.mau = 0 then position else (position + c.mau - position % c.mau) % 2 ^ 32

/-- Where an instruction starts when the first free bit is given. -/
def instructionPosition (c : PluginSettings) (instruction : InstructionId)
    (firstFree : Nat) : Nat :=
  if startsAtBeginningOfMAU c instruction then nextAddressablePositionFrom c firstFree
  else firstFree

def memoryAddress (c : PluginSettings) (position : Nat) : Nat :=
  (c.addressSpaceOffset + position / c.mau) % 2 ^ 32

/-- `startNewProgram`. The addresses of earlier programs are not forgotten. -/
def startNewProgram (s : PluginState) : PluginState :=
  { s with programBits := some ⟨[], [], [], []⟩ }

def addInstruction (c : PluginSettings) (s : PluginState)
    (a : InstructionId × InstructionBitVector) : Outcome PluginState :=
  match s.programBits with
  | none => .error (.exception .invalidData)
  | some v => do
    let firstFree := v.bits.length % 2 ^ 32
    let position := instructionPosition c a.1 firstFree
    let padded := { v with bits := v.bits ++ List.replicate (position - firstFree) false }
    let pushed ← padded.pushBack a.2
    let marked ← pushed.markInstructionStartingPoint position
    let fixed ← marked.fixInstructionAddress a.1 (memoryAddress c position)
    return {
      programBits := some fixed
      instructionAddresses := s.instructionAddresses.insert a.1 (memoryAddress c position) }

/-- The image and its references before any address is known: the instructions at their positions
with zeros between them. -/
def place (c : PluginSettings) (image : List Bool × List Reference)
    (a : InstructionId × InstructionBitVector) : List Bool × List Reference :=
  let position := instructionPosition c a.1 image.1.length
  (image.1 ++ List.replicate (position - image.1.length) false ++ a.2.bits,
    image.2 ++ a.2.references.map (shiftReference position))

/-- The instructions that an image may be given. -/
structure Acceptable (c : PluginSettings) (s : PluginState)
    (a : InstructionId × InstructionBitVector) : Prop where
  /-- The instruction has not been added before. -/
  fresh : s.instructionAddresses.lookup a.1 = none
  /-- The bits of the image can be counted by an `unsigned`. -/
  size_lt : ∀ v ∈ s.programBits,
    v.bits.length + c.mau + a.2.bits.length < 2 ^ 32
  references : ReferencesOk a.2.bits.length a.2.references
  /-- The references to the instruction and those in it have place for the addresses. -/
  wideEnough : ∀ v ∈ s.programBits, ∀ r ∈ v.references ++ a.2.references,
    ∀ address ∈ (v.instructionAddresses.insert a.1
      (memoryAddress c (instructionPosition c a.1 v.bits.length))).lookup r.1,
      WideEnough r.2 address
  /-- No bit of the address is asked for that `MathTools::bit` cannot read. -/
  readable : ∀ v ∈ s.programBits, ∀ r ∈ v.references ++ a.2.references,
    ∀ address ∈ (v.instructionAddresses.insert a.1
      (memoryAddress c (instructionPosition c a.1 v.bits.length))).lookup r.1, Readable r.2 address

/-- The state after some instructions, with the image and the references as they were handed in. -/
structure Image (s : PluginState) (v : InstructionBitVector)
    (placed : List Bool × List Reference) (ids : List InstructionId) : Prop where
  programBits : s.programBits = some v
  relocated : v.Relocated placed.1
  references_eq : v.references = placed.2
  boundaries : v.instructionBoundaries.Pairwise (· < ·)
  recorded : ∀ i address, v.instructionAddresses.lookup i = some address →
    s.instructionAddresses.lookup i = some address
  known : ∀ i ∈ ids, (v.instructionAddresses.lookup i).isSome = true

theorem instructionPosition_bounds (c : PluginSettings) (instruction : InstructionId)
    (firstFree : Nat) (h : firstFree + c.mau < 2 ^ 32) :
    firstFree ≤ instructionPosition c instruction firstFree ∧
      instructionPosition c instruction firstFree ≤ firstFree + c.mau := by
  rw [instructionPosition]
  split
  · rw [nextAddressablePositionFrom]
    split
    · omega
    · have hmod := Nat.mod_lt firstFree c.mau_pos
      rw [Nat.mod_eq_of_lt (by omega)]
      omega
  · omega

theorem Image.startNewProgram (s : PluginState) :
    Image (startNewProgram s) ⟨[], [], [], []⟩ ([], []) [] where
  programBits := rfl
  relocated := by
    constructor
    · rfl
    · exact ⟨fun r hr => (List.not_mem_nil hr).elim, List.Pairwise.nil⟩
    · exact fun _ _ => rfl
    · exact fun i address h => (Option.some_ne_none address h.symm).elim
    · exact fun r hr => (List.not_mem_nil hr).elim
    · exact fun r hr => (List.not_mem_nil hr).elim
  references_eq := rfl
  boundaries := List.Pairwise.nil
  recorded := fun i address h => (Option.some_ne_none address h.symm).elim
  known := fun i hi => (List.not_mem_nil hi).elim

theorem Image.addInstruction {c : PluginSettings} {s : PluginState} {v : InstructionBitVector}
    (h : Image s v placed ids) (ha : Acceptable c s a) :
    ∃ s' v', addInstruction c s a = .ok s' ∧ Image s' v' (place c placed a) (ids ++ [a.1]) := by
  have hv : v ∈ s.programBits := h.programBits
  have hsize := ha.size_lt v hv
  have hfirst : v.bits.length % 2 ^ 32 = v.bits.length := Nat.mod_eq_of_lt (by omega)
  obtain ⟨hle, hge⟩ := instructionPosition_bounds c a.1 v.bits.length (by omega)
  generalize hposition : instructionPosition c a.1 v.bits.length = position at hle hge
  have hplaced : instructionPosition c a.1 placed.1.length = position := by
    rw [← h.relocated.length_eq, hposition]
  have hfresh : v.instructionAddresses.lookup a.1 = none := by
    cases hl : v.instructionAddresses.lookup a.1 with
    | none => rfl
    | some address =>
      have hrec := h.recorded _ _ hl
      rw [ha.fresh] at hrec
      cases hrec
  have hself : (v.instructionAddresses.insert a.1 (memoryAddress c position)).lookup a.1 =
      some (memoryAddress c position) := StdMap.lookup_insert_self hfresh
  have hknown (i address : Nat) (hi : v.instructionAddresses.lookup i = some address) :
      (v.instructionAddresses.insert a.1 (memoryAddress c position)).lookup i = some address := by
    rw [StdMap.lookup_insert_ne, hi]
    intro he
    rw [he, hfresh] at hi
    cases hi
  have hwide := ha.wideEnough v hv
  have hread := ha.readable v hv
  rw [hposition] at hwide hread
  have hnum : (v.bits ++ List.replicate (position - v.bits.length) false).length = position := by
    rw [List.length_append, List.length_replicate]
    omega
  -- the addresses that are known already are written into the references of the instruction
  obtain ⟨pushed, hpushed, hrel, hrefs, hbounds, hadds⟩ :=
    (h.relocated.pad (position - v.bits.length)).pushBack ha.references
      (by
        change (v.bits ++ _).length + _ ≤ _
        rw [hnum]
        omega)
      (fun r hr address hi =>
        hwide r (List.mem_append_right _ hr) address (hknown _ _ hi))
      (fun r hr address hi =>
        hread r (List.mem_append_right _ hr) address (hknown _ _ hi))
  change pushed.references = v.references ++
    a.2.references.map (shiftReference (v.bits ++ _).length) at hrefs
  rw [hnum] at hrefs
  change pushed.instructionBoundaries = v.instructionBoundaries at hbounds
  change pushed.instructionAddresses = v.instructionAddresses at hadds
  obtain ⟨boundaries, hmarked, hsorted⟩ :=
    markInstructionStartingPoint_spec pushed position (hbounds ▸ h.boundaries)
  have hrelm : Relocated { pushed with instructionBoundaries := boundaries } _ :=
    ⟨hrel.length_eq, hrel.referencesOk, hrel.outside, hrel.address_lt, hrel.wideEnough,
      hrel.written⟩
  have hnew : ∀ r ∈ pushed.references, r.1 = a.1 →
      WideEnough r.2 (memoryAddress c position) ∧ Readable r.2 (memoryAddress c position) := by
    intro r hr he
    rw [hrefs] at hr
    rcases List.mem_append.1 hr with hr | hr
    · have hmem := List.mem_append_left a.2.references hr
      exact ⟨hwide r hmem _ (he ▸ hself), hread r hmem _ (he ▸ hself)⟩
    · obtain ⟨t, ht, rfl⟩ := List.mem_map.1 hr
      have hmem := List.mem_append_right v.references ht
      exact ⟨(hwide t hmem _ (he ▸ hself)).shift position,
        (hread t hmem _ (he ▸ hself)).shift position⟩
  -- the new address is written into the references to the instruction, also those of its own
  obtain ⟨fixed, hfixed, hrelf, hrefsf, hboundsf, haddsf⟩ :=
    hrelm.fixInstructionAddress a.1 (memoryAddress c position)
      ((congrArg (List.lookup a.1) hadds).trans hfresh) (Nat.mod_lt _ (Nat.two_pow_pos 32))
      (fun r hr he => (hnew r hr he).1) (fun r hr he => (hnew r hr he).2)
  change fixed.references = pushed.references at hrefsf
  change fixed.instructionAddresses = pushed.instructionAddresses.insert _ _ at haddsf
  rw [hadds] at haddsf
  refine ⟨⟨some fixed, s.instructionAddresses.insert a.1 (memoryAddress c position)⟩, fixed,
    ?_, rfl, ?_, ?_, ?_, ?_, ?_⟩
  · rw [CodeCompressorPlugin.addInstruction, h.programBits]
    dsimp only
    rw [hfirst, hposition, hpushed]
    change (pushed.markInstructionStartingPoint position >>= _) = _
    rw [hmarked]
    change (InstructionBitVector.fixInstructionAddress
      { pushed with instructionBoundaries := boundaries } a.1 (memoryAddress c position) >>= _) = _
    rw [hfixed]
    rfl
  · rw [place, hplaced, ← h.relocated.length_eq]
    exact hrelf
  · rw [hrefsf, hrefs, h.references_eq, place, hplaced]
  · rw [hboundsf]
    exact hsorted
  · intro i address hi
    rw [haddsf] at hi
    by_cases he : i = a.1
    · rw [he, hself] at hi
      rw [he, ← hi]
      exact StdMap.lookup_insert_self ha.fresh
    · rw [StdMap.lookup_insert_ne he] at hi
      exact (StdMap.lookup_insert_ne he).trans (h.recorded i address hi)
  · intro i hi
    rw [haddsf]
    rcases List.mem_append.1 hi with hi | hi
    · obtain ⟨address, hl⟩ := Option.isSome_iff_exists.1 (h.known i hi)
      rw [hknown i address hl]
      rfl
    · rw [List.mem_singleton.1 hi, hself]
      rfl

theorem Image.run {c : PluginSettings} {s : PluginState} {v : InstructionBitVector}
    (h : Image s v placed ids)
    (ha : Along (CodeCompressorPlugin.addInstruction c) (Acceptable c) s steps) :
    ∃ s' v', steps.foldlM (CodeCompressorPlugin.addInstruction c) s = .ok s' ∧
      Image s' v' (steps.foldl (place c) placed) (ids ++ steps.map Prod.fst) := by
  induction steps generalizing s v placed ids with
  | nil =>
    rw [List.map_nil, List.append_nil]
    exact ⟨s, v, rfl, h⟩
  | cons a steps ih =>
    obtain ⟨hfirst, hrest⟩ := ha
    obtain ⟨s₁, v₁, hok, himage⟩ := h.addInstruction hfirst
    obtain ⟨s', v', hrun, himage'⟩ := ih himage (hrest s₁ hok)
    rw [List.append_assoc] at himage'
    rw [List.foldlM_cons, hok]
    exact ⟨s', v', hrun, himage'⟩

/-- What an image says of the instructions that it was built from. -/
structure Correct (c : PluginSettings) (steps : List (InstructionId × InstructionBitVector))
    (s : PluginState) : Prop where
  built : s.programBits.isSome
  references : ∀ v ∈ s.programBits, v.references = (steps.foldl (place c) ([], [])).2
  /-- The references to the instructions that have been added hold their addresses. -/
  addresses : ∀ v ∈ s.programBits, ∀ r ∈ v.references, r.1 ∈ steps.map Prod.fst →
    s.instructionAddresses.lookup r.1 = some (readReference v.bits r.2)
  /-- The other bits are those of the instructions and the zeros between them. -/
  otherBits : ∀ v ∈ s.programBits, ∀ i, (∀ r ∈ v.references, ¬ Covers r.2 i) →
    v.bits[i]? = (steps.foldl (place c) ([], [])).1[i]?
  startingPoints : ∀ v ∈ s.programBits, v.instructionBoundaries.Pairwise (· < ·)

theorem Image.correct (h : Image s v (steps.foldl (place c) ([], [])) (steps.map Prod.fst)) :
    Correct c steps s := by
  have honly {v' : InstructionBitVector} (hv : v' ∈ s.programBits) : v' = v := by
    rw [h.programBits] at hv
    exact (Option.some.inj hv).symm
  constructor
  · rw [h.programBits]
    rfl
  · intro v' hv
    rw [honly hv, h.references_eq]
  · intro v' hv r hr hmem
    rw [honly hv] at hr ⊢
    obtain ⟨address, hl⟩ := Option.isSome_iff_exists.1 (h.known r.1 hmem)
    rw [h.recorded _ _ hl,
      readReference_eq (h.relocated.wideEnough r hr address hl)
        (h.relocated.written r hr address hl)]
  · intro v' hv i hi
    rw [honly hv] at hi ⊢
    exact h.relocated.outside i hi
  · intro v' hv
    rw [honly hv]
    exact h.boundaries

/-- Images in which every instruction is added once, that fit into the 32-bit positions and whose
references do not ask for higher bits than an `int` has, hold the addresses of their instructions in
whichever order these are added. -/
theorem programImage_correct (c : PluginSettings) (s : PluginState)
    (steps : List (InstructionId × InstructionBitVector))
    (h : Along (addInstruction c) (Acceptable c) (startNewProgram s) steps) :
    ∃ s', steps.foldlM (addInstruction c) (startNewProgram s) = .ok s' ∧ Correct c steps s' := by
  obtain ⟨s', v', hrun, himage⟩ := (Image.startNewProgram s).run h
  exact ⟨s', hrun, himage.correct⟩

/-- An instruction with one reference, into the bits after its first one. -/
def referringBits (size : Nat) (target : InstructionId) (b : IndexBound) : InstructionBitVector :=
  ⟨List.replicate size false, [(target, [b])], [], []⟩

theorem referringBits_ok (h : TableOk size [b]) :
    ReferencesOk (referringBits size target b).bits.length
      (referringBits size target b).references := by
  constructor
  · intro r hr
    cases List.mem_singleton.1 hr
    rwa [referringBits, List.length_replicate]
  · exact List.pairwise_singleton _ _

theorem programImage_correct_two :
    ∃ s', [(0, referringBits 3 1 ⟨1, 2, none⟩), (1, referringBits 3 0 ⟨1, 2, none⟩)].foldlM
        (addInstruction ⟨4, by decide, 2, true, []⟩) (startNewProgram ⟨none, []⟩) = .ok s' ∧
      Correct ⟨4, by decide, 2, true, []⟩
        [(0, referringBits 3 1 ⟨1, 2, none⟩), (1, referringBits 3 0 ⟨1, 2, none⟩)] s' := by
  apply programImage_correct
  have htable : TableOk 3 [⟨1, 2, none⟩] :=
    TableOk.singleton (by decide) (by decide) (by decide) (by decide)
  apply Along.cons
  · constructor
    · rfl
    · decide
    · exact referringBits_ok htable
    · decide
    · decide
  · rfl
  apply Along.cons
  · constructor
    · rfl
    · decide
    · exact referringBits_ok htable
    · decide
    · decide
  · rfl
  exact trivial

/-- A long immediate of 64 bits has place for the address, but its high bits are asked from an
`int`. An instruction that is added again has its references fixed with the address that is not
recorded. -/
theorem programImage_incorrect :
    (TableOk 65 [⟨1, 64, some ⟨64, 63, 0⟩⟩] ∧ WideEnough [⟨1, 64, some ⟨64, 63, 0⟩⟩] 0 ∧
      ¬ ∃ s', [(0, referringBits 65 0 ⟨1, 64, some ⟨64, 63, 0⟩⟩)].foldlM
          (addInstruction ⟨8, by decide, 0, true, []⟩) (startNewProgram ⟨none, []⟩) = .ok s' ∧
        Correct ⟨8, by decide, 0, true, []⟩
          [(0, referringBits 65 0 ⟨1, 64, some ⟨64, 63, 0⟩⟩)] s') ∧
    (TableOk 3 [⟨1, 2, none⟩] ∧ WideEnough [⟨1, 2, none⟩] 0 ∧ WideEnough [⟨1, 2, none⟩] 3 ∧
      ¬ ∃ s', [(0, referringBits 3 0 ⟨1, 2, none⟩), (0, referringBits 3 0 ⟨1, 2, none⟩)].foldlM
          (addInstruction ⟨1, by decide, 0, true, []⟩) (startNewProgram ⟨none, []⟩) = .ok s' ∧
        Correct ⟨1, by decide, 0, true, []⟩
          [(0, referringBits 3 0 ⟨1, 2, none⟩), (0, referringBits 3 0 ⟨1, 2, none⟩)] s') := by
  refine ⟨⟨?_, by decide, ?_⟩, ?_, by decide, by decide, ?_⟩
  · exact TableOk.singleton (by decide) (by decide) (by decide) (by decide)
  · rintro ⟨s', hrun, -⟩
    have hbad : [(0, referringBits 65 0 ⟨1, 64, some ⟨64, 63, 0⟩⟩)].foldlM
        (addInstruction ⟨8, by decide, 0, true, []⟩) (startNewProgram ⟨none, []⟩) =
          .error .undefined := by
      decide +kernel
    rw [hbad] at hrun
    cases hrun
  · exact TableOk.singleton (by decide) (by decide) (by decide) (by decide)
  · rintro ⟨s', hrun, hcorrect⟩
    have htwice : [(0, referringBits 3 0 ⟨1, 2, none⟩), (0, referringBits 3 0 ⟨1, 2, none⟩)].foldlM
        (addInstruction ⟨1, by decide, 0, true, []⟩) (startNewProgram ⟨none, []⟩) =
          .ok ⟨some ⟨[false, true, true, false, true, true],
            [(0, [⟨1, 2, none⟩]), (0, [⟨4, 5, none⟩])], [0, 3], [(0, 0)]⟩, [(0, 0)]⟩ := by
      decide +kernel
    rw [htwice] at hrun
    cases hrun
    have hread := hcorrect.addresses _ rfl (0, [⟨1, 2, none⟩]) List.mem_cons_self
      List.mem_cons_self
    exact absurd hread (by decide)

end CodeCompressorPlugin

end Pig

end OpenAsip
