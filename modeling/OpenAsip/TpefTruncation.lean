import Mathlib.Data.Nat.Find
import OpenAsip.TpefSectionReaders

namespace OpenAsip
set_option autoImplicit true

namespace Tpef
open Reader

def endOfFile : Fault := .exception .endOfFile

/-- The reader takes so many bytes, or it comes to the end of the file. -/
def Takes (size : Nat) (p : Reader α) : Prop :=
  ∀ l, (l.length < size → p l = .error endOfFile) ∧
    (size ≤ l.length → ∃ a, p l = .ok (a, l.drop size))

theorem Takes.pure (a : α) : Takes 0 (pure a : Reader α) := by
  intro l
  exact ⟨fun h => absurd h (Nat.not_lt_zero _), fun _ => ⟨a, rfl⟩⟩

theorem takes_readByte : Takes 1 readByte := by
  intro l
  cases l with
  | nil => exact ⟨fun _ => rfl, fun h => absurd h (Nat.not_succ_le_zero 0)⟩
  | cons b l => exact ⟨fun h => absurd h (by simp), fun _ => ⟨b, rfl⟩⟩

theorem Takes.bind {p : Reader α} {q : α → Reader β} (hp : Takes m p) (hq : ∀ a, Takes n (q a)) :
    Takes (m + n) (p >>= q) := by
  intro l
  have hbind : (p >>= q) l = p l >>= fun x => q x.1 x.2 := rfl
  rw [hbind]
  by_cases hl : l.length < m
  · rw [(hp l).1 hl]
    exact ⟨fun _ => rfl, fun h => by omega⟩
  · obtain ⟨a, ha⟩ := (hp l).2 (Nat.le_of_not_lt hl)
    rw [ha]
    have hdrop := List.length_drop (i := m) (l := l)
    constructor
    · intro h
      exact (hq a (l.drop m)).1 (by omega)
    · intro h
      obtain ⟨b, hb⟩ := (hq a (l.drop m)).2 (by omega)
      rw [List.drop_drop] at hb
      exact ⟨b, hb⟩

theorem Takes.map {p : Reader α} {f : α → β} (hp : Takes n p) :
    Takes n (p >>= fun a => Pure.pure (f a)) :=
  hp.bind fun a => Takes.pure (f a)

theorem takes_readHalfWord (st : StreamSettings) : Takes 2 (readHalfWord st) := by
  refine takes_readByte.bind (n := 1) fun a => takes_readByte.bind (n := 0) fun b => ?_
  split
  · exact Takes.pure _
  · exact Takes.pure _

theorem takes_readWord (st : StreamSettings) : Takes 4 (readWord st) := by
  refine takes_readByte.bind (n := 3) fun a => takes_readByte.bind (n := 2) fun b =>
    takes_readByte.bind (n := 1) fun c => takes_readByte.bind (n := 0) fun d => ?_
  split
  · exact Takes.pure _
  · exact Takes.pure _

theorem takes_readSymbolFields (st : StreamSettings) : Takes 16 (readSymbolFields st) :=
  (takes_readWord st).bind fun _ => (takes_readWord st).bind fun _ =>
    (takes_readWord st).bind fun _ => takes_readByte.bind fun _ => takes_readByte.bind fun _ =>
      (takes_readHalfWord st).map

theorem takes_readRelocFields (st : StreamSettings) : Takes 12 (readRelocFields st) :=
  (takes_readWord st).bind fun _ => (takes_readWord st).bind fun _ => takes_readByte.bind fun _ =>
    takes_readByte.bind fun _ => takes_readByte.bind fun _ => takes_readByte.map

theorem takes_readLineFields (st : StreamSettings) : Takes 6 (readLineFields st) :=
  (takes_readWord st).bind fun _ => (takes_readHalfWord st).map

namespace SectionHeader

/-- The body of the section is read. -/
def BodyRead (header : SectionHeader) : Prop := header.linkId ≠ 0 ∧ header.noBits = false

/-- The body extends beyond the end of the file. -/
def Extends (header : SectionHeader) (fileLength : Nat) : Prop :=
  header.BodyRead ∧ fileLength < header.bodyOffset.toNat + header.bodyLength.toNat

/-- Where the loop looks for an element. -/
def elementStart (header : SectionHeader) : Nat → UInt32
  | 0 => header.bodyOffset
  | j + 1 => header.elementStart j + header.elementSize

/-- The condition of the loop. -/
def Continues (header : SectionHeader) (j : Nat) : Prop :=
  header.elementStart j + header.elementSize ≤ header.bodyEnd

/-- The end of the file was noticed before the element, and its start does not hide it. The start is
compared with the length of the file in 32 bits. -/
def AtEnd (header : SectionHeader) (size : Nat) (stream : BinaryStream) : Nat → Prop
  | 0 => stream.eof = true ∧
    (UInt32.ofNat stream.file.length).toNat < header.bodyOffset.toNat
  | j + 1 => (header.elementStart j).toNat + size = stream.file.length + 1 ∧
    (UInt32.ofNat stream.file.length).toNat < (header.elementStart (j + 1)).toNat

/-- At least two bytes of the element are beyond the end of the file. -/
def Missing (header : SectionHeader) (size : Nat) (stream : BinaryStream) (j : Nat) : Prop :=
  stream.file.length + 1 < (header.elementStart j).toNat + size ∨ header.AtEnd size stream j

/-- Elements that do not begin behind the end of a file of less than 4 GiB are never hidden. -/
theorem missing_iff (header : SectionHeader) {stream : BinaryStream} (hsize : 2 ≤ size)
    (hfile : stream.file.length < 2 ^ 32) (j : Nat) :
    header.Missing size stream j ↔
      stream.file.length + 1 < (header.elementStart j).toNat + size := by
  have hlength : (UInt32.ofNat stream.file.length).toNat = stream.file.length :=
    UInt32.toNat_ofNat_of_lt' hfile
  rw [Missing, or_iff_left_of_imp]
  intro hend
  cases j with
  | zero =>
    have hlt := hend.2
    rw [hlength] at hlt
    rw [elementStart]
    omega
  | succ j =>
    have hlt := hend.2
    rw [hlength] at hlt
    omega

/-- The bytes from the start of the element on, as far as reads can give them. -/
def elementBytes (header : SectionHeader) (stream : BinaryStream) (j : Nat) : List UInt8 :=
  stream.file.drop (header.elementStart j).toNat ++ [0xff]

end SectionHeader

/-- How a loop reads its elements of `size` bytes. The state in front of an element satisfies
`inv`. An element whose key is not `free` is refused before it is read. -/
structure ReadsElements (read : σ → Reader σ) (size : Nat) (inv : Nat → σ → Prop)
    (free : Nat → Prop) (accepts : Nat → List UInt8 → Prop) : Prop where
  refused : ∀ j s l, inv j s → ¬ free j → ∃ f, f ≠ endOfFile ∧ read s l = .error f
  short : ∀ j s l, inv j s → free j → l.length < size → read s l = .error endOfFile
  accepted : ∀ j s l, inv j s → free j → size ≤ l.length → accepts j l →
    ∃ s', read s l = .ok (s', l.drop size) ∧ inv (j + 1) s'
  rejected : ∀ j s l, inv j s → free j → size ≤ l.length → ¬ accepts j l →
    ∃ f, f ≠ endOfFile ∧ read s l = .error f

namespace ReadsElements

variable {read : σ → Reader σ} {size : Nat} {inv : Nat → σ → Prop} {free : Nat → Prop}
  {accepts : Nat → List UInt8 → Prop} {header : SectionHeader} {stream : BinaryStream}

/-- The loop goes on after the element. -/
def Good (header : SectionHeader) (stream : BinaryStream) (size : Nat) (free : Nat → Prop)
    (accepts : Nat → List UInt8 → Prop) (j : Nat) : Prop :=
  header.Continues j ∧ free j ∧ ¬ header.Missing size stream j ∧
    accepts j (header.elementBytes stream j)

/-- The end of the file is reported in the element. -/
def Lost (header : SectionHeader) (stream : BinaryStream) (size : Nat) (free : Nat → Prop)
    (j : Nat) : Prop :=
  header.Continues j ∧ free j ∧ header.Missing size stream j

/-- The end of the file is reported in an element that comes after accepted ones. -/
def Reported (header : SectionHeader) (stream : BinaryStream) (size : Nat) (free : Nat → Prop)
    (accepts : Nat → List UInt8 → Prop) : Prop :=
  ∃ j, (∀ i < j, Good header stream size free accepts i) ∧ Lost header stream size free j

/-- The state of the loop in front of an element. -/
structure Before (header : SectionHeader) (stream : BinaryStream) (size : Nat)
    (inv : Nat → σ → Prop) (j : Nat) (t : ElementLoop σ) : Prop where
  file_eq : t.stream.file = stream.file
  position_eq : t.stream.position = (header.elementStart j).toNat
  eof_iff : t.stream.eof = true ↔ header.AtEnd size stream j
  start_eq : t.elementStart = header.elementStart j
  state : inv j t.state

theorem before_start (h0 : inv 0 s) : Before header stream size inv 0 (.start header stream s) where
  file_eq := rfl
  position_eq := rfl
  eof_iff := by
    change (stream.eof && decide _) = true ↔ _
    rw [Bool.and_eq_true, decide_eq_true_iff]
    rfl
  start_eq := rfl
  state := h0

/-- The bytes that are left are fewer than the element has if two of them are missing. -/
theorem Before.rest_length {t : ElementLoop σ} (h : Before header stream size inv j t)
    (hsize : 2 ≤ size) : t.stream.rest.length < size ↔ header.Missing size stream j := by
  cases heof : t.stream.eof with
  | true =>
    have hend := h.eof_iff.1 heof
    rw [BinaryStream.rest, heof, if_pos rfl]
    constructor
    · intro _
      exact .inr hend
    · intro _
      exact Nat.lt_of_lt_of_le Nat.two_pos hsize
  | false =>
    have hend : ¬ header.AtEnd size stream j := by
      rw [← h.eof_iff, heof]
      exact Bool.false_ne_true
    rw [BinaryStream.rest_length heof, h.file_eq, h.position_eq, SectionHeader.Missing,
      or_iff_left hend]
    omega

theorem Before.rest_eq {t : ElementLoop σ} (h : Before header stream size inv j t)
    (hmissing : ¬ header.Missing size stream j) :
    t.stream.rest = header.elementBytes stream j := by
  have hend : ¬ t.stream.eof = true := fun heof => hmissing (.inr (h.eof_iff.1 heof))
  rw [BinaryStream.rest, if_neg hend, h.file_eq, h.position_eq]
  rfl

theorem body_none (header : SectionHeader) {t : ElementLoop σ}
    (h : Before header stream size inv j t) (hc : ¬ header.Continues j) :
    ElementLoop.body header read t = none := by
  rw [ElementLoop.body, h.start_eq]
  exact if_neg hc

theorem body_some (read : σ → Reader σ) {t : ElementLoop σ}
    (h : Before header stream size inv j t) (hc : header.Continues j) :
    ElementLoop.body header read t = some (t.stream.run (read t.state) >>= fun next =>
      .ok ⟨next.2.setReadPosition (header.elementStart (j + 1)), header.elementStart (j + 1),
        next.1⟩) := by
  rw [ElementLoop.body, h.start_eq]
  exact if_pos hc

theorem body_of_fault {t : ElementLoop σ} (h : Before header stream size inv j t)
    (hc : header.Continues j) (hread : read t.state t.stream.rest = .error f) :
    ElementLoop.body header read t = some (.error f) := by
  rw [body_some read h hc, BinaryStream.run, hread]
  rfl

/-- The element is read and the loop goes on with the next one. -/
theorem body_of_good (hr : ReadsElements read size inv free accepts) (hsize : 2 ≤ size)
    {t : ElementLoop σ} (h : Before header stream size inv j t)
    (hgood : Good header stream size free accepts j) :
    ∃ t', ElementLoop.body header read t = some (.ok t') ∧
      Before header stream size inv (j + 1) t' := by
  obtain ⟨hc, hfree, hmissing, haccepts⟩ := hgood
  have hrest := h.rest_eq hmissing
  have hle : size ≤ t.stream.rest.length :=
    Nat.le_of_not_lt fun hlt => hmissing ((h.rest_length hsize).1 hlt)
  obtain ⟨state, hread, hstate⟩ := hr.accepted j t.state t.stream.rest h.state hfree hle
    (hrest ▸ haccepts)
  refine ⟨⟨(t.stream.after (t.stream.rest.drop size)).setReadPosition
    (header.elementStart (j + 1)), header.elementStart (j + 1), state⟩, ?_, ?_⟩
  · rw [body_some read h hc, BinaryStream.run, hread]
    rfl
  · refine ⟨h.file_eq, rfl, ?_, rfl, hstate⟩
    have heof : t.stream.eof = false := by
      rw [← Bool.not_eq_true]
      exact fun heof => hmissing (.inr (h.eof_iff.1 heof))
    have hlength := BinaryStream.rest_length heof
    rw [h.file_eq, h.position_eq] at hlength
    change ((t.stream.rest.drop size).isEmpty && decide _) = true ↔ _
    have hfile : (t.stream.after (t.stream.rest.drop size)).file = stream.file := h.file_eq
    have hinside := mt Or.inl hmissing
    rw [Bool.and_eq_true, decide_eq_true_iff, List.isEmpty_iff, List.drop_eq_nil_iff, hfile,
      SectionHeader.AtEnd]
    apply and_congr_left
    intro _
    omega

theorem body_ne_ok (hr : ReadsElements read size inv free accepts) (hsize : 2 ≤ size)
    {t : ElementLoop σ} (h : Before header stream size inv j t)
    (hbad : ¬ Good header stream size free accepts j) (t' : ElementLoop σ) :
    ElementLoop.body header read t ≠ some (.ok t') := by
  intro hok
  by_cases hc : header.Continues j
  · have hfault : ∃ f, read t.state t.stream.rest = .error f := by
      by_cases hfree : free j
      · by_cases hmissing : header.Missing size stream j
        · exact ⟨_, hr.short j _ _ h.state hfree ((h.rest_length hsize).2 hmissing)⟩
        · have hle : size ≤ t.stream.rest.length :=
            Nat.le_of_not_lt fun hlt => hmissing ((h.rest_length hsize).1 hlt)
          obtain ⟨f, -, hf⟩ := hr.rejected j t.state t.stream.rest h.state hfree hle fun ha =>
            hbad ⟨hc, hfree, hmissing, h.rest_eq hmissing ▸ ha⟩
          exact ⟨f, hf⟩
      · obtain ⟨f, -, hf⟩ := hr.refused j t.state t.stream.rest h.state hfree
        exact ⟨f, hf⟩
    obtain ⟨f, hf⟩ := hfault
    rw [body_of_fault h hc hf] at hok
    cases hok
  · rw [body_none header h hc] at hok
    cases hok

theorem body_endOfFile_iff (hr : ReadsElements read size inv free accepts) (hsize : 2 ≤ size)
    {t : ElementLoop σ} (h : Before header stream size inv j t) :
    ElementLoop.body header read t = some (.error endOfFile) ↔ Lost header stream size free j := by
  constructor
  · intro hbody
    have hc : header.Continues j := by
      by_contra hc
      rw [body_none header h hc] at hbody
      cases hbody
    have hne {f : Fault} (hne : f ≠ endOfFile) : read t.state t.stream.rest ≠ .error f := by
      intro hf
      rw [body_of_fault h hc hf] at hbody
      exact hne (Except.error.inj (Option.some.inj hbody))
    have hfree : free j := by
      by_contra hfree
      obtain ⟨f, hf, hread⟩ := hr.refused j t.state t.stream.rest h.state hfree
      exact hne hf hread
    refine ⟨hc, hfree, ?_⟩
    by_contra hmissing
    have hle : size ≤ t.stream.rest.length :=
      Nat.le_of_not_lt fun hlt => hmissing ((h.rest_length hsize).1 hlt)
    by_cases ha : accepts j t.stream.rest
    · obtain ⟨t', ht', -⟩ := body_of_good hr hsize h
        ⟨hc, hfree, hmissing, h.rest_eq hmissing ▸ ha⟩
      rw [ht'] at hbody
      cases hbody
    · obtain ⟨f, hf, hread⟩ := hr.rejected j t.state t.stream.rest h.state hfree hle ha
      exact hne hf hread
  · rintro ⟨hc, hfree, hmissing⟩
    exact body_of_fault h hc (hr.short j _ _ h.state hfree ((h.rest_length hsize).2 hmissing))

theorem ends_iff (hr : ReadsElements read size inv free accepts) (hsize : 2 ≤ size)
    (h0 : inv 0 s) :
    (∃ r, Ends (ElementLoop.body header read) (.start header stream s) r) ↔
      ∃ j, ¬ Good header stream size free accepts j :=
  ends_iff_exists_bad (before_start h0) (fun _ _ h hgood => body_of_good hr hsize h hgood)
    fun _ _ h hbad => body_ne_ok hr hsize h hbad

theorem ends_endOfFile_iff (hr : ReadsElements read size inv free accepts) (hsize : 2 ≤ size)
    (h0 : inv 0 s) :
    Ends (ElementLoop.body header read) (.start header stream s) (.error endOfFile) ↔
      Reported header stream size free accepts :=
  ends_fault_iff (before_start h0) (fun _ _ h hgood => body_of_good hr hsize h hgood)
    (fun _ _ h hbad => body_ne_ok hr hsize h hbad) fun _ _ h => body_endOfFile_iff hr hsize h

theorem elementStart_toNat {count : Nat} (hsize : header.elementSize.toNat = size)
    (hfits : header.bodyOffset.toNat + count * size < 2 ^ 32) (hj : j ≤ count) :
    (header.elementStart j).toNat = header.bodyOffset.toNat + j * size := by
  induction j with
  | zero => rw [SectionHeader.elementStart, Nat.zero_mul, Nat.add_zero]
  | succ j ih =>
    have hmul : (j + 1) * size ≤ count * size := Nat.mul_le_mul_right size hj
    have hnext : (j + 1) * size = j * size + size := Nat.succ_mul j size
    rw [SectionHeader.elementStart, UInt32.toNat_add, ih (Nat.le_of_succ_le hj), hsize, hnext,
      Nat.add_assoc]
    exact Nat.mod_eq_of_lt (by omega)

/-- In a section of whole elements that the reader accepts only a single missing byte is not
reported. -/
theorem reported_iff_of_whole {count : Nat} (htwo : 2 ≤ size)
    (hsize : header.elementSize.toNat = size) (hlength : header.bodyLength.toNat = count * size)
    (hfits : header.bodyOffset.toNat + (count + 1) * size < 2 ^ 32)
    (hfile : stream.file.length < 2 ^ 32) (hcount : 0 < count)
    (haccepts : ∀ i < count, free i ∧ accepts i (header.elementBytes stream i)) :
    Reported header stream size free accepts ↔
      stream.file.length + 1 < header.bodyOffset.toNat + count * size := by
  have hmul : (count + 1) * size = count * size + size := Nat.succ_mul count size
  have hstart {i : Nat} (hi : i ≤ count + 1) := elementStart_toNat hsize hfits hi
  have hend : header.bodyEnd.toNat = header.bodyOffset.toNat + count * size := by
    rw [SectionHeader.bodyEnd, UInt32.toNat_add, hlength]
    exact Nat.mod_eq_of_lt (by omega)
  have hcontinues {i : Nat} (hi : i ≤ count) : header.Continues i ↔ i < count := by
    change header.elementStart (i + 1) ≤ header.bodyEnd ↔ _
    rw [UInt32.le_iff_toNat_le, hstart (Nat.succ_le_succ hi), hend, Nat.add_le_add_iff_left,
      Nat.mul_le_mul_right_iff (by omega)]
    exact Iff.rfl
  have hmissing {i : Nat} (hi : i ≤ count) : header.Missing size stream i ↔
      stream.file.length + 1 < header.bodyOffset.toNat + (i + 1) * size := by
    rw [header.missing_iff htwo hfile, hstart (Nat.le_succ_of_le hi), Nat.add_assoc,
      ← Nat.succ_mul]
  constructor
  · rintro ⟨j, hgood, hc, -, hlost⟩
    have hle : j ≤ count := by
      by_contra hlt
      have hg := hgood count (Nat.lt_of_not_le hlt)
      exact Nat.lt_irrefl _ ((hcontinues (Nat.le_refl count)).1 hg.1)
    have hlt := (hcontinues hle).1 hc
    have hmul' : (j + 1) * size ≤ count * size := Nat.mul_le_mul_right size hlt
    have hbytes := (hmissing hle).1 hlost
    omega
  · intro hlast
    have hsome : ∃ j, j < count ∧ header.Missing size stream j := by
      obtain ⟨last, rfl⟩ := Nat.exists_eq_add_one_of_ne_zero (Nat.ne_of_gt hcount)
      exact ⟨last, Nat.lt_succ_self last, (hmissing (Nat.le_succ last)).2 hlast⟩
    classical
    obtain ⟨hlt, hlost⟩ := Nat.find_spec hsome
    refine ⟨Nat.find hsome, fun i hi => ?_, (hcontinues (Nat.le_of_lt hlt)).2 hlt,
      (haccepts _ hlt).1, hlost⟩
    have hi' := Nat.lt_trans hi hlt
    exact ⟨(hcontinues (Nat.le_of_lt hi')).2 hi', (haccepts i hi').1,
      fun hm => Nat.find_min hsome hi ⟨hi', hm⟩, (haccepts i hi').2⟩

end ReadsElements

/-- What is claimed of a section reader: it ends for every header and file, and a body that extends
beyond the end of the file is reported. -/
def ReadsBody (readData : Nat → Option (Outcome α)) (header : SectionHeader) (fileLength : Nat) :
    Prop :=
  (∃ fuel r, readData fuel = some r) ∧
    (header.Extends fileLength → ∃ fuel, readData fuel = some (.error endOfFile))

section SymbolSections

/-- The checks of a symbol apart from its key. -/
def SymbolFields.Valid (s : SymbolFields) (j : Nat) : Prop :=
  s.type.isSome = true ∧ (j = 0 → s.type = some .noType ∧ s.binding = 0 ∧ s.absolute = true ∧
    s.nameOffset = 0)

/-- The symbol passes the checks, and its key is not used in the section. -/
def SymbolAccepted (st : StreamSettings) (keys : List UInt32) (j : Nat) (l : List UInt8) : Prop :=
  j < 2 ^ 32 ∧ UInt32.ofNat j ∉ keys ∧
    ∀ s left, readSymbolFields st l = .ok (s, left) → s.Valid j

/-- The keys of the elements before the one with the index. -/
structure Keyed (keys : List UInt32) (j : Nat) (index : UInt32) (used : List UInt32) : Prop where
  index_eq : index = UInt32.ofNat j
  used_iff : ∀ key, key ∈ used ↔ key ∈ keys ∨ ∃ i < j, key = UInt32.ofNat i
  bound : j ≤ 2 ^ 32

theorem keyed_zero (keys : List UInt32) : Keyed keys 0 0 keys := by
  refine ⟨rfl, fun key => ?_, Nat.zero_le _⟩
  rw [or_iff_left]
  rintro ⟨i, hi, -⟩
  exact Nat.not_lt_zero i hi

/-- A key is used again after `2 ^ 32` elements. -/
theorem Keyed.used_self (h : Keyed keys j index used) :
    index ∉ used ↔ j < 2 ^ 32 ∧ UInt32.ofNat j ∉ keys := by
  rw [h.used_iff, h.index_eq]
  constructor
  · intro hnew
    have hkeys : UInt32.ofNat j ∉ keys := fun hmem => hnew (.inl hmem)
    refine ⟨?_, hkeys⟩
    by_contra hge
    obtain rfl : j = 2 ^ 32 := Nat.le_antisymm h.bound (Nat.le_of_not_lt hge)
    exact hnew (.inr ⟨0, by decide, by decide⟩)
  · rintro ⟨hlt, hkeys⟩ (hmem | ⟨i, hi, heq⟩)
    · exact hkeys hmem
    · have hnat := congrArg UInt32.toNat heq
      rw [UInt32.toNat_ofNat_of_lt' hlt, UInt32.toNat_ofNat_of_lt' (Nat.lt_trans hi hlt)] at hnat
      omega

theorem Keyed.succ (h : Keyed keys j index used) (hlt : j < 2 ^ 32) :
    Keyed keys (j + 1) (index + 1) (index :: used) := by
  refine ⟨?_, ?_, hlt⟩
  · rw [h.index_eq, UInt32.ofNat_add]
    rfl
  · intro key
    rw [List.mem_cons, h.used_iff, h.index_eq]
    constructor
    · rintro (rfl | hkey | ⟨i, hi, rfl⟩)
      · exact .inr ⟨j, Nat.lt_succ_self j, rfl⟩
      · exact .inl hkey
      · exact .inr ⟨i, Nat.lt_succ_of_lt hi, rfl⟩
    · rintro (hkey | ⟨i, hi, rfl⟩)
      · exact .inr (.inl hkey)
      · obtain rfl | hi := Nat.eq_or_lt_of_le (Nat.le_of_lt_succ hi)
        · exact .inl rfl
        · exact .inr (.inr ⟨i, hi, rfl⟩)

theorem addObjectReference_of_new (h : key ∉ used) :
    addObjectReference used key = .ok (key :: used) := if_neg h

theorem addObjectReference_of_used (h : key ∈ used) :
    addObjectReference used key = .error (.exception .keyAlreadyExists) := if_pos h

theorem Keyed.index_eq_zero (h : Keyed keys j index used) (hlt : j < 2 ^ 32) :
    index = 0 ↔ j = 0 := by
  rw [h.index_eq, ← UInt32.toNat_inj, UInt32.toNat_ofNat_of_lt' hlt]
  rfl

theorem createSymbol_cases (s : SymbolFields) :
    s.type = none ∧ createSymbol s = .error .undefined ∨
      ∃ elem, createSymbol s = .ok elem ∧ s.type = some elem.type ∧ elem.binding = s.binding ∧
        elem.absolute = s.absolute ∧ elem.name = s.nameOffset := by
  rw [createSymbol]
  cases s.type with
  | none => exact .inl ⟨rfl, rfl⟩
  | some type => exact .inr ⟨_, rfl, rfl, rfl, rfl, rfl⟩

theorem addSymbol_accepted {loop : SymbolLoop} (h : Keyed keys j loop.index loop.keys)
    (hlt : j < 2 ^ 32) (hkeys : UInt32.ofNat j ∉ keys) (hvalid : s.Valid j) :
    ∃ loop', loop.addSymbol s = .ok loop' ∧ Keyed keys (j + 1) loop'.index loop'.keys := by
  obtain ⟨htype, hfirst⟩ := hvalid
  obtain ⟨hnone, -⟩ | ⟨elem, helem, hsome, hbinding, habsolute, hname⟩ := createSymbol_cases s
  · rw [hnone] at htype
    cases htype
  · have hundefined : ¬ (loop.index = 0 ∧ ¬ elem.isUndefined) := by
      rintro ⟨hindex, hnot⟩
      obtain ⟨h1, h2, h3, h4⟩ := hfirst ((h.index_eq_zero hlt).1 hindex)
      rw [h1] at hsome
      exact hnot ⟨(Option.some.inj hsome).symm, hbinding.trans h2, habsolute.trans h3,
        hname.trans h4⟩
    refine ⟨⟨loop.index + 1, loop.index :: loop.keys, loop.undefSymbolDefined || loop.index == 0,
      loop.elements ++ [elem]⟩, ?_, h.succ hlt⟩
    rw [SymbolLoop.addSymbol, helem]
    change (addObjectReference loop.keys loop.index >>= _) = _
    rw [addObjectReference_of_new (h.used_self.2 ⟨hlt, hkeys⟩)]
    exact if_neg hundefined

theorem addSymbol_rejected {loop : SymbolLoop} (h : Keyed keys j loop.index loop.keys)
    (hbad : ¬ (j < 2 ^ 32 ∧ UInt32.ofNat j ∉ keys ∧ s.Valid j)) :
    ∃ f, f ≠ endOfFile ∧ loop.addSymbol s = .error f := by
  obtain ⟨-, hfault⟩ | ⟨elem, helem, hsome, hbinding, habsolute, hname⟩ := createSymbol_cases s
  · refine ⟨.undefined, nofun, ?_⟩
    rw [SymbolLoop.addSymbol, hfault]
    rfl
  · rw [SymbolLoop.addSymbol, helem]
    change ∃ f, f ≠ endOfFile ∧ (addObjectReference loop.keys loop.index >>= _) = .error f
    by_cases hused : loop.index ∈ loop.keys
    · rw [addObjectReference_of_used hused]
      exact ⟨.exception .keyAlreadyExists, nofun, rfl⟩
    · obtain ⟨hlt, hkeys⟩ := h.used_self.1 hused
      rw [addObjectReference_of_new hused]
      refine ⟨.assertion, nofun, if_pos ?_⟩
      by_contra hok
      refine hbad ⟨hlt, hkeys, by rw [hsome]; rfl, fun hj => ?_⟩
      have hundefined : elem.isUndefined :=
        by_contra fun hnot => hok ⟨(h.index_eq_zero hlt).2 hj, hnot⟩
      obtain ⟨h1, h2, h3, h4⟩ := hundefined
      exact ⟨h1 ▸ hsome, hbinding ▸ h2, habsolute ▸ h3, hname ▸ h4⟩

theorem readSymbol_of_fields {loop : SymbolLoop} (h : readSymbolFields st l = .ok (s, left)) :
    readSymbol st loop l = (loop.addSymbol s).map (·, left) := by
  change (readSymbolFields st l >>= fun x =>
    (loop.addSymbol x.1 >>= fun a => .ok (a, x.2) : Outcome _)) = _
  rw [h]
  change (loop.addSymbol s >>= fun a => .ok (a, left) : Outcome _) = _
  cases loop.addSymbol s with
  | error f => rfl
  | ok loop' => rfl

theorem readsElements_symbols (st : StreamSettings) (keys : List UInt32) :
    ReadsElements (readSymbol st) 16 (fun j loop => Keyed keys j loop.index loop.keys)
      (fun _ => True) (SymbolAccepted st keys) where
  refused := fun j loop l _ hfree => absurd True.intro hfree
  short := by
    intro j loop l _ _ hlt
    change (readSymbolFields st l >>= _) = _
    rw [(takes_readSymbolFields st l).1 hlt]
    rfl
  accepted := by
    intro j loop l h _ hle haccepted
    obtain ⟨hlt, hkeys, hvalid⟩ := haccepted
    obtain ⟨s, hs⟩ := (takes_readSymbolFields st l).2 hle
    obtain ⟨loop', hloop, hkeyed⟩ := addSymbol_accepted h hlt hkeys (hvalid s _ hs)
    refine ⟨loop', ?_, hkeyed⟩
    rw [readSymbol_of_fields hs, hloop]
    rfl
  rejected := by
    intro j loop l h _ hle hrejected
    obtain ⟨s, hs⟩ := (takes_readSymbolFields st l).2 hle
    obtain ⟨f, hf, hloop⟩ := addSymbol_rejected h (s := s) fun ⟨hlt, hkeys, hvalid⟩ =>
      hrejected ⟨hlt, hkeys, fun s' left hs' => by
        obtain ⟨rfl, -⟩ := Prod.mk.inj (Except.ok.inj (hs.symm.trans hs'))
        exact hvalid⟩
    refine ⟨f, hf, ?_⟩
    rw [readSymbol_of_fields hs, hloop]
    rfl

/-- What comes after the loop does not change whether it ends or reports the end of the file. -/
theorem exists_map_whileLoop (body : τ → Option (Outcome τ)) (t : τ)
    (finish : Outcome τ → Outcome α) (hfault : ∀ f, finish (.error f) = .error f)
    (hok : ∀ a, finish (.ok a) ≠ .error endOfFile) :
    ((∃ fuel r, (whileLoop body fuel t).map finish = some r) ↔ ∃ r, Ends body t r) ∧
      ((∃ fuel, (whileLoop body fuel t).map finish = some (.error endOfFile)) ↔
        Ends body t (.error endOfFile)) := by
  refine ⟨⟨?_, ?_⟩, ⟨?_, ?_⟩⟩
  · rintro ⟨fuel, r, h⟩
    obtain ⟨r', h', -⟩ := Option.map_eq_some_iff.1 h
    exact ⟨r', fuel, h'⟩
  · rintro ⟨r, fuel, h⟩
    exact ⟨fuel, finish r, by rw [h]; rfl⟩
  · rintro ⟨fuel, h⟩
    obtain ⟨r', h', hr'⟩ := Option.map_eq_some_iff.1 h
    cases r' with
    | ok a => exact absurd hr' (hok a)
    | error f =>
      rw [hfault] at hr'
      rw [Except.error.inj hr'] at h'
      exact ⟨fuel, h'⟩
  · rintro ⟨fuel, h⟩
    refine ⟨fuel, ?_⟩
    rw [h, ← hfault]
    rfl

/-- A reader that checks the link and skips a body without bits before its loop, and does something
with the outcome of the loop. -/
theorem readsBody_iff {readData : Nat → Option (Outcome α)} {body : τ → Option (Outcome τ)} {t : τ}
    {header : SectionHeader} {skipped : Outcome α} {finish : Outcome τ → Outcome α}
    (hdata : ∀ fuel, readData fuel = if header.linkId = 0 then some (.error .assertion)
      else if header.noBits then some skipped else (whileLoop body fuel t).map finish)
    (hfault : ∀ f, finish (.error f) = .error f) (hok : ∀ a, finish (.ok a) ≠ .error endOfFile) :
    ReadsBody readData header fileLength ↔ (header.BodyRead → ∃ r, Ends body t r) ∧
      (header.Extends fileLength → Ends body t (.error endOfFile)) := by
  obtain ⟨hends, hreports⟩ := exists_map_whileLoop body t finish hfault hok
  by_cases hbody : header.BodyRead
  · have hread (fuel : Nat) : readData fuel = (whileLoop body fuel t).map finish := by
      rw [hdata, if_neg hbody.1, if_neg (Bool.eq_false_iff.1 hbody.2)]
    simp only [ReadsBody, hread, hends, hreports]
    exact and_congr_left fun _ => (imp_iff_right hbody).symm
  · have hskip : ∃ r, readData 0 = some r := by
      rw [hdata]
      split
      case isTrue => exact ⟨_, rfl⟩
      case isFalse hlink =>
        rw [if_pos]
        · exact ⟨_, rfl⟩
        · by_contra hbits
          exact hbody ⟨hlink, Bool.eq_false_iff.2 hbits⟩
    obtain ⟨r, hr⟩ := hskip
    have hextends : ¬ header.Extends fileLength := fun h => hbody h.1
    constructor
    · intro _
      exact ⟨fun h => absurd h hbody, fun h => absurd h hextends⟩
    · intro _
      exact ⟨⟨0, r, hr⟩, fun h => absurd h hextends⟩

/-- A symbol section whose keys are not used up is read, or its loop ends at the latest when the
keys of its elements come again. -/
theorem symbols_end (st : StreamSettings) (header : SectionHeader) (keys : List UInt32)
    (stream : BinaryStream) :
    ∃ j, ¬ ReadsElements.Good header stream 16 (fun _ => True) (SymbolAccepted st keys) j := by
  refine ⟨2 ^ 32, ?_⟩
  rintro ⟨-, -, -, hlt, -⟩
  exact Nat.lt_irrefl _ hlt

theorem defineUndefSymbol_ne_endOfFile (loop : SymbolLoop) :
    loop.defineUndefSymbol ≠ .error endOfFile := by
  rw [SymbolLoop.defineUndefSymbol]
  split
  case isTrue => exact nofun
  case isFalse =>
    by_cases h : 0 ∈ loop.keys
    · rw [addObjectReference_of_used h]
      exact nofun
    · rw [addObjectReference_of_new h]
      exact nofun

theorem readSymbolData_iff (st : StreamSettings) (header : SectionHeader) (keys : List UInt32)
    (stream : BinaryStream) (fileLength : Nat) :
    ReadsBody (readSymbolData st header keys stream) header fileLength ↔
      (header.Extends fileLength →
        ReadsElements.Reported header stream 16 (fun _ => True) (SymbolAccepted st keys)) := by
  have hr := readsElements_symbols st keys
  have h0 := keyed_zero keys
  have hdata (fuel : Nat) : readSymbolData st header keys stream fuel = _ := rfl
  rw [readsBody_iff hdata (fun f => rfl) fun a => defineUndefSymbol_ne_endOfFile a.state,
    hr.ends_iff (Nat.le_add_left 2 14) h0, hr.ends_endOfFile_iff (Nat.le_add_left 2 14) h0]
  exact and_iff_right fun _ => symbols_end st header keys stream

end SymbolSections

section RelocSections

/-- The key of the relocation is not used in the section. -/
def RelocFree (keys : List UInt32) (j : Nat) : Prop := j < 2 ^ 32 ∧ UInt32.ofNat j ∉ keys

theorem readReloc_of_used {loop : RelocLoop} (h : loop.id ∈ loop.keys) (l : List UInt8) :
    readReloc st loop l = .error (.exception .keyAlreadyExists) := by
  change (addObjectReference loop.keys loop.id >>= fun a => .ok (a, l) : Outcome _) >>= _ = _
  rw [addObjectReference_of_used h]
  rfl

theorem readReloc_of_new {loop : RelocLoop} (h : loop.id ∉ loop.keys) (l : List UInt8) :
    readReloc st loop l = readRelocFields st l >>= fun x =>
      .ok (⟨loop.id + 1, loop.id :: loop.keys, loop.elements ++ [x.1]⟩, x.2) := by
  change (addObjectReference loop.keys loop.id >>= fun a => .ok (a, l) : Outcome _) >>= _ = _
  rw [addObjectReference_of_new h]
  rfl

theorem readsElements_relocs (st : StreamSettings) (keys : List UInt32) :
    ReadsElements (readReloc st) 12 (fun j loop => Keyed keys j loop.id loop.keys)
      (RelocFree keys) (fun _ _ => True) where
  refused := by
    intro j loop l h hfree
    have hused : loop.id ∈ loop.keys := by
      by_contra hnew
      exact hfree (h.used_self.1 hnew)
    exact ⟨.exception .keyAlreadyExists, nofun, readReloc_of_used hused l⟩
  short := by
    intro j loop l h hfree hlt
    rw [readReloc_of_new (h.used_self.2 hfree), (takes_readRelocFields st l).1 hlt]
    rfl
  accepted := by
    intro j loop l h hfree hle _
    obtain ⟨elem, helem⟩ := (takes_readRelocFields st l).2 hle
    refine ⟨⟨loop.id + 1, loop.id :: loop.keys, loop.elements ++ [elem]⟩, ?_, h.succ hfree.1⟩
    rw [readReloc_of_new (h.used_self.2 hfree), helem]
    rfl
  rejected := fun j loop l _ _ _ haccepts => absurd True.intro haccepts

theorem readRelocData_iff (st : StreamSettings) (header : SectionHeader) (keys : List UInt32)
    (stream : BinaryStream) (fileLength : Nat) :
    ReadsBody (readRelocData st header keys stream) header fileLength ↔
      (header.Extends fileLength →
        ReadsElements.Reported header stream 12 (RelocFree keys) fun _ _ => True) := by
  have hr := readsElements_relocs st keys
  have h0 := keyed_zero keys
  have hdata (fuel : Nat) : readRelocData st header keys stream fuel = _ := rfl
  rw [readsBody_iff hdata (fun f => rfl) fun a => nofun,
    hr.ends_iff (Nat.le_add_left 2 10) h0, hr.ends_endOfFile_iff (Nat.le_add_left 2 10) h0]
  apply and_iff_right
  intro _
  refine ⟨2 ^ 32, ?_⟩
  rintro ⟨-, ⟨hlt, -⟩, -⟩
  exact Nat.lt_irrefl _ hlt

end RelocSections

section LineNumSections

/-- The first line begins a procedure. -/
def LineAccepted (st : StreamSettings) (j : Nat) (l : List UInt8) : Prop :=
  j = 0 → ∀ line left, readLineFields st l = .ok (line, left) → line.2 = 0

theorem readLine_of_fields {procedures : LineNumLoop}
    (h : readLineFields st l = .ok (line, left)) :
    readLine st procedures l = (LineNumLoop.addLine procedures line).map (·, left) := by
  change (readLineFields st l >>= fun x =>
    (LineNumLoop.addLine procedures x.1 >>= fun a => .ok (a, x.2) : Outcome _)) = _
  rw [h]
  change (LineNumLoop.addLine procedures line >>= fun a => .ok (a, left) : Outcome _) = _
  cases LineNumLoop.addLine procedures line with
  | error f => rfl
  | ok procedures' => rfl

/-- Only a line before the first procedure is refused. -/
theorem addLine_cases (procedures : LineNumLoop) (line : UInt32 × UInt16) :
    (procedures = [] ∧ line.2 ≠ 0 ∧ procedures.addLine line = .error .assertion) ∨
      (procedures = [] → line.2 = 0) ∧ ∃ procedure rest,
        procedures.addLine line = .ok (procedure :: rest) := by
  unfold LineNumLoop.addLine
  by_cases hline : line.2 = 0
  · rw [if_pos hline]
    exact .inr ⟨fun _ => hline, _, _, rfl⟩
  · rw [if_neg hline]
    cases procedures with
    | nil => exact .inl ⟨rfl, hline, rfl⟩
    | cons procedure rest => exact .inr ⟨nofun, _, _, rfl⟩

theorem readsElements_lines (st : StreamSettings) :
    ReadsElements (readLine st) 6 (fun j procedures => procedures = [] ↔ j = 0) (fun _ => True)
      (LineAccepted st) where
  refused := fun j procedures l _ hfree => absurd True.intro hfree
  short := by
    intro j procedures l _ _ hlt
    change (readLineFields st l >>= _) = _
    rw [(takes_readLineFields st l).1 hlt]
    rfl
  accepted := by
    intro j procedures l h _ hle haccepted
    obtain ⟨line, hline⟩ := (takes_readLineFields st l).2 hle
    obtain ⟨hnone, hne, -⟩ | ⟨-, procedure, rest, hadd⟩ := addLine_cases procedures line
    · exact absurd (haccepted (h.1 hnone) line _ hline) hne
    · refine ⟨procedure :: rest, ?_, ?_⟩
      · rw [readLine_of_fields hline, hadd]
        rfl
      · exact ⟨fun h => absurd h (List.cons_ne_nil _ _), fun h => absurd h (Nat.succ_ne_zero j)⟩
  rejected := by
    intro j procedures l h _ hle hrejected
    obtain ⟨line, hline⟩ := (takes_readLineFields st l).2 hle
    obtain ⟨-, -, hadd⟩ | ⟨hfirst, -⟩ := addLine_cases procedures line
    · refine ⟨.assertion, nofun, ?_⟩
      rw [readLine_of_fields hline, hadd]
      rfl
    · refine absurd (fun hj line' left hline' => ?_) hrejected
      obtain ⟨rfl, -⟩ := Prod.mk.inj (Except.ok.inj (hline.symm.trans hline'))
      exact hfirst (h.2 hj)

theorem readLineNumData_iff (st : StreamSettings) (header : SectionHeader) (stream : BinaryStream)
    (fileLength : Nat) :
    ReadsBody (readLineNumData st header stream) header fileLength ↔
      (header.BodyRead →
        ∃ j, ¬ ReadsElements.Good header stream 6 (fun _ => True) (LineAccepted st) j) ∧
      (header.Extends fileLength →
        ReadsElements.Reported header stream 6 (fun _ => True) (LineAccepted st)) := by
  have hr := readsElements_lines st
  have h0 : ([] : LineNumLoop) = [] ↔ 0 = 0 := ⟨fun _ => rfl, fun _ => rfl⟩
  have hdata (fuel : Nat) : readLineNumData st header stream fuel = _ := rfl
  rw [readsBody_iff hdata (fun f => rfl) fun a => nofun,
    hr.ends_iff (Nat.le_add_left 2 4) h0, hr.ends_endOfFile_iff (Nat.le_add_left 2 4) h0]

end LineNumSections

section CodeSections
open BinaryStream

theorem leaves_readHalfWord (st : StreamSettings) : Leaves (readHalfWord st) := by
  refine leaves_readByte.bind fun a => leaves_readByte.bind fun b => ?_
  split
  · exact Leaves.pure _
  · exact Leaves.pure _

theorem leaves_readId (st : StreamSettings) : Leaves (readId st) := by
  rw [readId]
  split
  · exact leaves_readByte.bind fun id => Leaves.pure _
  · exact leaves_readHalfWord st

theorem leaves_readMove (st : StreamSettings) (iAttr : UInt8) : Leaves (readMove st iAttr) :=
  (leaves_readId st).bind fun _ => leaves_readByte.bind fun _ => (Leaves.lift _).bind fun _ =>
    (leaves_readId st).bind fun _ => (leaves_readHalfWord st).bind fun _ =>
      (leaves_readId st).bind fun _ => (leaves_readHalfWord st).bind fun _ =>
        (leaves_readId st).bind fun _ => (leaves_readHalfWord st).bind fun _ => Leaves.pure _

theorem leaves_readDataField (st : StreamSettings) (iAttr : UInt8) :
    Leaves (readDataField st iAttr) := by
  rw [readDataField]
  split
  · refine Leaves.bind ?_ fun i => Leaves.pure _
    exact leaves_readByte.bind fun _ => leaves_readByte.bind fun _ =>
      (leaves_readBytes _).bind fun _ => Leaves.pure _
  · exact (leaves_readMove st iAttr).bind fun m => Leaves.pure _

theorem leaves_readAnnotationsLoop (n : Nat) : Leaves (readAnnotationsLoop n) := by
  induction n with
  | zero => exact Leaves.fail _
  | succ n ih =>
    have hid : Leaves readAnnotationId :=
      leaves_readByte.bind fun _ => leaves_readByte.bind fun _ => leaves_readByte.bind fun _ =>
        Leaves.pure _
    refine leaves_readByte.bind fun size => hid.bind fun id =>
      (leaves_readBytes _).bind fun payload => ?_
    split
    · exact Leaves.pure _
    · exact ih.bind fun rest => Leaves.pure _

theorem leaves_readAnnotations (iAttr : UInt8) : Leaves (readAnnotations iAttr) := by
  intro l a left h
  rw [readAnnotations] at h
  split at h
  · exact leaves_readAnnotationsLoop _ _ _ _ h
  · cases h
    exact List.suffix_rfl

/-- An element takes at least its first byte. -/
theorem readElement_length (h : readElement st nextIsBeginning l = .ok (e, left)) :
    left.length < l.length :=
  length_lt_of_readByte (fun iAttr => (leaves_readDataField st iAttr).bind fun _ =>
    (leaves_readAnnotations iAttr).bind fun _ => Leaves.pure _) h

theorem addElement_stream {t t' : CodeLoop}
    (h : t.addElement header e nextIsBeginning stream = .ok t') : t'.stream = stream := by
  rw [CodeLoop.addElement] at h
  obtain ⟨indexKeys, -, h⟩ := Except.bind_ok h
  obtain ⟨offsetKeys, -, h⟩ := Except.bind_ok h
  cases h
  rfl

theorem codeBody_length {t t' : CodeLoop} (h : CodeLoop.body st header t = some (.ok t')) :
    t'.stream.rest.length < t.stream.rest.length := by
  rw [CodeLoop.body] at h
  split at h
  case isFalse => cases h
  case isTrue =>
    obtain ⟨next, hnext, h⟩ := Except.bind_ok (Option.some.inj h)
    rw [addElement_stream h]
    rw [run] at hnext
    split at hnext
    case h_1 => cases hnext
    case h_2 e left hread =>
      cases hnext
      have hlt := readElement_length hread
      exact Nat.lt_of_le_of_lt (rest_after_length hlt) hlt

/-- The loop goes on: the end of the file was not noticed, and the position is before the end of the
body in 32 bits. -/
def CodeLoop.GoesOn (header : SectionHeader) (t : CodeLoop) : Prop :=
  t.stream.eof = false ∧
    t.stream.position % 2 ^ 32 < (header.bodyLength + header.bodyOffset).toNat

theorem goesOn_iff {t : CodeLoop} :
    t.GoesOn header ↔ t.stream.readPosition < header.bodyLength + header.bodyOffset := by
  rw [CodeLoop.GoesOn, readPosition, UInt32.lt_iff_toNat_lt]
  cases t.stream.eof with
  | true =>
    rw [if_pos rfl, UInt32.toNat_ofNat_of_lt' (by decide)]
    have hlt := (header.bodyLength + header.bodyOffset).toNat_lt
    constructor
    · intro h
      exact absurd h.1 Bool.noConfusion
    · intro h
      omega
  | false =>
    rw [if_neg Bool.false_ne_true, UInt32.toNat_ofNat']
    exact and_iff_right rfl

theorem codeBody_ne_none {t : CodeLoop} :
    CodeLoop.body st header t ≠ none ↔ t.GoesOn header := by
  rw [goesOn_iff, CodeLoop.body]
  split
  case isTrue h => exact ⟨fun _ => h, fun _ => Option.some_ne_none _⟩
  case isFalse h => exact ⟨fun hne => absurd rfl hne, fun hlt => absurd hlt h⟩

theorem readCodeData_iff (st : StreamSettings) (header : SectionHeader)
    (indexKeys offsetKeys : List UInt32) (stream : BinaryStream) (fileLength : Nat) :
    ReadsBody (readCodeData st header indexKeys offsetKeys stream) header fileLength ↔
      (header.Extends fileLength →
        ∀ t, Comes (CodeLoop.body st header) (.start header indexKeys offsetKeys stream) t →
          t.GoesOn header ∧
            ∀ f, CodeLoop.body st header t = some (.error f) → f = endOfFile) := by
  have hdata (fuel : Nat) : readCodeData st header indexKeys offsetKeys stream fuel = _ := rfl
  have hends : ∃ r, Ends (CodeLoop.body st header)
      (.start header indexKeys offsetKeys stream) r :=
    Ends.of_measure (fun t => t.stream.rest.length) fun t t' h => codeBody_length h
  rw [readsBody_iff hdata (fun f => rfl) fun a => nofun, and_iff_right fun _ => hends,
    Ends.fault_iff_forall hends]
  simp only [codeBody_ne_none]

end CodeSections

/-- A relocation whose last byte is missing in the file. -/
def shortStream : BinaryStream := ⟨List.replicate 11 0, 0, false⟩

def relocHeader : SectionHeader := ⟨false, 1, 12, 0, 12⟩

/-- Lines of size 0. -/
def zeroSizeHeader : SectionHeader := ⟨false, 1, 0, 0, 6⟩

theorem zeroSize_never_ends (fuel : Nat) (procedures : LineNumLoop) :
    whileLoop (ElementLoop.body zeroSizeHeader (readLine ⟨.v2, true⟩)) fuel
      ⟨shortStream, 0, procedures⟩ = none := by
  induction fuel generalizing procedures with
  | zero => rfl
  | succ fuel ih => exact ih (⟨none, []⟩ :: procedures)

end Tpef

end OpenAsip
