import Mathlib.Algebra.Ring.Nat
import OpenAsip.ByteReaders

namespace OpenAsip
set_option autoImplicit true

/-- A `BinaryStream` that is read. A position may lie behind the end of the file. -/
structure BinaryStream where
  file : List UInt8
  position : Nat
  eof : Bool
deriving DecidableEq, Repr

namespace BinaryStream
open Reader

/-- The end of the file is noticed by the read that goes behind it, which gives the byte of
`traits::eof()`. Only the next read throws. -/
def getByte (s : BinaryStream) : Outcome (UInt8 × BinaryStream) :=
  if s.eof then .error (.exception .endOfFile)
  else
    match s.file[s.position]? with
    | some b => .ok (b, { s with position := s.position + 1 })
    | none => .ok (0xff, { s with eof := true })

/-- `tellg` gives -1 at the end of the file. -/
def readPosition (s : BinaryStream) : UInt32 :=
  if s.eof then UInt32.ofNat (2 ^ 32 - 1) else UInt32.ofNat s.position

/-- The end of the file is forgotten if the position is inside the file. -/
def setReadPosition (s : BinaryStream) (position : UInt32) : BinaryStream where
  file := s.file
  position := position.toNat
  eof := s.eof && decide ((UInt32.ofNat s.file.length).toNat < position.toNat)

/-- What reads one after another give before one throws. -/
def rest (s : BinaryStream) : List UInt8 :=
  if s.eof then [] else s.file.drop s.position ++ [0xff]

/-- The stream after reads that have left these bytes. -/
def after (s : BinaryStream) (left : List UInt8) : BinaryStream where
  file := s.file
  position := s.position + (s.rest.length - max left.length 1)
  eof := left.isEmpty

/-- Reads one after another. -/
def run (p : Reader α) (s : BinaryStream) : Outcome (α × BinaryStream) :=
  match p s.rest with
  | .error f => .error f
  | .ok (a, left) => .ok (a, s.after left)

variable {s : BinaryStream} {left : List UInt8}

theorem rest_length (h : s.eof = false) : s.rest.length = s.file.length - s.position + 1 := by
  rw [rest, h, if_neg Bool.false_ne_true, List.length_append, List.length_drop,
    List.length_singleton]

theorem run_readByte (s : BinaryStream) : s.run readByte = s.getByte := by
  cases heof : s.eof with
  | true =>
    rw [run, getByte, rest, heof]
    rfl
  | false =>
    have hrest : s.rest = s.file.drop s.position ++ [0xff] := by
      rw [rest, heof]
      rfl
    have hlength := rest_length heof
    rw [run, getByte, heof, if_neg Bool.false_ne_true]
    cases hb : s.file[s.position]? with
    | none =>
      have hle := List.getElem?_eq_none_iff.1 hb
      rw [List.drop_eq_nil_of_le hle] at hrest
      rw [hrest]
      change Except.ok ((0xff : UInt8), s.after []) = _
      rw [after, hrest]
      rfl
    | some b =>
      obtain ⟨hlt, rfl⟩ := List.getElem?_eq_some_iff.1 hb
      rw [List.drop_eq_getElem_cons hlt] at hrest
      rw [hrest]
      change Except.ok (s.file[s.position], s.after (s.file.drop (s.position + 1) ++ [0xff])) = _
      have hempty : (s.file.drop (s.position + 1) ++ [0xff] : List UInt8).isEmpty = false := by
        rw [List.isEmpty_eq_false_iff]
        exact List.append_ne_nil_of_right_ne_nil _ (List.cons_ne_nil _ _)
      rw [after, hempty, hlength, List.length_append, List.length_drop, List.length_singleton]
      have hposition : s.position + (s.file.length - s.position + 1 -
          max (s.file.length - (s.position + 1) + 1) 1) = s.position + 1 := by omega
      rw [hposition]

/-- The rest of the stream is what the reads have left. -/
theorem rest_after (h : left <:+ s.rest) : (s.after left).rest = left := by
  cases heof : s.eof with
  | true =>
    rw [rest, heof, if_pos rfl] at h
    rw [List.suffix_nil.1 h]
    rfl
  | false =>
    cases left with
    | nil => rfl
    | cons b left =>
      have hlength := rest_length heof
      obtain ⟨taken, htaken⟩ := h
      have htotal := congrArg List.length htaken
      rw [List.length_append, hlength, List.length_cons] at htotal
      have hdrop : b :: left = s.rest.drop taken.length := by
        rw [← htaken, List.drop_left]
      have hposition : s.rest.length - max (b :: left).length 1 = taken.length := by
        rw [hlength, List.length_cons]
        omega
      rw [rest, after, List.isEmpty_cons, if_neg Bool.false_ne_true, hposition, hdrop, rest, heof,
        if_neg Bool.false_ne_true, List.drop_append_of_le_length, List.drop_drop]
      rw [List.length_drop]
      omega

theorem after_after (h : left <:+ s.rest) (h' : left' <:+ left) :
    (s.after left).after left' = s.after left' := by
  have hle := h.length_le
  have hle' := h'.length_le
  rw [after, rest_after h]
  simp only [after, mk.injEq, true_and, and_true]
  omega

/-- The reader leaves the end of what it is given. -/
def Leaves (p : Reader α) : Prop := ∀ l a left, p l = .ok (a, left) → left <:+ l

theorem Leaves.pure (a : α) : Leaves (pure a) := by
  intro l a' left h
  cases h
  exact List.suffix_rfl

theorem Leaves.fail (f : Fault) : Leaves (Reader.fail f : Reader α) := by
  intro l a left h
  cases h

theorem Leaves.bind {p : Reader α} {q : α → Reader β} (hp : Leaves p) (hq : ∀ a, Leaves (q a)) :
    Leaves (p >>= q) := by
  intro l b left h
  change (p l >>= fun x => q x.1 x.2) = _ at h
  obtain ⟨⟨a, left'⟩, ha, hb⟩ := Except.bind_ok h
  exact (hq a _ _ _ hb).trans (hp _ _ _ ha)

theorem Leaves.lift (r : Outcome α) : Leaves (liftM r : Reader α) := by
  intro l a left h
  change (r >>= fun a => .ok (a, l) : Outcome _) = _ at h
  obtain ⟨a', -, h⟩ := Except.bind_ok h
  cases h
  exact List.suffix_rfl

theorem leaves_readByte : Leaves readByte := by
  intro l b left h
  cases l with
  | nil => cases h
  | cons b' l =>
    cases h
    exact List.suffix_cons b left

theorem leaves_readBytes (n : Nat) : Leaves (readBytes n) := by
  induction n with
  | zero => exact Leaves.pure []
  | succ n ih => exact leaves_readByte.bind fun b => ih.bind fun l => Leaves.pure _

/-- A reader that begins with a byte leaves fewer bytes than there were. -/
theorem length_lt_of_readByte {q : UInt8 → Reader β} (hq : ∀ a, Leaves (q a))
    (h : (readByte >>= q) l = .ok (b, left)) : left.length < l.length := by
  cases l with
  | nil => cases h
  | cons a l =>
    have hle := (hq a l b left h).length_le
    rw [List.length_cons]
    omega

/-- Readers one after the other are run on the stream one after the other. -/
theorem run_bind {p : Reader α} {q : α → Reader β} (hp : Leaves p) (hq : ∀ a, Leaves (q a))
    (s : BinaryStream) : s.run (p >>= q) = s.run p >>= fun x => x.2.run (q x.1) := by
  have hbind : (p >>= q) s.rest = p s.rest >>= fun x => q x.1 x.2 := rfl
  rw [run, hbind, run]
  cases h : p s.rest with
  | error f => rfl
  | ok x =>
    have hsuffix := hp _ _ _ h
    change (match q x.1 x.2 with
      | .error f => .error f
      | .ok (b, left) => .ok (b, s.after left)) = (s.after x.2).run (q x.1)
    rw [run, rest_after hsuffix]
    cases hb : q x.1 x.2 with
    | error f => rfl
    | ok y =>
      change Except.ok (y.1, s.after y.2) = Except.ok (y.1, (s.after x.2).after y.2)
      rw [after_after hsuffix (hq _ _ _ _ hb)]

/-- A read leaves fewer bytes, until none are left. -/
theorem rest_after_length (h : left.length < s.rest.length) :
    (s.after left).rest.length ≤ left.length := by
  cases heof : s.eof with
  | true =>
    rw [rest, heof, if_pos rfl] at h
    exact absurd h (Nat.not_lt_zero _)
  | false =>
    have hlength := rest_length heof
    cases left with
    | nil => exact Nat.le_refl 0
    | cons b left =>
      rw [rest_length rfl, after, hlength]
      rw [hlength] at h
      simp only [List.length_cons] at h ⊢
      omega

end BinaryStream

end OpenAsip
