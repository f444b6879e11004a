import OpenAsip.Outcomes

namespace OpenAsip
set_option autoImplicit true

/-- A computation that reads bytes from the front of a stream. -/
abbrev Reader (α : Type) := StateT (List UInt8) (Except Fault) α

namespace Reader

def readByte : Reader UInt8 := fun s =>
  match s with
  | [] => .error (.exception .endOfFile)
  | b :: s => .ok (b, s)

def readBytes : Nat → Reader (List UInt8)
  | 0 => return []
  | n + 1 => do
    let b ← readByte
    let rest ← readBytes n
    return b :: rest

def fail (f : Fault) : Reader α := fun _ => .error f

/-- The reader reads these bytes, whatever follows them, and gives this value. -/
def Reads (p : Reader α) (bytes : List UInt8) (a : α) : Prop :=
  ∀ rest, p (bytes ++ rest) = .ok (a, rest)

theorem Reads.pure (a : α) : Reads (pure a) [] a := fun _ => rfl

theorem Reads.bind {p : Reader α} {f : α → Reader β} (hp : Reads p bytes a)
    (hf : Reads (f a) bytes' b) : Reads (p >>= f) (bytes ++ bytes') b := by
  intro rest
  change (p (bytes ++ bytes' ++ rest) >>= fun x => f x.1 x.2) = _
  rw [List.append_assoc, hp]
  exact hf rest

/-- The value is used in a computation that reads nothing more. -/
theorem Reads.map {p : Reader α} {f : α → Reader β} (hp : Reads p bytes a) (hf : Reads (f a) [] b) :
    Reads (p >>= f) bytes b := by
  have h := hp.bind hf
  rwa [List.append_nil] at h

/-- A computation that reads nothing comes first. -/
theorem Reads.skip {p : Reader α} {f : α → Reader β} (hp : Reads p [] a) (hf : Reads (f a) bytes b) :
    Reads (p >>= f) bytes b :=
  hp.bind hf

theorem Reads.lift (a : α) : Reads (liftM (.ok a : Except Fault α) : Reader α) [] a := fun _ => rfl

theorem reads_readByte (b : UInt8) : Reads readByte [b] b := fun _ => rfl

theorem reads_readBytes (bytes : List UInt8) : Reads (readBytes bytes.length) bytes bytes := by
  induction bytes with
  | nil => exact Reads.pure []
  | cons b bytes ih => exact (reads_readByte b).bind (ih.map (Reads.pure (b :: bytes)))

/-- Every value that the reader gives has a property. -/
def Yields (p : Reader α) (Q : α → Prop) : Prop := ∀ s a s', p s = .ok (a, s') → Q a

theorem Yields.pure {Q : α → Prop} (h : Q a) : Yields (pure a : Reader α) Q := by
  intro s a' s' heq
  cases heq
  exact h

theorem Yields.fail {Q : α → Prop} (f : Fault) : Yields (Reader.fail f) Q := by
  intro s a s' heq
  cases heq

theorem Yields.bind {p : Reader α} {f : α → Reader β} {Q : α → Prop} {R : β → Prop}
    (hp : Yields p Q) (hf : ∀ a, Q a → Yields (f a) R) : Yields (p >>= f) R := by
  intro s b s' heq
  change (p s >>= fun x => f x.1 x.2) = _ at heq
  obtain ⟨⟨a, t⟩, hpa, hfa⟩ := Except.bind_ok heq
  exact hf a (hp s a t hpa) t b s' hfa

theorem Yields.trivial (p : Reader α) : Yields p fun _ => True := fun _ _ _ _ => True.intro

/-- The same where nothing is said of the first value. -/
theorem Yields.next {p : Reader α} {f : α → Reader β} {R : β → Prop}
    (hf : ∀ a, Yields (f a) R) : Yields (p >>= f) R :=
  (Yields.trivial p).bind fun a _ => hf a

theorem yields_readBytes (n : Nat) : Yields (readBytes n) fun l => l.length = n := by
  induction n with
  | zero => exact Yields.pure rfl
  | succ n ih =>
    exact Yields.next fun b => ih.bind fun l hl => Yields.pure (congrArg Nat.succ hl)

end Reader

end OpenAsip
