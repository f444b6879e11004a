import Mathlib.Algebra.Order.Ring.Int
import Mathlib.Data.List.TakeWhile
import OpenAsip.Outcomes

namespace OpenAsip
set_option autoImplicit true

/-- A stream over the characters of a string, which are bytes. -/
structure TextStream where
  rest : List Char
  eof : Bool
  fail : Bool
deriving DecidableEq, Repr

/-- The white space of the C locale. -/
def isSpace (c : Char) : Bool := c.toNat = 32 || (9 ≤ c.toNat && c.toNat ≤ 13)

def hexDigit (c : Char) : Option Nat :=
  let n := c.toNat
  if 48 ≤ n ∧ n ≤ 57 then some (n - 48)
  else if 97 ≤ n ∧ n ≤ 102 then some (n - 87)
  else if 65 ≤ n ∧ n ≤ 70 then some (n - 55)
  else none

def digit (base : Nat) (c : Char) : Option Nat := (hexDigit c).filter (· < base)

def isDigit (base : Nat) (c : Char) : Bool := (digit base c).isSome

/-- The number that digits stand for. -/
def numberOf (base : Nat) (l : List Char) : Nat :=
  l.foldl (fun n c => base * n + (digit base c).getD 0) 0

/-- An integer type of the language, in two's complement. -/
structure IntegerType where
  signed : Bool
  width : Nat
deriving DecidableEq, Repr

namespace IntegerType

/-- The greatest magnitude of a number with the sign. The sign of an unsigned number says only
that it is negated. -/
def limit (t : IntegerType) (negative : Bool) : Nat :=
  if t.signed then if negative then 2 ^ (t.width - 1) else 2 ^ (t.width - 1) - 1
  else 2 ^ t.width - 1

/-- The number that the low bits of an integer stand for. -/
def wrap (t : IntegerType) (n : Int) : Int :=
  if t.signed then n.bmod (2 ^ t.width) else n % 2 ^ t.width

def unsigned (t : IntegerType) : IntegerType := ⟨false, t.width⟩

end IntegerType

namespace TextStream

def ofString (l : List Char) : TextStream := ⟨l, false, false⟩

/-- What a formatted input function does first: only a stream in good state is read, from the first
character on that is no white space. -/
def sentry (s : TextStream) : TextStream :=
  if s.eof || s.fail then { s with fail := true }
  else match s.rest.dropWhile isSpace with
    | [] => ⟨[], true, true⟩
    | rest => ⟨rest, false, false⟩

/-- The next word. -/
def readToken (s : TextStream) : List Char × TextStream :=
  let s := s.sentry
  if s.fail then ([], s)
  else
    let rest := s.rest.dropWhile (fun c => !isSpace c)
    (s.rest.takeWhile (fun c => !isSpace c), ⟨rest, rest.isEmpty, false⟩)

def get (s : TextStream) : Option Char × TextStream :=
  if s.eof || s.fail then (none, { s with fail := true })
  else match s.rest with
    | [] => (none, ⟨[], true, true⟩)
    | c :: rest => (some c, ⟨rest, false, false⟩)

def peek (s : TextStream) : Option Char := s.rest.head?

def readSign : List Char → Bool × List Char
  | [] => (false, [])
  | c :: l => if c = '-' then (true, l) else if c = '+' then (false, l) else (false, c :: l)

/-- Hexadecimal numbers may have their prefix. -/
def readPrefix (base : Nat) : List Char → List Char
  | c :: x :: l => if base = 16 ∧ c = '0' ∧ (x = 'x' ∨ x = 'X') then l else c :: x :: l
  | l => l

/-- The sign, the digits and what follows, when a number is read. -/
def scan (base : Nat) (l : List Char) : Bool × List Char × List Char :=
  let (negative, l) := readSign l
  let l := readPrefix base l
  (negative, l.takeWhile (isDigit base), l.dropWhile (isDigit base))

/-- The value of a number that was scanned. One that is out of range gives the nearest value and a
failed stream. -/
def evaluate (t : IntegerType) (base : Nat) : Bool × List Char × List Char → Int × TextStream
  | (negative, digits, rest) =>
    let magnitude : Int := numberOf base digits
    if digits = [] then (0, ⟨rest, rest.isEmpty, true⟩)
    else if t.limit negative < magnitude then
      (if negative && t.signed then -2 ^ (t.width - 1) else t.limit false,
        ⟨rest, rest.isEmpty, true⟩)
    else (t.wrap (if negative then -magnitude else magnitude), ⟨rest, rest.isEmpty, false⟩)

/-- The next number in the base, for a variable with an old value. -/
def readInteger (t : IntegerType) (base : Nat) (s : TextStream) (old : Int) : Int × TextStream :=
  let s := s.sentry
  if s.fail then (old, s) else evaluate t base (scan base s.rest)

end TextStream

/-- White space only. -/
def Blank (l : List Char) : Prop := ∀ c ∈ l, isSpace c = true

instance (l : List Char) : Decidable (Blank l) := List.decidableBAll _ l

section Lists
variable {p : α → Bool} {a b : List α}

/-- The longest start of a list whose elements have a property. -/
theorem takeWhile_append_stop (ha : ∀ c ∈ a, p c = true) (hb : ∀ c ∈ b.head?, p c = false) :
    (a ++ b).takeWhile p = a ∧ (a ++ b).dropWhile p = b := by
  have hstop : b.takeWhile p = [] ∧ b.dropWhile p = b := by
    cases b with
    | nil => exact ⟨rfl, rfl⟩
    | cons c b =>
      have hc := hb c rfl
      exact ⟨by rw [List.takeWhile_cons, hc, if_neg Bool.false_ne_true],
        by rw [List.dropWhile_cons, hc, if_neg Bool.false_ne_true]⟩
  constructor
  · rw [List.takeWhile_append_of_pos ha, hstop.1, List.append_nil]
  · rw [List.dropWhile_append_of_pos ha, hstop.2]

theorem head?_dropWhile (l : List α) : ∀ c ∈ (l.dropWhile p).head?, p c = false := by
  induction l with
  | nil => exact nofun
  | cons c l ih =>
    rw [List.dropWhile_cons]
    cases hc : p c with
    | true => exact ih
    | false =>
      intro c' hc'
      cases hc'
      exact hc

end Lists

section Blanks
variable {pre core post l : List Char}

theorem blank_iff : Blank l ↔ l.dropWhile isSpace = [] := List.dropWhile_eq_nil_iff.symm

theorem Blank.head? (h : Blank l) : ∀ c ∈ l.head?, isSpace c = true :=
  fun c hc => h c (List.mem_of_mem_head? hc)

theorem isSpace_of_isDigit {base : Nat} {c : Char} (h : isDigit base c = true) :
    isSpace c = false := by
  rw [isDigit, digit, Option.isSome_filter, Option.any_eq_true] at h
  obtain ⟨d, hd, -⟩ := h
  rw [hexDigit] at hd
  rw [isSpace]
  simp only [Bool.or_eq_false_iff, Bool.and_eq_false_iff, decide_eq_false_iff_not]
  split at hd
  · omega
  · split at hd
    · omega
    · split at hd
      · omega
      · cases hd

/-- The first word of a string. -/
def firstToken (l : List Char) : List Char :=
  (l.dropWhile isSpace).takeWhile (fun c => !isSpace c)

/-- What follows the first word. -/
def afterToken (l : List Char) : List Char :=
  (l.dropWhile isSpace).dropWhile (fun c => !isSpace c)

theorem takeWhile_firstToken_afterToken (l : List Char) :
    l.takeWhile isSpace ++ (firstToken l ++ afterToken l) = l := by
  rw [firstToken, afterToken, List.takeWhile_append_dropWhile, List.takeWhile_append_dropWhile]

theorem blank_takeWhile (l : List Char) : Blank (l.takeWhile isSpace) :=
  fun _ hc => List.mem_takeWhile_imp hc

/-- A word between white space is the only one that a string can be split into so. -/
theorem tokens_of_append (hpre : Blank pre) (hpost : Blank post) (hne : core ≠ [])
    (hcore : ∀ c ∈ core, isSpace c = false) :
    (pre ++ core ++ post).takeWhile isSpace = pre ∧ firstToken (pre ++ core ++ post) = core ∧
      afterToken (pre ++ core ++ post) = post := by
  have hhead : ∀ c ∈ (core ++ post).head?, isSpace c = false := by
    cases core with
    | nil => exact (hne rfl).elim
    | cons c core =>
      intro c' hc'
      cases hc'
      exact hcore c List.mem_cons_self
  obtain ⟨htake, hdrop⟩ := takeWhile_append_stop hpre hhead
  have hword := takeWhile_append_stop (p := fun c => !isSpace c) (a := core) (b := post)
    (fun c hc => by rw [hcore c hc]; rfl) (fun c hc => by rw [hpost.head? c hc]; rfl)
  rw [List.append_assoc, firstToken, afterToken, htake, hdrop]
  exact ⟨rfl, hword⟩

end Blanks

namespace TextStream

theorem sentry_good {rest : List Char} (h : ¬ Blank rest) :
    (ofString rest).sentry = ofString (rest.dropWhile isSpace) := by
  rw [blank_iff] at h
  rw [sentry]
  change (match rest.dropWhile isSpace with
    | [] => (⟨[], true, true⟩ : TextStream)
    | rest => ⟨rest, false, false⟩) = _
  split
  · rename_i hnil
    exact (h hnil).elim
  · rfl

theorem sentry_blank {s : TextStream} (h : Blank s.rest) : s.sentry.fail = true := by
  rw [blank_iff] at h
  rw [sentry, h]
  split
  · rfl
  · rfl

theorem sentry_bad {s : TextStream} (h : s.fail = true) : s.sentry.fail = true := by
  rw [sentry, h, Bool.or_true, if_pos rfl]

theorem readToken_good {rest : List Char} (h : ¬ Blank rest) :
    (ofString rest).readToken =
      (firstToken rest, ⟨afterToken rest, (afterToken rest).isEmpty, false⟩) := by
  rw [readToken, sentry_good h]
  rfl

/-- Looking for one more word fails exactly if there is none, or the stream has failed before. -/
theorem fail_readToken (rest : List Char) (fail : Bool) :
    ((TextStream.mk rest rest.isEmpty fail).readToken.2.fail = true) ↔
      Blank rest ∨ fail = true := by
  cases fail with
  | true =>
    have hbad : (TextStream.mk rest rest.isEmpty true).sentry.fail = true := sentry_bad rfl
    rw [readToken, hbad, if_pos rfl]
    exact ⟨fun _ => .inr rfl, fun _ => hbad⟩
  | false =>
    by_cases hblank : Blank rest
    · have hbad : (TextStream.mk rest rest.isEmpty false).sentry.fail = true := sentry_blank hblank
      rw [readToken, hbad, if_pos rfl]
      exact ⟨fun _ => .inl hblank, fun _ => hbad⟩
    · have hempty : rest.isEmpty = false := by
        cases rest with
        | nil => exact (hblank nofun).elim
        | cons c rest => rfl
      have hgood := readToken_good hblank
      rw [ofString] at hgood
      rw [hempty, hgood]
      exact ⟨nofun, fun h => h.elim (fun hb => (hblank hb).elim) nofun⟩

theorem readInteger_blank (t : IntegerType) (base : Nat) {s : TextStream} (h : Blank s.rest)
    (old : Int) : s.readInteger t base old = (old, s.sentry) := by
  rw [readInteger, if_pos (sentry_blank h)]

theorem readInteger_good (t : IntegerType) (base : Nat) {rest : List Char} (h : ¬ Blank rest)
    (old : Int) : (ofString rest).readInteger t base old =
      evaluate t base (scan base (rest.dropWhile isSpace)) := by
  rw [readInteger, sentry_good h]
  rfl

end TextStream
end OpenAsip
