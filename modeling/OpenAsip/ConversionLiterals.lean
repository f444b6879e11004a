import Mathlib.Tactic.Ring
import OpenAsip.Conversions

namespace OpenAsip
set_option autoImplicit true

namespace Conversion

section Grammar
variable (t : IntegerType)

/-- Only signed types have negative literals. -/
def Decimal (core : List Char) (v : Int) : Prop :=
  ∃ (negative : Bool) (digits : List Char), core = (if negative then ['-'] else []) ++ digits ∧
    digits ≠ [] ∧ (∀ c ∈ digits, isDigit 10 c = true) ∧ (negative = true → t.signed = true) ∧
    numberOf 10 digits ≤ t.limit negative ∧
    v = if negative then -(numberOf 10 digits : Int) else numberOf 10 digits

/-- Hexadecimal and binary literals stand for the bits of a number. -/
def Hexadecimal (core : List Char) (v : Int) : Prop :=
  ∃ digits, core = '0' :: 'x' :: digits ∧ digits ≠ [] ∧ (∀ c ∈ digits, isDigit 16 c = true) ∧
    numberOf 16 digits < 2 ^ t.width ∧ v = t.wrap (numberOf 16 digits)

def Binary (core : List Char) (v : Int) : Prop :=
  ∃ digits, core = digits ++ ['b'] ∧ digits ≠ [] ∧ (∀ c ∈ digits, isDigit 2 c = true) ∧
    digits.length ≤ t.width ∧ v = t.wrap (numberOf 2 digits)

def Literal (core : List Char) (v : Int) : Prop :=
  Decimal t core v ∨ Hexadecimal t core v ∨ Binary t core v

/-- A literal with white space around it. -/
def Denotes (s : List Char) (v : Int) : Prop :=
  ∃ pre core post, s = pre ++ core ++ post ∧ Blank pre ∧ Blank post ∧ Literal t core v

/-- The function returns what the string denotes, and throws if it denotes nothing. -/
def Converts (f : List Char → Outcome Int) (s : List Char) : Prop :=
  (∀ v, Denotes t s v → f s = .ok v) ∧
    ((∀ v, ¬ Denotes t s v) → f s = .error numberFormatException)

/-- Behind 0x there is a number in range, possibly after white space, a sign and another 0x, and
something else than white space behind it. -/
def GarbageAfterNumber (r : List Char) : Prop :=
  ¬ Blank r ∧ (TextStream.scan 16 (r.dropWhile isSpace)).2.1 ≠ [] ∧
    numberOf 16 (TextStream.scan 16 (r.dropWhile isSpace)).2.1 < 2 ^ t.width ∧
    ¬ Blank (TextStream.scan 16 (r.dropWhile isSpace)).2.2

/-- A string that starts with 0x is a literal and white space, or has garbage behind a number.
No hexadecimal literal has white space before it, and no binary one before or behind it. -/
structure WellPlaced (s : List Char) : Prop where
  hexadecimal : ∀ r, s = '0' :: 'x' :: r →
    (∃ core post v, s = core ++ post ∧ Blank post ∧ Hexadecimal t core v) ∨ GarbageAfterNumber t r
  blanks : ∀ pre core post v, s = pre ++ core ++ post → Blank pre → Blank post →
    (Hexadecimal t core v → pre = []) ∧ (Binary t core v → pre = [] ∧ post = [])

end Grammar

section Literals
variable {t : IntegerType} {core s : List Char} {v v' : Int}

theorem isDigit_two_iff (c : Char) : isDigit 2 c = true ↔ c = '0' ∨ c = '1' := by
  constructor
  · intro h
    rw [isDigit, digit, Option.isSome_filter, Option.any_eq_true] at h
    obtain ⟨d, hd, hlt⟩ := h
    rw [decide_eq_true_iff] at hlt
    rw [hexDigit] at hd
    have hc : c.toNat = 48 ∨ c.toNat = 49 := by
      split at hd
      · cases hd
        omega
      · split at hd
        · cases hd
          omega
        · split at hd
          · cases hd
            omega
          · cases hd
    rcases hc with hc | hc
    · exact .inl (Char.toNat_inj.1 hc)
    · exact .inr (Char.toNat_inj.1 hc)
  · rintro (rfl | rfl)
    · rfl
    · rfl

theorem Decimal.mem (h : Decimal t core v) {c : Char} (hc : c ∈ core) :
    c = '-' ∨ isDigit 10 c = true := by
  obtain ⟨negative, digits, rfl, -, hall, -⟩ := h
  rcases List.mem_append.1 hc with hc | hc
  · cases negative with
    | true => exact .inl (List.mem_singleton.1 hc)
    | false => cases hc
  · exact .inr (hall c hc)

theorem Decimal.not_mem (h : Decimal t core v) : 'x' ∉ core ∧ 'b' ∉ core := by
  constructor
  · intro hx
    rcases h.mem hx with he | he
    · cases he
    · cases he
  · intro hb
    rcases h.mem hb with he | he
    · cases he
    · cases he

theorem Hexadecimal.mem (h : Hexadecimal t core v) : 'x' ∈ core := by
  obtain ⟨digits, rfl, -⟩ := h
  exact List.mem_cons_of_mem _ List.mem_cons_self

theorem Binary.mem (h : Binary t core v) : 'b' ∈ core ∧ 'x' ∉ core := by
  obtain ⟨digits, rfl, -, hall, -⟩ := h
  refine ⟨List.mem_append_right _ List.mem_cons_self, fun hx => ?_⟩
  rcases List.mem_append.1 hx with hx | hx
  · rcases (isDigit_two_iff _).1 (hall _ hx) with he | he
    · exact absurd he (by decide)
    · exact absurd he (by decide)
  · exact absurd (List.mem_singleton.1 hx) (by decide)

theorem Literal.spaceless (h : Literal t core v) : core ≠ [] ∧ ∀ c ∈ core, isSpace c = false := by
  rcases h with ⟨negative, digits, rfl, hne, hall, -⟩ | ⟨digits, rfl, -, hall, -⟩ |
    ⟨digits, rfl, -, hall, -⟩
  · refine ⟨fun h => hne (List.append_eq_nil_iff.1 h).2, fun c hc => ?_⟩
    rcases List.mem_append.1 hc with hc | hc
    · cases negative with
      | true =>
        rw [List.mem_singleton.1 hc]
        rfl
      | false => cases hc
    · exact isSpace_of_isDigit (hall c hc)
  · refine ⟨List.cons_ne_nil _ _, fun c hc => ?_⟩
    rcases List.mem_cons.1 hc with rfl | hc
    · rfl
    · rcases List.mem_cons.1 hc with rfl | hc
      · rfl
      · exact isSpace_of_isDigit (hall c hc)
  · refine ⟨fun h => List.cons_ne_nil _ _ (List.append_eq_nil_iff.1 h).2, fun c hc => ?_⟩
    rcases List.mem_append.1 hc with hc | hc
    · exact isSpace_of_isDigit (hall c hc)
    · rw [List.mem_singleton.1 hc]
      rfl

/-- A core denotes one number only. -/
theorem Literal.unique (h : Literal t core v) (h' : Literal t core v') : v = v' := by
  rcases h with h | h | h
  · rcases h' with h' | h' | h'
    · obtain ⟨negative, digits, rfl, hne, hall, -, -, rfl⟩ := h
      obtain ⟨negative', digits', he, hne', hall', -, -, rfl⟩ := h'
      have hscan : TextStream.scan 10 ((if negative then ['-'] else []) ++ digits) =
          (negative, digits, []) := scan_digits hne hall
      rw [he, scan_digits hne' hall'] at hscan
      cases hscan
      rfl
    · exact (h.not_mem.1 h'.mem).elim
    · exact (h.not_mem.2 h'.mem.1).elim
  · rcases h' with h' | h' | h'
    · exact (h'.not_mem.1 h.mem).elim
    · obtain ⟨digits, rfl, -, -, -, rfl⟩ := h
      obtain ⟨digits', he, -, -, -, rfl⟩ := h'
      cases he
      rfl
    · exact (h'.mem.2 h.mem).elim
  · rcases h' with h' | h' | h'
    · exact (h'.not_mem.2 h.mem.1).elim
    · exact (h.mem.2 h'.mem).elim
    · obtain ⟨digits, rfl, -, -, -, rfl⟩ := h
      obtain ⟨digits', he, -, -, -, rfl⟩ := h'
      rw [List.append_cancel_right he]

theorem tokens_of_literal {pre post : List Char} (hpre : Blank pre) (hpost : Blank post)
    (h : Literal t core v) :
    (pre ++ core ++ post).takeWhile isSpace = pre ∧ firstToken (pre ++ core ++ post) = core ∧
      afterToken (pre ++ core ++ post) = post :=
  tokens_of_append hpre hpost h.spaceless.1 h.spaceless.2

theorem denotes_iff : Denotes t s v ↔ Blank (afterToken s) ∧ Literal t (firstToken s) v := by
  constructor
  · rintro ⟨pre, core, post, rfl, hpre, hpost, h⟩
    obtain ⟨-, hfirst, hafter⟩ := tokens_of_literal hpre hpost h
    rw [hfirst, hafter]
    exact ⟨hpost, h⟩
  · rintro ⟨hafter, h⟩
    refine ⟨s.takeWhile isSpace, firstToken s, afterToken s, ?_, blank_takeWhile s, hafter, h⟩
    rw [List.append_assoc, takeWhile_firstToken_afterToken]

theorem Denotes.unique (h : Denotes t s v) (h' : Denotes t s v') : v = v' :=
  (denotes_iff.1 h).2.unique (denotes_iff.1 h').2

end Literals

section Wrap
variable {t : IntegerType} {m n : Int}

theorem wrap_emod (t : IntegerType) (n : Int) : t.wrap n % 2 ^ t.width = n % 2 ^ t.width := by
  rw [IntegerType.wrap]
  split
  · have h := Int.bmod_emod (x := n) (m := 2 ^ t.width)
    rwa [Nat.cast_pow] at h
  · exact Int.emod_emod n _

theorem wrap_congr (h : m % 2 ^ t.width = n % 2 ^ t.width) : t.wrap m = t.wrap n := by
  rw [IntegerType.wrap, IntegerType.wrap]
  split
  · have hm := Int.emod_bmod (x := m) (n := 2 ^ t.width)
    have hn := Int.emod_bmod (x := n) (n := 2 ^ t.width)
    rw [Nat.cast_pow, Nat.cast_ofNat] at hm hn
    rw [← hm, ← hn, h]
  · exact h

theorem wrap_zero (t : IntegerType) : t.wrap 0 = 0 := by
  rw [IntegerType.wrap]
  split
  · exact Int.zero_bmod
  · exact Int.zero_emod _

theorem wrap_double (t : IntegerType) (n b : Int) :
    t.wrap (2 * t.wrap n + b) = t.wrap (2 * n + b) := by
  apply wrap_congr
  rw [Int.add_emod, Int.mul_emod, wrap_emod, ← Int.mul_emod, ← Int.add_emod]

theorem wrap_signed {negative : Bool} {k : Nat} (ht : t.signed = true) (hw : 0 < t.width)
    (hk : k ≤ t.limit negative) :
    t.wrap (if negative then -(k : Int) else k) = if negative then -(k : Int) else k := by
  obtain ⟨w, hwidth⟩ := Nat.exists_eq_succ_of_ne_zero (Nat.ne_of_gt hw)
  rw [IntegerType.limit, if_pos ht, hwidth, Nat.succ_sub_one] at hk
  rw [IntegerType.wrap, if_pos ht, hwidth, Nat.succ_eq_add_one, Nat.pow_succ]
  have hpos := Nat.two_pow_pos w
  cases negative with
  | true =>
    rw [if_pos rfl] at hk ⊢
    exact Int.bmod_eq_of_le_mul_two (by omega) (by omega)
  | false =>
    rw [if_neg Bool.false_ne_true] at hk ⊢
    exact Int.bmod_eq_of_le_mul_two (by omega) (by omega)

theorem wrap_unsigned {k : Nat} (ht : t.signed = false) (hk : k < 2 ^ t.width) :
    t.wrap k = k := by
  rw [IntegerType.wrap, ht, if_neg Bool.false_ne_true]
  apply Int.emod_eq_of_lt (Int.natCast_nonneg k)
  exact_mod_cast hk

end Wrap

section Decimals
variable {t : IntegerType} {core s : List Char} {v : Int}

theorem decimal_signed_iff (ht : t.signed = true) (hw : 0 < t.width) :
    Decimal t core v ↔ DecimalRead t core v := by
  constructor
  · rintro ⟨negative, digits, he, hne, hall, -, hlimit, rfl⟩
    exact ⟨negative, digits, he, hne, hall, hlimit, (wrap_signed ht hw hlimit).symm⟩
  · rintro ⟨negative, digits, he, hne, hall, hlimit, rfl⟩
    exact ⟨negative, digits, he, hne, hall, fun _ => ht, hlimit, wrap_signed ht hw hlimit⟩

theorem limit_unsigned (ht : t.signed = false) (negative : Bool) {k : Nat} :
    k ≤ t.limit negative ↔ k < 2 ^ t.width := by
  have hpos := Nat.two_pow_pos t.width
  rw [IntegerType.limit, ht, if_neg Bool.false_ne_true]
  omega

theorem decimal_unsigned_iff (ht : t.signed = false) :
    Decimal t core v ↔ DecimalRead t core v ∧ core.head? ≠ some '-' := by
  constructor
  · rintro ⟨negative, digits, rfl, hne, hall, hsign, hlimit, rfl⟩
    have hneg : negative = false := by
      cases negative with
      | true => exact (Bool.false_ne_true (ht.symm.trans (hsign rfl))).elim
      | false => rfl
    subst hneg
    refine ⟨⟨false, digits, rfl, hne, hall, hlimit, ?_⟩, fun h => ?_⟩
    · exact (wrap_unsigned ht ((limit_unsigned ht false).1 hlimit)).symm
    · have hmem := List.mem_of_mem_head? h
      cases hall _ hmem
  · rintro ⟨⟨negative, digits, rfl, hne, hall, hlimit, rfl⟩, hhead⟩
    cases negative with
    | true => exact (hhead rfl).elim
    | false =>
      exact ⟨false, digits, rfl, hne, hall, nofun, hlimit,
        wrap_unsigned ht ((limit_unsigned ht false).1 hlimit)⟩

end Decimals

section Binaries
variable {t : IntegerType} {s l : List Char} {v : Int}

/-- The loop shifts in the digits, as long as they are binary ones. -/
theorem binaryLoop_ok (hall : ∀ c ∈ l, isDigit 2 c = true) (m : Nat) :
    binaryLoop t l (t.wrap m) =
      .ok (t.wrap (l.foldl (fun n c => 2 * n + (digit 2 c).getD 0) m : Nat)) := by
  induction l generalizing m with
  | nil => rfl
  | cons c l ih =>
    have hl := fun c' hc' => hall c' (List.mem_cons_of_mem c hc')
    rcases (isDigit_two_iff c).1 (hall c List.mem_cons_self) with rfl | rfl
    · have hstep := wrap_double t m 0
      rw [Int.add_zero, Int.add_zero] at hstep
      rw [binaryLoop, if_pos rfl, hstep]
      exact ih hl (2 * m)
    · rw [binaryLoop, if_neg (by decide), if_pos rfl, wrap_double]
      exact ih hl (2 * m + 1)

theorem binaryLoop_error (hall : ¬ ∀ c ∈ l, isDigit 2 c = true) (n : Int) :
    binaryLoop t l n = .error numberFormatException := by
  induction l generalizing n with
  | nil => exact (hall nofun).elim
  | cons c l ih =>
    by_cases hc : isDigit 2 c = true
    · have hl : ¬ ∀ c' ∈ l, isDigit 2 c' = true := by
        intro hl
        apply hall
        intro c' hc'
        rcases List.mem_cons.1 hc' with rfl | hmem
        · exact hc
        · exact hl c' hmem
      rw [binaryLoop]
      split
      · exact ih hl _
      · split
        · exact ih hl _
        · rfl
    · rw [isDigit_two_iff, not_or] at hc
      rw [binaryLoop, if_neg hc.1, if_neg hc.2]

/-- A string that does not start with 0x is accepted if it is a binary literal as it stands. -/
theorem hexOrBinary_ok_iff (hs : ∀ r, s ≠ '0' :: 'x' :: r) (v : Int) :
    hexOrBinary t s = .ok v ↔ Binary t s v := by
  rw [hexOrBinary_other hs]
  constructor
  · intro h
    split at h
    · rename_i hend
      obtain ⟨hlength, hlast⟩ := hend
      split at h
      · cases h
      · rename_i hwidth
        have hsplit := List.dropLast_append_getLast? 'b' hlast
        have hcount := congrArg List.length hsplit
        rw [List.length_append, List.length_singleton] at hcount
        by_cases hall : ∀ c ∈ s.dropLast, isDigit 2 c = true
        · have hrun := binaryLoop_ok (t := t) hall 0
          rw [Nat.cast_zero, wrap_zero, h] at hrun
          refine ⟨s.dropLast, hsplit.symm, fun hnil => ?_, hall, by omega, Except.ok.inj hrun⟩
          rw [hnil] at hcount
          change 0 + 1 = s.length at hcount
          omega
        · rw [binaryLoop_error hall] at h
          cases h
    · cases h
  · rintro ⟨digits, rfl, hne, hall, hlength, rfl⟩
    have hpos := List.length_pos_iff.2 hne
    have hrun := binaryLoop_ok (t := t) hall 0
    rw [Nat.cast_zero, wrap_zero] at hrun
    rw [List.length_append, List.length_singleton, List.getLast?_concat, List.dropLast_concat,
      if_pos ⟨by omega, rfl⟩, if_neg (by omega)]
    exact hrun

theorem binaryLoop_fault {n : Int} {f : Fault} (h : binaryLoop t l n = .error f) :
    f = numberFormatException := by
  induction l generalizing n with
  | nil => cases h
  | cons c l ih =>
    rw [binaryLoop] at h
    split at h
    · exact ih h
    · split at h
      · exact ih h
      · exact (Except.error.inj h).symm

theorem hexOrBinary_error {f : Fault} (h : hexOrBinary t s = .error f) :
    f = numberFormatException := by
  rw [hexOrBinary] at h
  dsimp only at h
  split at h
  · split at h
    · cases h
    · exact (Except.error.inj h).symm
  · split at h
    · split at h
      · exact (Except.error.inj h).symm
      · exact binaryLoop_fault h
    · exact (Except.error.inj h).symm

end Binaries

section Hexadecimals
variable {t : IntegerType} {r digits post : List Char}

theorem wrap_of_unsigned (t : IntegerType) (n : Int) : t.wrap (t.unsigned.wrap n) = t.wrap n :=
  wrap_congr (wrap_emod t.unsigned n)

/-- Digits and white space behind them are no second prefix. -/
theorem readPrefix_digits (hall : ∀ c ∈ digits, isDigit 16 c = true) (hpost : Blank post) :
    TextStream.readPrefix 16 (digits ++ post) = digits ++ post := by
  have hx : 'x' ∉ digits ++ post ∧ 'X' ∉ digits ++ post := by
    constructor
    · intro hmem
      rcases List.mem_append.1 hmem with hmem | hmem
      · cases hall _ hmem
      · cases hpost _ hmem
    · intro hmem
      rcases List.mem_append.1 hmem with hmem | hmem
      · cases hall _ hmem
      · cases hpost _ hmem
  cases hl : digits ++ post with
  | nil => rfl
  | cons c l => cases l with
    | nil => rfl
    | cons x l =>
      have hmem : x ∈ digits ++ post := by
        rw [hl]
        exact List.mem_cons_of_mem _ List.mem_cons_self
      rw [TextStream.readPrefix, if_neg]
      rintro ⟨-, -, rfl | rfl⟩
      · exact hx.1 hmem
      · exact hx.2 hmem

theorem scan_hexadecimal (hne : digits ≠ []) (hall : ∀ c ∈ digits, isDigit 16 c = true)
    (hpost : Blank post) : TextStream.scan 16 (digits ++ post) = (false, digits, post) := by
  have hsign : TextStream.readSign (digits ++ post) = (false, digits ++ post) := by
    cases digits with
    | nil => exact (hne rfl).elim
    | cons c l => exact readSign_digit (hall c List.mem_cons_self) (l ++ post)
  have hstop : ∀ c ∈ post.head?, isDigit 16 c = false := by
    intro c hc
    cases hdigit : isDigit 16 c with
    | false => rfl
    | true =>
      have hspace := isSpace_of_isDigit hdigit
      rw [hpost.head? c hc] at hspace
      cases hspace
  obtain ⟨htake, hdrop⟩ := takeWhile_append_stop hall hstop
  rw [TextStream.scan, hsign]
  dsimp only
  rw [readPrefix_digits hall hpost, htake, hdrop]

/-- A literal that stands at the start of the string is read. -/
theorem hexOrBinary_hexadecimal (hne : digits ≠ []) (hall : ∀ c ∈ digits, isDigit 16 c = true)
    (hlt : numberOf 16 digits < 2 ^ t.width) (hpost : Blank post) :
    hexOrBinary t ('0' :: 'x' :: (digits ++ post)) = .ok (t.wrap (numberOf 16 digits)) := by
  have hstart : ¬ Blank (digits ++ post) ∧ (digits ++ post).dropWhile isSpace = digits ++ post := by
    cases digits with
    | nil => exact (hne rfl).elim
    | cons c l =>
      have hc := isSpace_of_isDigit (hall c List.mem_cons_self)
      constructor
      · intro h
        rw [h c List.mem_cons_self] at hc
        cases hc
      · rw [List.cons_append, List.dropWhile_cons, hc, if_neg Bool.false_ne_true]
  have hread := (evaluate_ok_iff t.unsigned 16 false digits post _).2
    ⟨hne, (limit_unsigned rfl false).2 hlt, hpost, rfl⟩
  rw [hexOrBinary_hex, TextStream.readInteger_good _ _ hstart.1, hstart.2,
    scan_hexadecimal hne hall hpost, if_pos hread.2.1, hread.2.2, if_neg Bool.false_ne_true,
    wrap_of_unsigned]

/-- Nothing tests that a number was read at all, so only garbage behind one is found. -/
theorem hexOrBinary_hex_error_iff :
    hexOrBinary t ('0' :: 'x' :: r) = .error numberFormatException ↔ GarbageAfterNumber t r := by
  rw [hexOrBinary_hex, GarbageAfterNumber]
  by_cases hblank : Blank r
  · have hfail := restWhiteSpace_of_fail (TextStream.sentry_blank (s := .ofString r) hblank)
    rw [TextStream.readInteger_blank _ _ (s := .ofString r) hblank, if_pos hfail]
    constructor
    · intro h
      cases h
    · intro h
      exact (h.1 hblank).elim
  · rw [TextStream.readInteger_good _ _ hblank]
    obtain ⟨negative, digits, rest⟩ := TextStream.scan 16 (r.dropWhile isSpace)
    rw [TextStream.evaluate]
    by_cases hdigits : digits = []
    · rw [if_pos hdigits, if_pos (restWhiteSpace_of_fail rfl)]
      constructor
      · intro h
        cases h
      · intro h
        exact (h.2.1 hdigits).elim
    · rw [if_neg hdigits]
      have hlimit := limit_unsigned (t := t.unsigned) rfl negative (k := numberOf 16 digits)
      by_cases hover : (t.unsigned.limit negative : Int) < numberOf 16 digits
      · rw [if_pos hover, if_pos (restWhiteSpace_of_fail rfl)]
        constructor
        · intro h
          cases h
        · intro h
          have hle := hlimit.2 h.2.2.1
          omega
      · rw [if_neg hover]
        have hlt : numberOf 16 digits < 2 ^ t.width := hlimit.1 (by omega)
        dsimp only
        by_cases hrest : Blank rest
        · rw [if_pos ((restWhiteSpace_iff rest false).2 (.inl hrest))]
          constructor
          · intro h
            cases h
          · intro h
            exact (h.2.2.2 hrest).elim
        · have hgarbage : ¬ restWhiteSpace ⟨rest, rest.isEmpty, false⟩ = true := by
            intro h
            exact hrest (((restWhiteSpace_iff rest false).1 h).resolve_right Bool.false_ne_true)
          rw [if_neg hgarbage]
          exact ⟨fun _ => ⟨hblank, hdigits, hlt, hrest⟩, fun _ => rfl⟩

end Hexadecimals

section Results
variable {t : IntegerType} {s r : List Char} {f : List Char → Outcome Int}

theorem blank_eq_nil {l : List Char} (h : Blank l) (hs : ∀ c ∈ l, isSpace c = false) : l = [] := by
  cases l with
  | nil => rfl
  | cons c l =>
    have hc := hs c List.mem_cons_self
    rw [h c List.mem_cons_self] at hc
    cases hc

theorem hexadecimal_start (r : List Char) :
    ('0' :: 'x' :: r).takeWhile isSpace = [] ∧ 'x' ∈ firstToken ('0' :: 'x' :: r) :=
  ⟨rfl, List.mem_cons_of_mem _ List.mem_cons_self⟩

/-- The function tries a decimal number first. Only if the string denotes none, it takes the string
as it stands for a hexadecimal or binary one. -/
structure TriesFormats (t : IntegerType) (f : List Char → Outcome Int) (s : List Char) : Prop where
  decimal : ∀ v, Blank (afterToken s) → Decimal t (firstToken s) v → f s = .ok v
  other : (∀ v, Blank (afterToken s) → ¬ Decimal t (firstToken s) v) → f s = hexOrBinary t s

theorem TriesFormats.hexadecimal (hf : TriesFormats t f ('0' :: 'x' :: r)) :
    f ('0' :: 'x' :: r) = hexOrBinary t ('0' :: 'x' :: r) :=
  hf.other fun _ _ h => h.not_mem.1 (hexadecimal_start r).2

theorem wellPlaced_of_converts (hf : TriesFormats t f s) (h : Converts t f s) :
    WellPlaced t s := by
  constructor
  · rintro r rfl
    by_cases hden : ∃ v, Denotes t ('0' :: 'x' :: r) v
    · obtain ⟨v, hv⟩ := hden
      obtain ⟨hafter, hliteral⟩ := denotes_iff.1 hv
      obtain ⟨hpre, hmem⟩ := hexadecimal_start r
      have hsplit := takeWhile_firstToken_afterToken ('0' :: 'x' :: r)
      rw [hpre, List.nil_append] at hsplit
      rcases hliteral with hdec | hhex | hbin
      · exact (hdec.not_mem.1 hmem).elim
      · exact .inl ⟨_, _, v, hsplit.symm, hafter, hhex⟩
      · exact (hbin.mem.2 hmem).elim
    · have herror := h.2 fun v hv => hden ⟨v, hv⟩
      rw [hf.hexadecimal] at herror
      exact .inr (hexOrBinary_hex_error_iff.1 herror)
  · rintro pre core post v rfl hpre hpost
    have hread : Literal t core v → (∀ d, ¬ Decimal t core d) →
        hexOrBinary t (pre ++ core ++ post) = .ok v := by
      intro hliteral hnot
      obtain ⟨-, hfirst, -⟩ := tokens_of_literal hpre hpost hliteral
      have hok := h.1 v ⟨pre, core, post, rfl, hpre, hpost, hliteral⟩
      rwa [hf.other fun d _ hd => hnot d (hfirst ▸ hd)] at hok
    constructor
    · intro hhex
      have hok := hread (.inr (.inl hhex)) fun d hd => hd.not_mem.1 hhex.mem
      cases pre with
      | nil => rfl
      | cons c pre =>
        have hs : ∀ r, c :: pre ++ core ++ post ≠ '0' :: 'x' :: r := by
          intro r hr
          cases (List.cons.inj hr).1
          cases hpre '0' List.mem_cons_self
        have hbin := (hexOrBinary_ok_iff hs v).1 hok
        have hmem := List.mem_append_left post (List.mem_append_right (c :: pre) hhex.mem)
        exact (hbin.mem.2 hmem).elim
    · intro hbin
      have hok := hread (.inr (.inr hbin)) fun d hd => hd.not_mem.2 hbin.mem.1
      have hx : 'x' ∉ pre ++ core ++ post := by
        intro hmem
        rcases List.mem_append.1 hmem with hmem | hmem
        · rcases List.mem_append.1 hmem with hmem | hmem
          · cases hpre _ hmem
          · exact hbin.mem.2 hmem
        · cases hpost _ hmem
      have hs : ∀ r, pre ++ core ++ post ≠ '0' :: 'x' :: r := by
        intro r hr
        rw [hr] at hx
        exact hx (List.mem_cons_of_mem _ List.mem_cons_self)
      have hwhole : Literal t (pre ++ core ++ post) v :=
        .inr (.inr ((hexOrBinary_ok_iff hs v).1 hok))
      have hcore := hwhole.spaceless.2
      constructor
      · apply blank_eq_nil hpre
        exact fun c hc => hcore c (List.mem_append_left _ (List.mem_append_left _ hc))
      · apply blank_eq_nil hpost
        exact fun c hc => hcore c (List.mem_append_right _ hc)

theorem converts_of_wellPlaced (hf : TriesFormats t f s) (h : WellPlaced t s) :
    Converts t f s := by
  constructor
  · rintro v ⟨pre, core, post, rfl, hpre, hpost, hliteral⟩
    obtain ⟨-, hfirst, hafter⟩ := tokens_of_literal hpre hpost hliteral
    have hplaces := h.blanks pre core post v rfl hpre hpost
    rcases hliteral with hdec | hhex | hbin
    · exact hf.decimal v (hafter.symm ▸ hpost) (hfirst.symm ▸ hdec)
    · rw [hf.other fun d _ hd => (hfirst ▸ hd).not_mem.1 hhex.mem, hplaces.1 hhex]
      obtain ⟨digits, rfl, hne, hall, hlt, rfl⟩ := hhex
      exact hexOrBinary_hexadecimal hne hall hlt hpost
    · rw [hf.other fun d _ hd => (hfirst ▸ hd).not_mem.2 hbin.mem.1]
      obtain ⟨rfl, rfl⟩ := hplaces.2 hbin
      rw [List.nil_append, List.append_nil]
      apply (hexOrBinary_ok_iff ?_ v).2 hbin
      rintro r rfl
      exact hbin.mem.2 (List.mem_cons_of_mem _ List.mem_cons_self)
  · intro hnone
    have hnot : ∀ core post v, s = core ++ post → Blank post → ¬ Literal t core v := by
      intro core post v hs hpost hliteral
      exact hnone v ⟨[], core, post, hs, nofun, hpost, hliteral⟩
    rw [hf.other fun v hafter hdec => hnone v (denotes_iff.2 ⟨hafter, .inl hdec⟩)]
    by_cases hstart : ∃ r, s = '0' :: 'x' :: r
    · obtain ⟨r, rfl⟩ := hstart
      apply hexOrBinary_hex_error_iff.2
      apply (h.hexadecimal r rfl).resolve_left
      rintro ⟨core, post, v, hs, hpost, hhex⟩
      exact hnot core post v hs hpost (.inr (.inl hhex))
    · cases hcall : hexOrBinary t s with
      | ok v =>
        have hbin := (hexOrBinary_ok_iff (fun r hr => hstart ⟨r, hr⟩) v).1 hcall
        exact (hnot s [] v (List.append_nil s).symm nofun (.inr (.inr hbin))).elim
      | error e => rw [hexOrBinary_error hcall]

theorem TriesFormats.converts (hf : TriesFormats t f s) : Converts t f s ↔ WellPlaced t s :=
  ⟨wellPlaced_of_converts hf, converts_of_wellPlaced hf⟩

theorem toSigned_triesFormats (ht : t.signed = true) (hw : 0 < t.width) (s : List Char) :
    TriesFormats t (toSigned t) s := by
  constructor
  · intro v hafter hdec
    exact toSigned_of_convert ((convert_ok_iff v).2 ⟨hafter, (decimal_signed_iff ht hw).1 hdec⟩)
  · intro hnot
    apply toSigned_of_not_convert
    intro v hv
    obtain ⟨hafter, hdec⟩ := (convert_ok_iff v).1 hv
    exact hnot v hafter ((decimal_signed_iff ht hw).2 hdec)

/-- Hexadecimal and binary numbers do not start with a sign. -/
theorem hexOrBinary_minus (hminus : (firstToken s).head? = some '-') :
    hexOrBinary t s = .error numberFormatException := by
  have hs : ∀ r, s ≠ '0' :: 'x' :: r := by
    rintro r rfl
    cases hminus
  cases hcall : hexOrBinary t s with
  | ok v =>
    have hbin := (hexOrBinary_ok_iff hs v).1 hcall
    have hliteral : Literal t s v := .inr (.inr hbin)
    have hblank : Blank [] := nofun
    obtain ⟨-, hfirst, -⟩ := tokens_of_literal hblank hblank hliteral
    rw [List.nil_append, List.append_nil] at hfirst
    rw [hfirst] at hminus
    obtain ⟨digits, rfl, hne, hall, -⟩ := hbin
    cases digits with
    | nil => exact (hne rfl).elim
    | cons c l =>
      cases hminus
      cases hall '-' List.mem_cons_self
  | error e => rw [hexOrBinary_error hcall]

theorem toUnsigned_triesFormats (ht : t.signed = false) (s : List Char) :
    TriesFormats t (toUnsigned t) s := by
  constructor
  · intro v hafter hdec
    obtain ⟨hread, hhead⟩ := (decimal_unsigned_iff ht).1 hdec
    rw [toUnsigned_eq, toSigned_of_convert ((convert_ok_iff v).2 ⟨hafter, hread⟩)]
    exact if_neg hhead
  · intro hnot
    rw [toUnsigned_eq]
    by_cases hminus : (firstToken s).head? = some '-'
    · rw [hexOrBinary_minus hminus]
      cases hcall : toSigned t s with
      | ok v => exact if_pos hminus
      | error e =>
        have he : e = numberFormatException := by
          rw [toSigned] at hcall
          split at hcall
          · exact hexOrBinary_error hcall
          · exact convert_error hcall
        rw [he]
        rfl
    · have hdec : ∀ v, convert t s ≠ .ok v := by
        intro v hv
        obtain ⟨hafter, hread⟩ := (convert_ok_iff v).1 hv
        exact hnot v hafter ((decimal_unsigned_iff ht).2 ⟨hread, hminus⟩)
      rw [toSigned_of_not_convert hdec]
      cases hexOrBinary t s with
      | ok v => exact if_neg hminus
      | error e => rfl

theorem not_denotes_prefix (v : Int) : ¬ Denotes t ['0', 'x'] v := by
  intro h
  rcases (denotes_iff.1 h).2 with hdec | ⟨digits, he, hne, -⟩ | hbin
  · exact hdec.not_mem.1 (List.mem_cons_of_mem _ List.mem_cons_self)
  · cases he
    exact hne rfl
  · exact hbin.mem.2 (List.mem_cons_of_mem _ List.mem_cons_self)

end Results
end Conversion
end OpenAsip
