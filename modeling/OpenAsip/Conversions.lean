import OpenAsip.TextStreams

namespace OpenAsip
set_option autoImplicit true

namespace Conversion

def numberFormatException : Fault := .exception .numberFormat

def restWhiteSpace (str : TextStream) : Bool := str.readToken.2.fail

/-- The second half of `Conversion::convert`, for an integer type. -/
def convertToken (t : IntegerType) (firstToken : List Char) : Outcome Int :=
  let stream := TextStream.ofString firstToken
  if stream.peek.any (fun c => isDigit 10 c || c = '-') then
    let read := stream.readInteger t 10 0
    if read.2.fail then .error numberFormatException
    else if restWhiteSpace read.2 then .ok read.1
    else .error numberFormatException
  else .error numberFormatException

def convert (t : IntegerType) (source : List Char) : Outcome Int :=
  let (firstToken, tempStream) := (TextStream.ofString source).readToken
  if tempStream.fail then .error numberFormatException
  else if restWhiteSpace tempStream then convertToken t firstToken
  else .error numberFormatException

/-- The loop over the digits of a binary number. -/
def binaryLoop (t : IntegerType) : List Char → Int → Outcome Int
  | [], number => .ok number
  | c :: l, number =>
    if c = '0' then binaryLoop t l (t.wrap (2 * number))
    else if c = '1' then binaryLoop t l (t.wrap (2 * number + 1))
    else .error numberFormatException

/-- The formats that are tried when the string is no decimal number. -/
def hexOrBinary (t : IntegerType) (source : List Char) : Outcome Int :=
  let hexStream := TextStream.ofString source
  let (first, hexStream) := hexStream.get
  let (second, hexStream) := hexStream.get
  if first = some '0' ∧ second = some 'x' then
    let read := hexStream.readInteger t.unsigned 16 0
    if restWhiteSpace read.2 then .ok (t.wrap read.1) else .error numberFormatException
  else if 1 < source.length ∧ source.getLast? = some 'b' then
    if t.width < source.length - 1 then .error numberFormatException
    else binaryLoop t source.dropLast 0
  else .error numberFormatException

def toSigned (t : IntegerType) (source : List Char) : Outcome Int :=
  match convert t source with
  | .error (.exception .numberFormat) => hexOrBinary t source
  | r => r

def toUnsigned (t : IntegerType) (source : List Char) : Outcome Int := do
  let theUnsigned ← toSigned t source
  let (firstToken, _) := (TextStream.ofString source).readToken
  if firstToken.head? = some '-' then .error numberFormatException else .ok theUnsigned

def int : IntegerType := ⟨true, 32⟩

def sLongWord : IntegerType := ⟨true, 64⟩

def unsignedInt : IntegerType := ⟨false, 32⟩

def uLongWord : IntegerType := ⟨false, 64⟩

def toInt (source : List Char) : Outcome Int := toSigned int source

def toLong (source : List Char) : Outcome Int := toSigned sLongWord source

def toUnsignedInt (source : List Char) : Outcome Int := toUnsigned unsignedInt source

def toUnsignedLong (source : List Char) : Outcome Int := toUnsigned uLongWord source

section Tokens
variable {t : IntegerType} {s : List Char}

theorem restWhiteSpace_iff (rest : List Char) (fail : Bool) :
    restWhiteSpace ⟨rest, rest.isEmpty, fail⟩ = true ↔ Blank rest ∨ fail = true :=
  TextStream.fail_readToken rest fail

theorem convert_eq (t : IntegerType) (s : List Char) :
    convert t s = if ¬ Blank s ∧ Blank (afterToken s) then convertToken t (firstToken s)
      else .error numberFormatException := by
  rw [convert]
  by_cases hblank : Blank s
  · have hfail : (TextStream.ofString s).readToken.2.fail = true := by
      rw [TextStream.readToken, if_pos (TextStream.sentry_blank hblank)]
      exact TextStream.sentry_blank hblank
    rw [if_neg fun h => h.1 hblank]
    exact if_pos hfail
  · rw [TextStream.readToken_good hblank]
    change (if restWhiteSpace _ = true then convertToken t (firstToken s) else _) = _
    refine if_congr ?_ rfl rfl
    rw [restWhiteSpace_iff]
    exact ⟨fun h => ⟨hblank, h.resolve_right Bool.false_ne_true⟩, fun h => .inl h.2⟩

theorem restWhiteSpace_of_fail {str : TextStream} (h : str.fail = true) :
    restWhiteSpace str = true := by
  rw [restWhiteSpace, TextStream.readToken, if_pos (TextStream.sentry_bad h)]
  exact TextStream.sentry_bad h

theorem not_blank_of_spaceless {core : List Char} (hne : core ≠ [])
    (hcore : ∀ c ∈ core, isSpace c = false) :
    ¬ Blank core ∧ core.dropWhile isSpace = core := by
  cases core with
  | nil => exact (hne rfl).elim
  | cons c core =>
    have hc := hcore c List.mem_cons_self
    refine ⟨fun h => ?_, ?_⟩
    · rw [h c List.mem_cons_self] at hc
      cases hc
    · rw [List.dropWhile_cons, hc, if_neg Bool.false_ne_true]

/-- A scanned number that is read without failure, with nothing but white space after it. -/
theorem evaluate_ok_iff (t : IntegerType) (base : Nat) (negative : Bool) (digits rest : List Char)
    (v : Int) :
    ((TextStream.evaluate t base (negative, digits, rest)).2.fail = false ∧
      restWhiteSpace (TextStream.evaluate t base (negative, digits, rest)).2 = true ∧
      (TextStream.evaluate t base (negative, digits, rest)).1 = v) ↔
      digits ≠ [] ∧ numberOf base digits ≤ t.limit negative ∧ Blank rest ∧
        v = t.wrap (if negative then -(numberOf base digits : Int) else numberOf base digits) := by
  rw [TextStream.evaluate]
  by_cases hdigits : digits = []
  · rw [if_pos hdigits]
    exact ⟨fun h => Bool.noConfusion h.1, fun h => (h.1 hdigits).elim⟩
  · rw [if_neg hdigits]
    by_cases hlimit : (t.limit negative : Int) < numberOf base digits
    · rw [if_pos hlimit]
      exact ⟨fun h => Bool.noConfusion h.1, fun h => by omega⟩
    · rw [if_neg hlimit, restWhiteSpace_iff]
      constructor
      · rintro ⟨-, hblank, rfl⟩
        exact ⟨hdigits, by omega, hblank.resolve_right Bool.false_ne_true, rfl⟩
      · rintro ⟨-, -, hblank, rfl⟩
        exact ⟨rfl, .inl hblank, rfl⟩

/-- A decimal number as it is read: an unsigned type negates it. -/
def DecimalRead (t : IntegerType) (core : List Char) (v : Int) : Prop :=
  ∃ (negative : Bool) (digits : List Char), core = (if negative then ['-'] else []) ++ digits ∧
    digits ≠ [] ∧ (∀ c ∈ digits, isDigit 10 c = true) ∧
    numberOf 10 digits ≤ t.limit negative ∧
    v = t.wrap (if negative then -(numberOf 10 digits : Int) else numberOf 10 digits)

theorem not_isDigit_minus (base : Nat) : isDigit base '-' = false := rfl

theorem not_isDigit_plus (base : Nat) : isDigit base '+' = false := rfl

theorem readPrefix_decimal (l : List Char) : TextStream.readPrefix 10 l = l := by
  cases l with
  | nil => rfl
  | cons c l => cases l with
    | nil => rfl
    | cons x l =>
      rw [TextStream.readPrefix, if_neg]
      exact fun h => absurd h.1 (by decide)

theorem readSign_of_ne {l : List Char} (hminus : l.head? ≠ some '-') (hplus : l.head? ≠ some '+') :
    TextStream.readSign l = (false, l) := by
  cases l with
  | nil => rfl
  | cons c l =>
    rw [TextStream.readSign, if_neg fun h => hminus (congrArg some h),
      if_neg fun h => hplus (congrArg some h)]

theorem readSign_digit {base : Nat} {c : Char} (hc : isDigit base c = true) (l : List Char) :
    TextStream.readSign (c :: l) = (false, c :: l) := by
  apply readSign_of_ne
  · intro h
    rw [Option.some.inj h] at hc
    cases hc
  · intro h
    rw [Option.some.inj h] at hc
    cases hc

theorem scan_decimal {core : List Char}
    (hpeek : core.head?.any (fun c => isDigit 10 c || c = '-') = true) :
    ∃ (negative : Bool) (body : List Char), core = (if negative then ['-'] else []) ++ body ∧
      TextStream.scan 10 core =
        (negative, body.takeWhile (isDigit 10), body.dropWhile (isDigit 10)) := by
  cases core with
  | nil => cases hpeek
  | cons c l =>
    by_cases hminus : c = '-'
    · subst hminus
      refine ⟨true, l, rfl, ?_⟩
      rw [TextStream.scan, TextStream.readSign, if_pos rfl]
      dsimp only
      rw [readPrefix_decimal]
    · have hc : isDigit 10 c = true := by
        have hor : (isDigit 10 c || decide (c = '-')) = true := hpeek
        rwa [decide_eq_false hminus, Bool.or_false] at hor
      refine ⟨false, c :: l, rfl, ?_⟩
      rw [TextStream.scan, readSign_digit hc]
      dsimp only
      rw [readPrefix_decimal]

theorem scan_digits {negative : Bool} {digits : List Char} (hdigits : digits ≠ [])
    (hall : ∀ c ∈ digits, isDigit 10 c = true) :
    TextStream.scan 10 ((if negative then ['-'] else []) ++ digits) = (negative, digits, []) := by
  have hsign : TextStream.readSign ((if negative then ['-'] else []) ++ digits) =
      (negative, digits) := by
    cases negative with
    | true => rfl
    | false =>
      cases digits with
      | nil => exact (hdigits rfl).elim
      | cons c l => exact readSign_digit (hall c List.mem_cons_self) l
  rw [TextStream.scan, hsign]
  dsimp only
  rw [readPrefix_decimal, List.takeWhile_eq_self_iff.2 hall, List.dropWhile_eq_nil_iff.2 hall]

theorem convertToken_ok_iff {core : List Char} (hne : core ≠ [])
    (hcore : ∀ c ∈ core, isSpace c = false) (v : Int) :
    convertToken t core = .ok v ↔ DecimalRead t core v := by
  obtain ⟨hblank, hdrop⟩ := not_blank_of_spaceless hne hcore
  have hread := TextStream.readInteger_good t 10 hblank 0
  rw [hdrop] at hread
  have hcall : convertToken t core = .ok v ↔
      core.head?.any (fun c => isDigit 10 c || c = '-') = true ∧
      (TextStream.evaluate t 10 (TextStream.scan 10 core)).2.fail = false ∧
      restWhiteSpace (TextStream.evaluate t 10 (TextStream.scan 10 core)).2 = true ∧
      (TextStream.evaluate t 10 (TextStream.scan 10 core)).1 = v := by
    rw [convertToken, hread]
    change (if core.head?.any (fun c => isDigit 10 c || c = '-') = true then _ else _) = _ ↔ _
    by_cases hpeek : core.head?.any (fun c => isDigit 10 c || c = '-') = true
    · rw [if_pos hpeek]
      dsimp only
      by_cases hfail : (TextStream.evaluate t 10 (TextStream.scan 10 core)).2.fail = true
      · rw [if_pos hfail, hfail]
        exact ⟨nofun, fun h => Bool.noConfusion h.2.1⟩
      · rw [if_neg hfail]
        by_cases hrest :
            restWhiteSpace (TextStream.evaluate t 10 (TextStream.scan 10 core)).2 = true
        · rw [if_pos hrest]
          exact ⟨fun h => ⟨hpeek, eq_false_of_ne_true hfail, hrest, Except.ok.inj h⟩,
            fun h => congrArg _ h.2.2.2⟩
        · rw [if_neg hrest]
          exact ⟨nofun, fun h => (hrest h.2.2.1).elim⟩
    · rw [if_neg hpeek]
      exact ⟨nofun, fun h => (hpeek h.1).elim⟩
  rw [hcall]
  constructor
  · rintro ⟨hpeek, hok⟩
    obtain ⟨negative, body, rfl, hscan⟩ := scan_decimal hpeek
    rw [hscan, evaluate_ok_iff] at hok
    obtain ⟨hdigits, hlimit, hrest, rfl⟩ := hok
    have hend : body.dropWhile (isDigit 10) = [] := by
      cases hdrop : body.dropWhile (isDigit 10) with
      | nil => rfl
      | cons c l =>
        rw [hdrop] at hrest
        have hmem : c ∈ body := (List.dropWhile_suffix (isDigit 10)).subset
          (hdrop ▸ List.mem_cons_self)
        have hspace := hcore c (List.mem_append_right _ hmem)
        rw [hrest c List.mem_cons_self] at hspace
        cases hspace
    have hbody : body.takeWhile (isDigit 10) = body :=
      List.takeWhile_eq_self_iff.2 (List.dropWhile_eq_nil_iff.1 hend)
    rw [hbody] at hdigits hlimit ⊢
    exact ⟨negative, body, rfl, hdigits, List.dropWhile_eq_nil_iff.1 hend, hlimit, rfl⟩
  · rintro ⟨negative, digits, rfl, hdigits, hall, hlimit, rfl⟩
    have hhead : ∃ c l, digits = c :: l ∧ isDigit 10 c = true := by
      cases digits with
      | nil => exact (hdigits rfl).elim
      | cons c l => exact ⟨c, l, rfl, hall c List.mem_cons_self⟩
    obtain ⟨c, l, hcons, hc⟩ := hhead
    have hpeek : ((if negative then ['-'] else []) ++ digits).head?.any
        (fun c => isDigit 10 c || c = '-') = true := by
      cases negative with
      | true => rfl
      | false =>
        rw [hcons]
        change (isDigit 10 c || _) = true
        rw [hc, Bool.true_or]
    refine ⟨hpeek, ?_⟩
    rw [scan_digits hdigits hall, evaluate_ok_iff]
    exact ⟨hdigits, hlimit, nofun, rfl⟩

theorem convertToken_error {core : List Char} {f : Fault} (h : convertToken t core = .error f) :
    f = numberFormatException := by
  rw [convertToken] at h
  dsimp only at h
  split at h
  · split at h
    · exact (Except.error.inj h).symm
    · split at h
      · cases h
      · exact (Except.error.inj h).symm
  · exact (Except.error.inj h).symm

theorem convert_error {f : Fault} (h : convert t s = .error f) : f = numberFormatException := by
  rw [convert_eq] at h
  split at h
  · exact convertToken_error h
  · exact (Except.error.inj h).symm

theorem firstToken_spaceless (s : List Char) : ∀ c ∈ firstToken s, isSpace c = false := by
  intro c hc
  have h := List.mem_takeWhile_imp hc
  rwa [Bool.not_eq_true'] at h

theorem firstToken_ne_nil (h : ¬ Blank s) : firstToken s ≠ [] := by
  rw [blank_iff] at h
  rw [firstToken]
  cases hdrop : s.dropWhile isSpace with
  | nil => exact (h hdrop).elim
  | cons c l =>
    have hc : isSpace c = false := head?_dropWhile s c (by rw [hdrop]; rfl)
    rw [List.takeWhile_cons, hc]
    exact List.cons_ne_nil c _

/-- A decimal number is a word between white space. -/
theorem convert_ok_iff (v : Int) :
    convert t s = .ok v ↔ Blank (afterToken s) ∧ DecimalRead t (firstToken s) v := by
  rw [convert_eq]
  by_cases hblank : Blank s
  · rw [if_neg fun h => h.1 hblank]
    refine ⟨nofun, fun h => ?_⟩
    obtain ⟨-, negative, digits, he, hdigits, -⟩ := h
    have hnil : firstToken s = [] := by
      rw [firstToken, blank_iff.1 hblank]
      rfl
    rw [hnil] at he
    exact (hdigits (List.append_eq_nil_iff.1 he.symm).2).elim
  · by_cases hafter : Blank (afterToken s)
    · rw [if_pos ⟨hblank, hafter⟩,
        convertToken_ok_iff (firstToken_ne_nil hblank) (firstToken_spaceless s)]
      exact ⟨fun h => ⟨hafter, h⟩, And.right⟩
    · rw [if_neg fun h => hafter h.2]
      exact ⟨nofun, fun h => (hafter h.1).elim⟩

theorem toSigned_of_convert {v : Int} (h : convert t s = .ok v) : toSigned t s = .ok v := by
  rw [toSigned, h]

theorem toSigned_of_not_convert (h : ∀ v, convert t s ≠ .ok v) :
    toSigned t s = hexOrBinary t s := by
  cases hc : convert t s with
  | ok v => exact (h v hc).elim
  | error f =>
    obtain rfl := convert_error hc
    rw [toSigned, hc]
    rfl

/-- The sign is looked for in the first word. -/
theorem toUnsigned_eq (t : IntegerType) (s : List Char) :
    toUnsigned t s = toSigned t s >>= fun v =>
      if (firstToken s).head? = some '-' then .error numberFormatException else .ok v := by
  have htoken : (TextStream.ofString s).readToken.1 = firstToken s := by
    by_cases hblank : Blank s
    · rw [TextStream.readToken, if_pos (TextStream.sentry_blank hblank), firstToken,
        blank_iff.1 hblank]
      rfl
    · rw [TextStream.readToken_good hblank]
  rw [toUnsigned]
  change (toSigned t s >>= fun v =>
    if (TextStream.ofString s).readToken.1.head? = some '-' then _ else _) = _
  rw [htoken]

theorem hexOrBinary_hex (t : IntegerType) (r : List Char) :
    hexOrBinary t ('0' :: 'x' :: r) =
      if restWhiteSpace ((TextStream.ofString r).readInteger t.unsigned 16 0).2 then
        .ok (t.wrap ((TextStream.ofString r).readInteger t.unsigned 16 0).1)
      else .error numberFormatException := rfl

theorem hexOrBinary_other (hs : ∀ r, s ≠ '0' :: 'x' :: r) :
    hexOrBinary t s =
      if 1 < s.length ∧ s.getLast? = some 'b' then
        if t.width < s.length - 1 then .error numberFormatException
        else binaryLoop t s.dropLast 0
      else .error numberFormatException := by
  rw [hexOrBinary]
  cases s with
  | nil => rfl
  | cons c l => cases l with
    | nil =>
      change (if some c = some '0' ∧ none = some 'x' then _ else _) = _
      rw [if_neg fun h => nomatch h.2]
    | cons x l =>
      change (if some c = some '0' ∧ some x = some 'x' then _ else _) = _
      rw [if_neg]
      rintro ⟨h0, hx⟩
      cases h0
      cases hx
      exact hs l rfl

end Tokens
end Conversion
end OpenAsip
