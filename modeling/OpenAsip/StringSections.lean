import Mathlib.Algebra.Order.Ring.Int
import OpenAsip.Outcomes

namespace OpenAsip
set_option autoImplicit true

namespace Tpef

/-- The bytes of a string section. A chunk is known by its offset. -/
structure StringSection where
  data : List UInt8
deriving DecidableEq, Repr

namespace StringSection

/-- The size as a `Word`. -/
def length (s : StringSection) : Nat := s.data.length % 2 ^ 32

def byte (s : StringSection) (offset : Nat) : Outcome UInt8 :=
  match s.data[offset]? with
  | some b => .ok b
  | none => .error .undefined

/-- `RawSection::chunk`, which throws a `NotChunkable`. -/
def chunk (s : StringSection) (offset : Nat) : Outcome Nat :=
  if offset ≥ s.length then .error (.exception .general) else .ok offset

/-- The loop of `chunk2String` over the bytes from the offset on. -/
def readString (length : Nat) : List UInt8 → Nat → Outcome (List UInt8)
  | [], _ => .error .undefined
  | b :: rest, offset =>
    if b = 0 then .ok []
    else if offset = (length + (2 ^ 32 - 1)) % 2 ^ 32 then .error (.exception .invalidData)
    else do
      let result ← readString length rest (offset + 1)
      .ok (b :: result)

def chunk2String (s : StringSection) (offset : Nat) : Outcome (List UInt8) :=
  if offset ≤ s.length then readString s.length (s.data.drop offset) offset
  else .error .assertion

/-- `str.c_str()[k]`. A `char` is signed. -/
def charAt (str : List UInt8) (k : Nat) : Int := ((str.getD k 0).toBitVec).toInt

/-- The loop that compares backwards. The byte of the section is not signed. -/
def matchLoop (s : StringSection) (str : List UInt8) (i : Nat) : Nat → Outcome Bool
  | 0 => .ok true
  | charsToMatch + 1 => do
    let b ← s.byte (i + charsToMatch)
    if (b.toNat : Int) ≠ charAt str charsToMatch then .ok false
    else matchLoop s str i charsToMatch

/-- The loop over the positions with the number of those that are left. -/
def find (s : StringSection) (str : List UInt8) : Nat → Nat → Outcome (Option Nat)
  | 0, _ => .ok none
  | n + 1, i => do
    let found ← matchLoop s str i ((str.length + 1) % 2 ^ 32)
    if found then .ok (some i) else find s str n (i + 1)

/-- The bound of the positions, a difference of two `int`s. -/
def searchBound (s : StringSection) (str : List UInt8) : Outcome Int :=
  let bound := (BitVec.ofNat 32 s.length).toInt - (BitVec.ofNat 32 str.length).toInt
  if -2 ^ 31 ≤ bound ∧ bound < 2 ^ 31 then .ok bound else .error .undefined

/-- The needed first byte. -/
def withFirst (s : StringSection) : StringSection := if s.length = 0 then ⟨s.data ++ [0]⟩ else s

def string2Chunk (s : StringSection) (str : List UInt8) : Outcome (StringSection × Nat) := do
  let s := s.withFirst
  let bound ← s.searchBound str
  match ← s.find str bound.toNat 0 with
  | some i =>
    let c ← s.chunk i
    .ok (s, c)
  | none =>
    let added : StringSection := ⟨s.data ++ str ++ [0]⟩
    let c ← added.chunk s.length
    .ok (added, c)

section Reading
variable {s : StringSection} {str : List UInt8}

/-- From the offset on, the section has the string and a zero. -/
def Denotes (s : StringSection) (offset : Nat) (str : List UInt8) : Prop :=
  ∃ rest, s.data.drop offset = str ++ 0 :: rest

theorem Denotes.lt (h : s.Denotes offset str) : offset + str.length < s.data.length := by
  obtain ⟨rest, hrest⟩ := h
  have hlen := congrArg List.length hrest
  rw [List.length_drop, List.length_append, List.length_cons] at hlen
  omega

/-- What is added behind the strings does not change them. -/
theorem Denotes.append (h : s.Denotes offset str) (more : List UInt8) :
    Denotes ⟨s.data ++ more⟩ offset str := by
  have hlt := h.lt
  obtain ⟨rest, hrest⟩ := h
  refine ⟨rest ++ more, ?_⟩
  rw [List.drop_append_of_le_length (by omega), hrest, List.append_assoc, List.cons_append]

theorem denotes_added (s : StringSection) (str : List UInt8) :
    Denotes ⟨s.data ++ str ++ [0]⟩ s.data.length str :=
  ⟨[], by rw [List.append_assoc, List.drop_left]⟩

theorem readString_ok {length : Nat} (hstr : 0 ∉ str) (h : offset + str.length < length)
    (hlen : length < 2 ^ 32) :
    readString length (str ++ 0 :: rest) offset = .ok str := by
  induction str generalizing offset with
  | nil => rw [List.nil_append, readString, if_pos rfl]
  | cons b str ih =>
    rw [List.length_cons] at h
    have hb : b ≠ 0 := fun hb => hstr (hb ▸ List.mem_cons_self)
    have hrest : readString length (str ++ 0 :: rest) (offset + 1) = .ok str :=
      ih (fun hmem => hstr (List.mem_cons_of_mem b hmem)) (by omega)
    rw [List.cons_append, readString, if_neg hb, if_neg (by omega), Except.bind_of_ok hrest]

theorem of_readString_ok {length : Nat} {l str : List UInt8}
    (h : readString length l offset = .ok str) : ∃ rest, l = str ++ 0 :: rest := by
  induction l generalizing offset str with
  | nil => cases h
  | cons b l ih =>
    rw [readString] at h
    split at h
    · rename_i hb
      cases h
      exact ⟨l, by rw [hb, List.nil_append]⟩
    · split at h
      · cases h
      · obtain ⟨result, hresult, h⟩ := Except.bind_ok h
        cases h
        obtain ⟨rest, rfl⟩ := ih hresult
        exact ⟨rest, rfl⟩

theorem chunk2String_ok (hlen : s.data.length < 2 ^ 32) (hstr : 0 ∉ str)
    (h : s.Denotes offset str) : s.chunk2String offset = .ok str := by
  have hlt := h.lt
  obtain ⟨rest, hrest⟩ := h
  have hlength : s.length = s.data.length := Nat.mod_eq_of_lt hlen
  rw [chunk2String, hlength, if_pos (by omega), hrest]
  exact readString_ok hstr hlt hlen

theorem denotes_of_chunk2String (h : s.chunk2String offset = .ok str) : s.Denotes offset str := by
  rw [chunk2String] at h
  split at h
  · exact of_readString_ok h
  · cases h

end Reading

section Search
variable {s : StringSection} {str : List UInt8}

theorem charAt_eq (str : List UInt8) (k : Nat) :
    charAt str k = if (str.getD k 0).toNat < 128 then ((str.getD k 0).toNat : Int)
      else ((str.getD k 0).toNat : Int) - 256 := by
  rw [charAt, BitVec.toInt_eq_toNat_cond]
  change (if 2 * (str.getD k 0).toNat < 256 then _ else _) = _
  split <;> split <;> first | rfl | omega

/-- A byte equals a character only when that is not negative. -/
theorem toNat_eq_charAt {b : UInt8} :
    (b.toNat : Int) = charAt str k ↔ b = str.getD k 0 ∧ b.toNat < 128 := by
  rw [charAt_eq, ← UInt8.toNat_inj]
  have := (str.getD k 0).toNat_lt
  split <;> omega

theorem byte_ok {b : UInt8} (h : s.data[i]? = some b) : s.byte i = .ok b := by
  rw [byte, h]

theorem matchLoop_ok (h : i + n ≤ s.data.length) :
    ∃ found, s.matchLoop str i n = .ok found ∧
      (found = true ↔ ∀ k < n, ∃ b, s.data[i + k]? = some b ∧ (b.toNat : Int) = charAt str k) := by
  induction n with
  | zero => exact ⟨true, rfl, fun _ k hk => absurd hk (Nat.not_lt_zero k), fun _ => rfl⟩
  | succ n ih =>
    obtain ⟨found, hfound, hiff⟩ := ih (by omega)
    have hget := List.getElem?_eq_getElem (l := s.data) (i := i + n) (by omega)
    generalize s.data[i + n] = b at hget
    rw [matchLoop, Except.bind_of_ok (byte_ok hget)]
    split
    · rename_i hne
      refine ⟨false, rfl, fun hf => absurd hf (by decide), fun hall => ?_⟩
      obtain ⟨c, hc, heq⟩ := hall n (Nat.lt_succ_self n)
      cases hget.symm.trans hc
      exact absurd heq hne
    · rename_i heq
      refine ⟨found, hfound, hiff.trans ⟨fun hall k hk => ?_, fun hall k hk => hall k (by omega)⟩⟩
      rcases Nat.lt_succ_iff_lt_or_eq.1 hk with hlt | rfl
      · exact hall k hlt
      · exact ⟨b, hget, not_not.1 heq⟩

/-- The characters of `c_str()`. -/
theorem getElem?_cstr (hk : k ≤ str.length) (rest : List UInt8) :
    (str ++ 0 :: rest)[k]? = some (str.getD k 0) := by
  rw [List.getD_eq_getElem?_getD]
  rcases Nat.lt_or_eq_of_le hk with hlt | rfl
  · rw [List.getElem?_append_left hlt, List.getElem?_eq_getElem hlt, Option.getD_some]
  · rw [List.getElem?_append_right (Nat.le_refl _), Nat.sub_self, List.getElem?_cons_zero,
      List.getElem?_eq_none (Nat.le_refl _), Option.getD_none]

theorem getD_lt_iff : (∀ k < str.length + 1, (str.getD k 0).toNat < 128) ↔
    ∀ b ∈ str, b.toNat < 128 := by
  constructor
  · intro hall b hb
    obtain ⟨k, hk, rfl⟩ := List.getElem_of_mem hb
    have h := hall k (by omega)
    rwa [List.getD_eq_getElem?_getD, List.getElem?_eq_getElem hk, Option.getD_some] at h
  · intro hall k hk
    have hmem := List.mem_of_getElem? (getElem?_cstr (Nat.le_of_lt_succ hk) [])
    rcases List.mem_append.1 hmem with hb | hb
    · exact hall _ hb
    · rw [List.mem_singleton.1 hb]
      decide

/-- The positions that match have the string and a zero, and no negative characters. -/
theorem matches_iff :
    (∀ k < str.length + 1, ∃ b, s.data[i + k]? = some b ∧ (b.toNat : Int) = charAt str k) ↔
      s.Denotes i str ∧ ∀ b ∈ str, b.toNat < 128 := by
  rw [← getD_lt_iff]
  constructor
  · intro hall
    have heq : (s.data.drop i).take (str.length + 1) = str ++ [0] := by
      apply List.ext_getElem?
      intro k
      rw [List.getElem?_take]
      split
      · rename_i hk
        obtain ⟨b, hb, hchar⟩ := hall k hk
        rw [List.getElem?_drop, hb, (toNat_eq_charAt.1 hchar).1, getElem?_cstr (by omega)]
      · rename_i hk
        rw [List.getElem?_eq_none]
        rw [List.length_append, List.length_singleton]
        omega
    constructor
    · refine ⟨(s.data.drop i).drop (str.length + 1), ?_⟩
      have hsplit := List.take_append_drop (str.length + 1) (s.data.drop i)
      rw [heq, List.append_assoc] at hsplit
      exact hsplit.symm
    · intro k hk
      obtain ⟨b, _, hchar⟩ := hall k hk
      obtain ⟨rfl, hlt⟩ := toNat_eq_charAt.1 hchar
      exact hlt
  · rintro ⟨⟨rest, hrest⟩, hall⟩ k hk
    refine ⟨str.getD k 0, ?_, toNat_eq_charAt.2 ⟨rfl, hall k hk⟩⟩
    rw [← List.getElem?_drop, hrest, getElem?_cstr (by omega)]

theorem matchLoop_iff (h : i + str.length < s.data.length) (hlen : str.length + 1 < 2 ^ 32) :
    ∃ found, s.matchLoop str i ((str.length + 1) % 2 ^ 32) = .ok found ∧
      (found = true ↔ s.Denotes i str ∧ ∀ b ∈ str, b.toNat < 128) := by
  rw [Nat.mod_eq_of_lt hlen]
  obtain ⟨found, hfound, hiff⟩ := @matchLoop_ok s str i (str.length + 1) (by omega)
  exact ⟨found, hfound, hiff.trans matches_iff⟩

/-- The search goes through and finds a position if there is one to be found. -/
theorem find_ok (h : i + n + str.length ≤ s.data.length) (hlen : str.length + 1 < 2 ^ 32) :
    ∃ r, s.find str n i = .ok r ∧ (∀ j, r = some j → s.Denotes j str) ∧
      (r = none → ∀ j, i ≤ j → j < i + n → s.Denotes j str → ∃ b ∈ str, ¬ b.toNat < 128) := by
  induction n generalizing i with
  | zero =>
    refine ⟨none, rfl, ?_, fun _ j hj hj' => by omega⟩
    intro j hj
    cases hj
  | succ n ih =>
    obtain ⟨found, hfound, hiff⟩ := @matchLoop_iff s str i (by omega) hlen
    rw [find, Except.bind_of_ok hfound]
    cases found with
    | true =>
      refine ⟨some i, rfl, fun j hj => ?_, fun hnone => by cases hnone⟩
      cases hj
      exact (hiff.1 rfl).1
    | false =>
      obtain ⟨r, hr, hsome, hnone⟩ := ih (i := i + 1) (by omega)
      refine ⟨r, hr, hsome, fun hr' j hj hj' hdenotes => ?_⟩
      by_cases hji : j = i
      · subst hji
        have hno : ¬ ∀ b ∈ str, b.toNat < 128 := fun hall =>
          absurd (hiff.2 ⟨hdenotes, hall⟩) (by decide)
        push Not at hno
        obtain ⟨b, hb, hge⟩ := hno
        exact ⟨b, hb, Nat.not_lt.2 hge⟩
      · exact hnone hr' j (by omega) (by omega) hdenotes

end Search

section Adding
variable {s : StringSection} {str : List UInt8}

theorem searchBound_ok (hs : s.data.length < 2 ^ 31) (hstr : str.length < 2 ^ 31) :
    s.searchBound str = .ok ((s.data.length : Int) - str.length) := by
  have hint {n : Nat} (h : n < 2 ^ 31) : (BitVec.ofNat 32 n).toInt = n := by
    rw [BitVec.toInt_ofNat', Int.bmod_def]
    omega
  rw [searchBound, length, Nat.mod_eq_of_lt (by omega), hint hs, hint hstr]
  exact if_pos (by omega)

/-- The search of a call that adds no first byte. -/
theorem search_ok (hs : s.data.length < 2 ^ 31) (hstr : str.length < 2 ^ 31) :
    ∃ bound r, s.searchBound str = .ok bound ∧ s.find str bound.toNat 0 = .ok r ∧
      (∀ j, r = some j → s.Denotes j str) ∧
      (r = none → ∀ j, s.Denotes j str → ∃ b ∈ str, ¬ b.toNat < 128) := by
  have hbound : ((s.data.length : Int) - str.length).toNat = s.data.length - str.length :=
    Int.toNat_sub _ _
  by_cases hle : str.length ≤ s.data.length
  · obtain ⟨r, hr, hsome, hnone⟩ :=
      @find_ok s str 0 (s.data.length - str.length) (by omega) (by omega)
    refine ⟨_, r, searchBound_ok hs hstr, by rw [hbound, hr], hsome, fun hr' j hj => ?_⟩
    have hlt := hj.lt
    exact hnone hr' j (by omega) (by omega) hj
  · have hzero : s.data.length - str.length = 0 := by omega
    refine ⟨_, none, searchBound_ok hs hstr, by rw [hbound, hzero, find], ?_, ?_⟩
    · intro j hj
      cases hj
    · intro _ j hj
      have hlt := hj.lt
      omega

theorem withFirst_spec (hs : s.data.length < 2 ^ 31) :
    s.data ≠ [] ∧ s.withFirst = s ∨ s.data = [] ∧ s.withFirst = ⟨[0]⟩ := by
  rw [withFirst, length, Nat.mod_eq_of_lt (by omega)]
  split
  · rename_i h
    rw [List.length_eq_zero_iff] at h
    exact .inr ⟨h, by rw [h, List.nil_append]⟩
  · rename_i h
    exact .inl ⟨fun hnil => h (List.length_eq_zero_iff.2 hnil), rfl⟩

theorem string2Chunk_spec (hs : s.data.length < 2 ^ 31) (hstr : str.length < 2 ^ 31) :
    ∃ s' c, s.string2Chunk str = .ok (s', c) ∧ s'.Denotes c str ∧ s'.data.length < 2 ^ 32 ∧
      (∃ more, s'.data = s.data ++ more ∧ (more = [] ∨ more.getLast? = some 0)) ∧
      (s.data ≠ [] → (∀ b ∈ str, b.toNat < 128) → (∃ j, s.Denotes j str) →
        c < s.data.length ∧ s' = s) := by
  have hfirst := withFirst_spec hs
  have hs' : s.withFirst.data.length < 2 ^ 31 := by
    rcases hfirst with ⟨_, he⟩ | ⟨_, he⟩
    · rwa [he]
    · rw [he]
      decide
  have hmore : ∃ more, s.withFirst.data = s.data ++ more ∧
      (more = [] ∨ more.getLast? = some 0) := by
    rcases hfirst with ⟨_, he⟩ | ⟨hnil, he⟩
    · exact ⟨[], by rw [he, List.append_nil], .inl rfl⟩
    · exact ⟨[0], by rw [he, hnil, List.nil_append], .inr rfl⟩
  obtain ⟨bound, r, hbound, hr, hsome, hnone⟩ := search_ok hs' hstr
  have hlength : s.withFirst.length = s.withFirst.data.length := Nat.mod_eq_of_lt (by omega)
  rw [string2Chunk]
  change ∃ s' c, (s.withFirst.searchBound str >>= _) = _ ∧ _
  rw [Except.bind_of_ok hbound, Except.bind_of_ok hr]
  cases r with
  | some i =>
    have hdenotes := hsome i rfl
    have hlt := hdenotes.lt
    have hchunk : s.withFirst.chunk i = .ok i := by rw [chunk, if_neg (by omega)]
    refine ⟨s.withFirst, i, Except.bind_of_ok hchunk _, hdenotes, by omega, hmore, ?_⟩
    intro hne _ _
    rcases hfirst with ⟨_, he⟩ | ⟨hnil, _⟩
    · rw [he] at hlt
      exact ⟨by omega, he⟩
    · exact absurd hnil hne
  | none =>
    have hlen : (s.withFirst.data ++ str ++ [0]).length =
        s.withFirst.data.length + str.length + 1 := by
      rw [List.length_append, List.length_append, List.length_singleton]
    have hchunk : chunk ⟨s.withFirst.data ++ str ++ [0]⟩ s.withFirst.length =
        .ok s.withFirst.data.length := by
      rw [chunk, hlength, length, hlen, if_neg (by omega)]
    refine ⟨⟨s.withFirst.data ++ str ++ [0]⟩, _, Except.bind_of_ok hchunk _, denotes_added _ _, ?_,
      ?_, ?_⟩
    · change (s.withFirst.data ++ str ++ [0]).length < _
      omega
    · obtain ⟨more, heq, _⟩ := hmore
      refine ⟨more ++ str ++ [0], ?_, .inr List.getLast?_concat⟩
      change s.withFirst.data ++ str ++ [0] = _
      rw [heq, List.append_assoc, List.append_assoc, List.append_assoc]
    · rintro hne hall ⟨j, hj⟩
      have he : s.withFirst = s := by
        rcases hfirst with ⟨_, he⟩ | ⟨hnil, _⟩
        · exact he
        · exact absurd hnil hne
      obtain ⟨b, hb, hge⟩ := hnone rfl j (he.symm ▸ hj)
      exact absurd (hall b hb) hge

end Adding

end StringSection

end Tpef

end OpenAsip
