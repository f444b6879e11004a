import OpenAsip.StringSections

namespace OpenAsip
set_option autoImplicit true

namespace Tpef

namespace StringSection

/-- A call of `string2Chunk` with the section before and after it. -/
structure Call where
  before : StringSection
  str : List UInt8
  chunk : Nat
  after : StringSection
deriving DecidableEq, Repr

/-- A section and the calls that have made it. -/
structure History where
  table : StringSection
  calls : List Call
deriving DecidableEq, Repr

def History.new : History := ⟨⟨[]⟩, []⟩

def History.step (h : History) (str : List UInt8) : Outcome History := do
  let (s, c) ← h.table.string2Chunk str
  .ok ⟨s, ⟨h.table, str, c, s⟩ :: h.calls⟩

/-- Some position of the section denotes the string. -/
def Present (s : StringSection) (str : List UInt8) : Prop := ∃ i, s.chunk2String i = .ok str

namespace History

structure Right (h : History) : Prop where
  denotes : ∀ c ∈ h.calls, h.table.chunk2String c.chunk = .ok c.str
  shares : ∀ c ∈ h.calls, Present c.before c.str →
    c.chunk < c.before.data.length ∧ c.after = c.before
  terminated : ∀ i < h.table.data.length, ∃ j, i ≤ j ∧ h.table.data[j]? = some 0

/-- The sizes are `int`s, and a string that is present has no character that is negative. -/
def Fits (h : History) (str : List UInt8) : Prop :=
  h.table.data.length < 2 ^ 31 ∧ str.length < 2 ^ 31 ∧
    (Present h.table str → ∀ b ∈ str, b.toNat < 128)

structure Inv (h : History) : Prop where
  noNul : ∀ c ∈ h.calls, 0 ∉ c.str
  denotes : ∀ c ∈ h.calls, h.table.Denotes c.chunk c.str
  shares : ∀ c ∈ h.calls, Present c.before c.str →
    c.chunk < c.before.data.length ∧ c.after = c.before
  length_lt : h.table.data.length < 2 ^ 32
  last : h.table.data = [] ∨ h.table.data.getLast? = some 0

theorem inv_new : Inv new := by
  constructor
  · exact fun c hc => absurd hc List.not_mem_nil
  · exact fun c hc => absurd hc List.not_mem_nil
  · exact fun c hc => absurd hc List.not_mem_nil
  · decide
  · exact .inl rfl

/-- The empty section denotes nothing. -/
theorem Denotes.ne_nil {s : StringSection} (h : s.Denotes i str) : s.data ≠ [] := by
  intro hnil
  have hlt := h.lt
  rw [hnil, List.length_nil] at hlt
  exact absurd hlt (Nat.not_lt_zero _)

theorem Inv.step {h : History} (hinv : h.Inv) (hstr : 0 ∉ str) (hfits : h.Fits str) :
    ∃ h', h.step str = .ok h' ∧ h'.Inv := by
  obtain ⟨hs, hlen, hascii⟩ := hfits
  obtain ⟨s, c, hok, hdenotes, hlt, ⟨more, hmore, hlast⟩, hshare⟩ := string2Chunk_spec hs hlen
  refine ⟨_, Except.bind_of_ok hok _, ?_⟩
  constructor
  · intro call hcall
    rcases List.mem_cons.1 hcall with rfl | hcall
    · exact hstr
    · exact hinv.noNul call hcall
  · intro call hcall
    rcases List.mem_cons.1 hcall with rfl | hcall
    · exact hdenotes
    · have hold := (hinv.denotes call hcall).append more
      rwa [← hmore] at hold
  · intro call hcall hpresent
    rcases List.mem_cons.1 hcall with rfl | hcall
    · obtain ⟨j, hj⟩ := hpresent
      have hold := denotes_of_chunk2String hj
      exact hshare (Denotes.ne_nil hold) (hascii ⟨j, hj⟩) ⟨j, hold⟩
    · exact hinv.shares call hcall hpresent
  · exact hlt
  · change s.data = [] ∨ s.data.getLast? = some 0
    rw [hmore]
    rcases hlast with rfl | hlast
    · rw [List.append_nil]
      exact hinv.last
    · right
      rw [List.getLast?_append, hlast, Option.some_or]

/-- The last byte is the zero of every string that has none before it. -/
theorem terminated_of_last {data : List UInt8} (h : data = [] ∨ data.getLast? = some 0)
    (hi : i < data.length) : ∃ j, i ≤ j ∧ data[j]? = some 0 := by
  rcases h with rfl | h
  · exact absurd hi (Nat.not_lt_zero i)
  · rw [List.getLast?_eq_getElem?] at h
    exact ⟨data.length - 1, by omega, h⟩

theorem Inv.right {h : History} (hinv : h.Inv) : h.Right := by
  constructor
  · intro c hc
    exact chunk2String_ok hinv.length_lt (hinv.noNul c hc) (hinv.denotes c hc)
  · exact hinv.shares
  · intro i hi
    exact terminated_of_last hinv.last hi

/-- The calls return, and the section and its chunks are as they are to be. -/
def RunsRight (strs : List (List UInt8)) : Prop := ∃ h, strs.foldlM step new = .ok h ∧ h.Right

theorem stringsRunRight (strs : List (List UInt8)) (hstrs : ∀ str ∈ strs, 0 ∉ str)
    (h : Along step Fits new strs) : RunsRight strs := by
  obtain ⟨s, hok, hinv⟩ := Along.run Inv
    (fun s str hstr hinv hfits => hinv.step (hstrs str hstr) hfits) inv_new h
  exact ⟨s, hok, hinv.right⟩

theorem fits_of_ascii {data : List UInt8} (hdata : data.length < 2 ^ 31)
    (hstr : str.length < 2 ^ 31) (hascii : ∀ b ∈ str, b.toNat < 128) (calls : List Call) :
    Fits ⟨⟨data⟩, calls⟩ str :=
  ⟨hdata, hstr, fun _ => hascii⟩

theorem step_of_string2Chunk (h : s.string2Chunk str = .ok (s', c)) (calls : List Call) :
    step ⟨s, calls⟩ str = .ok ⟨s', ⟨s, str, c, s'⟩ :: calls⟩ :=
  Except.bind_of_ok h _

/-- "ä", "ab", the tail of it and the empty string. -/
theorem stringsRunRight_tail : RunsRight [[0xe4], [0x61, 0x62], [0x62], []] := by
  apply stringsRunRight _ (by decide)
  have hfirst : Fits new [0xe4] := by
    refine ⟨by decide, by decide, ?_⟩
    rintro ⟨i, hi⟩
    exact absurd rfl (Denotes.ne_nil (denotes_of_chunk2String hi))
  have h₁ : string2Chunk ⟨[]⟩ [0xe4] = .ok (⟨[0, 0xe4, 0]⟩, 1) := by decide +kernel
  have h₂ : string2Chunk ⟨[0, 0xe4, 0]⟩ [0x61, 0x62] =
      .ok (⟨[0, 0xe4, 0, 0x61, 0x62, 0]⟩, 3) := by decide +kernel
  have h₃ : string2Chunk ⟨[0, 0xe4, 0, 0x61, 0x62, 0]⟩ [0x62] =
      .ok (⟨[0, 0xe4, 0, 0x61, 0x62, 0]⟩, 4) := by decide +kernel
  have h₄ : string2Chunk ⟨[0, 0xe4, 0, 0x61, 0x62, 0]⟩ [] =
      .ok (⟨[0, 0xe4, 0, 0x61, 0x62, 0]⟩, 0) := by decide +kernel
  apply Along.cons hfirst (step_of_string2Chunk h₁ [])
  apply Along.cons (fits_of_ascii (by decide) (by decide) (by simp) _) (step_of_string2Chunk h₂ _)
  apply Along.cons (fits_of_ascii (by decide) (by decide) (by simp) _) (step_of_string2Chunk h₃ _)
  exact Along.cons (fits_of_ascii (by decide) (by decide) (by simp) _)
    (step_of_string2Chunk h₄ _) trivial

/-- The second "ä" is stored again. -/
theorem not_runsRight_umlaut : ¬ RunsRight [[0xe4], [0xe4]] := by
  rintro ⟨h, hok, hright⟩
  cases hok
  have hpresent : Present ⟨[0, 0xe4, 0]⟩ [0xe4] := ⟨1, rfl⟩
  obtain ⟨hlt, _⟩ := hright.shares _ List.mem_cons_self hpresent
  exact absurd hlt (by decide)

end History

end StringSection

end Tpef

end OpenAsip
