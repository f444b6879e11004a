import OpenAsip.ImmediateElements

namespace OpenAsip
set_option autoImplicit true

namespace BigEndian

/-- A number below a power of the length of the end has no bytes before the end. -/
theorem value_prefix_eq_zero {p q : List UInt8} (h : value (p ++ q) < 256 ^ q.length) :
    value p = 0 := by
  rw [value_append] at h
  by_contra hne
  have := Nat.le_mul_of_pos_left (256 ^ q.length) (Nat.pos_of_ne_zero hne)
  omega

theorem value_prefix_eq_max {p q : List UInt8}
    (h : 256 ^ (p ++ q).length ≤ value (p ++ q) + 256 ^ q.length) :
    value p + 1 = 256 ^ p.length := by
  have hlt := value_lt p
  have hq := value_lt q
  have hpos : 0 < 256 ^ q.length := Nat.pow_pos (Nat.succ_pos 255)
  rw [value_append, List.length_append, Nat.pow_add] at h
  by_contra hne
  have hle : value p + 1 + 1 ≤ 256 ^ p.length := by omega
  have hmul := Nat.mul_le_mul_right (256 ^ q.length) hle
  rw [Nat.add_mul, Nat.add_mul, Nat.one_mul] at hmul
  omega

theorem signedValue_of_max (hl : l ≠ []) (h : value l + 1 = 256 ^ l.length) :
    signedValue l = -1 := by
  have hpos : 1 ≤ l.length := List.length_pos_iff.2 hl
  have hpow : 256 ^ 1 ≤ 256 ^ l.length := Nat.pow_le_pow_right (Nat.succ_pos 255) hpos
  rw [signedValue_eq, if_neg (by omega)]
  omega

theorem signedValue_of_zero (h : value l = 0) : signedValue l = 0 := by
  rw [signedValue_eq, h, Nat.mul_zero, if_pos (Nat.pow_pos (Nat.succ_pos 255))]
  rfl

theorem value_of_signedValue_zero (h : signedValue l = 0) : value l = 0 := by
  have hlt := value_lt l
  rw [signedValue_eq] at h
  split at h
  · exact_mod_cast h
  · omega

theorem value_of_signedValue_max (h : signedValue l = -1) : value l + 1 = 256 ^ l.length := by
  rw [signedValue_eq] at h
  split at h
  · omega
  · omega

end BigEndian

namespace Tpef
open BigEndian
open ImmediateElement hiding value

section Words
variable {w size : Nat}

/-- The word whose two's complement is congruent to a value that fits. -/
theorem toInt_ofNat_eq {x : Nat} (hw : 2 ^ w = 256 ^ size) (hsize : size ≠ 0) (hy : Fits size y)
    (h : ((256 ^ size : Nat) : Int) ∣ (x : Int) - y) : (BitVec.ofNat w x).toInt = y := by
  have hpos : 0 < 256 ^ size := Nat.pow_pos (Nat.succ_pos 255)
  have hlower := Int.le_bmod (x := (x : Int)) hpos
  have hupper := Int.bmod_lt (x := (x : Int)) hpos
  have heven := pow_even hsize
  have hfits : Fits size (Int.bmod (x : Int) (256 ^ size)) := by
    rw [Fits]
    push_cast at hlower hupper
    omega
  rw [BitVec.toInt_ofNat', hw]
  apply hfits.eq hy
  have hbmod := Int.dvd_bmod_sub_self (x := (x : Int)) (m := 256 ^ size)
  have hsum := dvd_add hbmod h
  rw [sub_add_sub_cancel] at hsum
  exact_mod_cast hsum

theorem toInt_ofNat_of_lt {x : Nat} (hw : 2 ^ w = 256 ^ size) (hx : 2 * x < 256 ^ size) :
    (BitVec.ofNat w x).toInt = x := by
  rw [BitVec.toInt_ofNat', hw, Int.bmod_eq_of_le]
  · omega
  · omega

theorem toInt_ofNat_neg {x : Nat} (hw : 2 ^ w = 256 ^ size) (hlt : x < 256 ^ size)
    (hx : ¬ 2 * x < 256 ^ size) : (BitVec.ofNat w x).toInt < 0 := by
  rw [BitVec.toInt_ofNat', hw, Int.bmod, Int.emod_eq_of_lt (Int.natCast_nonneg _)
    (by exact_mod_cast hlt), if_neg]
  · omega
  · omega

end Words

/-- The value of the bytes, or `OutOfRange`. -/
def ReadsUnsigned (r : Outcome (BitVec w)) (l : List UInt8) : Prop :=
  (∃ x, r = .ok x ∧ x.toNat = value l) ∨ r = .error (.exception .outOfRange)

def ReadsSigned (r : Outcome (BitVec w)) (l : List UInt8) : Prop :=
  (∃ x, r = .ok x ∧ x.toInt = signedValue l) ∨ r = .error (.exception .outOfRange)

/-- What an `unsigned int` can count is read whole. -/
def FitsUnsigned (size : Nat) (l : List UInt8) : Prop :=
  l.length < 2 ^ 32 ∨ 256 ^ size ≤ value (l.take (l.length % 2 ^ 32)) ∨ value l = 0

def FitsSigned (size : Nat) (l : List UInt8) : Prop :=
  256 ^ size ≤ value (l.take (l.length % 2 ^ 32)) ∨
    (1 ≤ l.length % 2 ^ 29 ∧ l.length % 2 ^ 29 ≤ size) ∧
      (l.length < 2 ^ 32 ∧ (l.length ≤ size ∨ 2 * value l < 256 ^ size) ∨
        2 ^ 32 ≤ l.length ∧ (signedValue l = 0 ∨ signedValue l = -1))

section Readers
variable {e : ImmediateElement}

theorem take_of_lt (h : e.value.length < 2 ^ 32) : e.value.take e.length = e.value := by
  rw [length, Nat.mod_eq_of_lt h, List.take_length]

theorem value_take_zero (h : value e.value = 0) :
    value (e.value.take e.length) = 0 := by
  apply value_prefix_eq_zero (q := e.value.drop e.length)
  rw [List.take_append_drop, h]
  exact Nat.pow_pos (Nat.succ_pos 255)

theorem length_drop_of_ge (h : 2 ^ 32 ≤ e.value.length) :
    2 ^ 32 ≤ (e.value.drop e.length).length := by
  rw [List.length_drop, length]
  omega

theorem readsUnsigned_iff (hw : 2 ^ w = 256 ^ size) :
    ReadsUnsigned (e.readUnsigned size >>= fun x => .ok (BitVec.ofNat w x)) e.value ↔
      FitsUnsigned size e.value := by
  by_cases hthrow : 256 ^ size ≤ value (e.value.take e.length)
  · rw [Except.bind_of_error (readUnsigned_throws hthrow)]
    exact ⟨fun _ => .inr (.inl hthrow), fun _ => .inr rfl⟩
  have hlt := Nat.lt_of_not_le hthrow
  rw [Except.bind_of_ok (readUnsigned_ok hlt)]
  have hnat : (BitVec.ofNat w (value (e.value.take e.length))).toNat =
      value (e.value.take e.length) := by
    rw [BitVec.toNat_ofNat, hw, Nat.mod_eq_of_lt hlt]
  constructor
  · rintro (⟨x, hx, hval⟩ | hx)
    · cases hx
      rw [hnat] at hval
      by_cases hlen : e.value.length < 2 ^ 32
      · exact .inl hlen
      · have hdrop := length_drop_of_ge (Nat.le_of_not_lt hlen)
        have hsplit := value_append (e.value.take e.length) (e.value.drop e.length)
        rw [List.take_append_drop] at hsplit
        have hpow : 256 ^ 1 ≤ 256 ^ (e.value.drop e.length).length :=
          Nat.pow_le_pow_right (Nat.succ_pos 255) (by omega)
        refine .inr (.inr ?_)
        by_contra hne
        rw [hval] at hsplit
        have hmul := Nat.mul_le_mul_left (value e.value) hpow
        omega
    · cases hx
  · rintro (hlen | hge | hzero)
    · exact .inl ⟨_, rfl, by rw [hnat, take_of_lt hlen]⟩
    · exact (hthrow hge).elim
    · exact .inl ⟨_, rfl, by rw [hnat, value_take_zero hzero, hzero]⟩

/-- What the signed readers give where the sign has a place in the word. -/
theorem readSigned_toInt (hw : 2 ^ w = 256 ^ size) (hsize : 1 ≤ size ∧ size ≤ 8)
    (hlt : value (e.value.take e.length) < 256 ^ size)
    (hshift : 1 ≤ e.value.length % 2 ^ 29 ∧ e.value.length % 2 ^ 29 ≤ size) :
    ∃ x, e.readSigned size = .ok x ∧ (BitVec.ofNat w x).toInt =
      if e.length ≤ size then signedValue (e.value.take e.length)
      else (BitVec.ofNat w (value (e.value.take e.length))).toInt := by
  have hpos : 1 ≤ e.length := by
    rw [length]
    omega
  split
  · rename_i hle
    obtain ⟨x, hx, hdvd⟩ := readSigned_short hpos hle hsize.2
    refine ⟨x, hx, ?_⟩
    have hne : e.value.take e.length ≠ [] := by
      rw [← List.length_pos_iff, length_take]
      exact hpos
    have hfits := fits_signedValue hne
    rw [length_take] at hfits
    have hmono : (256 : Int) ^ e.length ≤ 256 ^ size :=
      pow_le_pow_right₀ (by decide) hle
    apply toInt_ofNat_eq hw (by omega) _ hdvd
    exact ⟨by have := hfits.1; omega, by have := hfits.2; omega⟩
  · rename_i hgt
    exact ⟨_, readSigned_long hlt hsize.2 (by omega) hshift, rfl⟩

theorem take_ne_nil (h : 1 ≤ e.length) : e.value.take e.length ≠ [] := by
  rw [← List.length_pos_iff, length_take]
  exact h

/-- Of more bytes than an `unsigned int` can count only 0 and -1 are read. -/
theorem readsSigned_cut (hw : 2 ^ w = 256 ^ size) (hsize : 1 ≤ size ∧ size ≤ 8)
    (hlt : value (e.value.take e.length) < 256 ^ size)
    (hshift : 1 ≤ e.value.length % 2 ^ 29 ∧ e.value.length % 2 ^ 29 ≤ size)
    (hlen : 2 ^ 32 ≤ e.value.length) :
    ReadsSigned (e.readSigned size >>= fun x => .ok (BitVec.ofNat w x)) e.value ↔
      signedValue e.value = 0 ∨ signedValue e.value = -1 := by
  obtain ⟨x, hx, htoInt⟩ := readSigned_toInt hw hsize hlt hshift
  have hpos : 1 ≤ e.length := by
    rw [length]
    omega
  have hdrop := length_drop_of_ge hlen
  have hpow : 256 ^ size ≤ 256 ^ (e.value.drop e.length).length :=
    Nat.pow_le_pow_right (Nat.succ_pos 255) (by omega)
  have hzero (h : value (e.value.take e.length) = 0) : (BitVec.ofNat w x).toInt = 0 := by
    rw [htoInt]
    split
    · exact signedValue_of_zero h
    · rw [h, toInt_ofNat_of_lt hw (by rw [Nat.mul_zero]; exact Nat.pow_pos (Nat.succ_pos 255))]
      rfl
  have hmax (h : value (e.value.take e.length) + 1 = 256 ^ e.length) :
      (BitVec.ofNat w x).toInt = -1 := by
    rw [htoInt, if_pos]
    · exact signedValue_of_max (take_ne_nil hpos) (by rw [length_take, h])
    · by_contra hgt
      have hlong : 256 ^ (size + 1) ≤ 256 ^ e.length :=
        Nat.pow_le_pow_right (Nat.succ_pos 255) (by omega)
      rw [Nat.pow_succ] at hlong
      have hpos : 0 < 256 ^ size := Nat.pow_pos (Nat.succ_pos 255)
      omega
  have hstart (h : value e.value < 256 ^ size) : value (e.value.take e.length) = 0 := by
    apply value_prefix_eq_zero (q := e.value.drop e.length)
    rw [List.take_append_drop]
    omega
  have hstartMax (h : 256 ^ e.value.length ≤ value e.value + 256 ^ size) :
      value (e.value.take e.length) + 1 = 256 ^ e.length := by
    have hmax := value_prefix_eq_max (p := e.value.take e.length) (q := e.value.drop e.length)
    rw [List.take_append_drop, length_take] at hmax
    exact hmax (by omega)
  rw [Except.bind_of_ok hx]
  constructor
  · rintro (⟨y, hy, hval⟩ | hy)
    · cases hy
      have hbound : -((256 ^ size : Nat) : Int) ≤ 2 * (BitVec.ofNat w x).toInt ∧
          2 * (BitVec.ofNat w x).toInt < ((256 ^ size : Nat) : Int) := by
        rw [← hw]
        exact ⟨BitVec.le_two_mul_toInt, BitVec.two_mul_toInt_lt⟩
      rw [← hval]
      have hsigned := signedValue_eq e.value
      rw [← hval] at hsigned
      split at hsigned
      · exact .inl (hzero (hstart (by omega)))
      · exact .inr (hmax (hstartMax (by omega)))
    · cases hy
  · intro h
    refine .inl ⟨_, rfl, ?_⟩
    rcases h with h | h
    · rw [h, hzero (value_take_zero (value_of_signedValue_zero h))]
    · have hall := value_of_signedValue_max h
      have hpos : 0 < 256 ^ size := Nat.pow_pos (Nat.succ_pos 255)
      rw [h, hmax (hstartMax (by omega))]

theorem readsSigned_whole (hw : 2 ^ w = 256 ^ size) (hsize : 1 ≤ size ∧ size ≤ 8)
    (hlt : value (e.value.take e.length) < 256 ^ size)
    (hshift : 1 ≤ e.value.length % 2 ^ 29 ∧ e.value.length % 2 ^ 29 ≤ size)
    (hlen : e.value.length < 2 ^ 32) :
    ReadsSigned (e.readSigned size >>= fun x => .ok (BitVec.ofNat w x)) e.value ↔
      e.value.length ≤ size ∨ 2 * value e.value < 256 ^ size := by
  obtain ⟨x, hx, htoInt⟩ := readSigned_toInt hw hsize hlt hshift
  have hlength : e.length = e.value.length := Nat.mod_eq_of_lt hlen
  rw [take_of_lt hlen, hlength] at htoInt
  rw [take_of_lt hlen] at hlt
  rw [Except.bind_of_ok hx]
  by_cases hle : e.value.length ≤ size
  · rw [if_pos hle] at htoInt
    exact ⟨fun _ => .inl hle, fun _ => .inl ⟨_, rfl, htoInt⟩⟩
  · rw [if_neg hle] at htoInt
    have hpow : 256 ^ (size + 1) ≤ 256 ^ e.value.length :=
      Nat.pow_le_pow_right (Nat.succ_pos 255) (by omega)
    rw [Nat.pow_succ] at hpow
    have hsigned : signedValue e.value = value e.value := by
      rw [signedValue_eq, if_pos (by omega)]
    constructor
    · rintro (⟨y, hy, hval⟩ | hy)
      · cases hy
        right
        by_contra hge
        have hneg := toInt_ofNat_neg hw hlt hge
        rw [← htoInt, hval, hsigned] at hneg
        omega
      · cases hy
    · rintro (h | h)
      · exact (hle h).elim
      · exact .inl ⟨_, rfl, by rw [htoInt, hsigned, toInt_ofNat_of_lt hw h]⟩

theorem readsSigned_iff (hw : 2 ^ w = 256 ^ size) (hsize : 1 ≤ size ∧ size ≤ 8) :
    ReadsSigned (e.readSigned size >>= fun x => .ok (BitVec.ofNat w x)) e.value ↔
      FitsSigned size e.value := by
  by_cases hthrow : 256 ^ size ≤ value (e.value.take e.length)
  · rw [Except.bind_of_error (readSigned_throws hthrow)]
    exact ⟨fun _ => .inl hthrow, fun _ => .inr rfl⟩
  have hlt := Nat.lt_of_not_le hthrow
  by_cases hshift : 1 ≤ e.value.length % 2 ^ 29 ∧ e.value.length % 2 ^ 29 ≤ size
  · have hfits : FitsSigned size e.value ↔
        e.value.length < 2 ^ 32 ∧ (e.value.length ≤ size ∨ 2 * value e.value < 256 ^ size) ∨
          2 ^ 32 ≤ e.value.length ∧ (signedValue e.value = 0 ∨ signedValue e.value = -1) :=
      ⟨fun h => (h.resolve_left hthrow).2, fun h => .inr ⟨hshift, h⟩⟩
    rw [hfits]
    by_cases hlen : e.value.length < 2 ^ 32
    · rw [readsSigned_whole hw hsize hlt hshift hlen]
      exact ⟨fun h => .inl ⟨hlen, h⟩, fun h => (h.resolve_right fun h => by omega).2⟩
    · rw [readsSigned_cut hw hsize hlt hshift (Nat.le_of_not_lt hlen)]
      exact ⟨fun h => .inr ⟨Nat.le_of_not_lt hlen, h⟩, fun h => (h.resolve_left fun h => hlen h.1).2⟩
  · rw [Except.bind_of_error (readSigned_undefined hlt hsize.2 hshift)]
    constructor
    · rintro (⟨x, hx, -⟩ | hx)
      · cases hx
      · cases hx
    · intro h
      exact (hshift (h.resolve_left hthrow).1).elim

end Readers

section RoundTrips

theorem setUnsigned_value {e : ImmediateElement} (hx : x < 256 ^ size) :
    value (e.setUnsigned size x).value = x ∧ (e.setUnsigned size x).value.length ≤ size := by
  obtain ⟨hlt, hleast⟩ := neededBytes_spec hx
  rw [setUnsigned, value_bytes, Nat.mod_eq_of_lt hlt, length_bytes]
  exact ⟨rfl, hleast size hx⟩

theorem readUnsigned_setUnsigned {e : ImmediateElement} (hx : x < 256 ^ size) (hsize : size ≤ 8) :
    (e.setUnsigned size x).readUnsigned size = .ok x := by
  obtain ⟨hvalue, hlength⟩ := setUnsigned_value (e := e) hx
  have htake := take_of_lt (e := e.setUnsigned size x) (by omega)
  rw [readUnsigned_ok (by rwa [htake, hvalue]), htake, hvalue]

theorem readSigned_setSigned {e : ImmediateElement} {x : BitVec (8 * size)}
    (hsize : 1 ≤ size ∧ size ≤ 8) :
    ((e.setSigned size x).readSigned size >>= fun y => .ok (BitVec.ofNat (8 * size) y)) = .ok x := by
  obtain ⟨⟨hne, hvalue, -⟩, hlength⟩ := setSigned_shortest e size (by omega) x
  revert hne hvalue hlength
  generalize e.setSigned size x = e
  intro hlength hne hvalue
  have hpos : 1 ≤ e.value.length := List.length_pos_iff.2 hne
  have hw : 2 ^ (8 * size) = 256 ^ size := Nat.pow_mul 2 8 size
  have htake := take_of_lt (e := e) (by omega)
  have hlt := value_lt e.value
  have hmono : 256 ^ e.value.length ≤ 256 ^ size := Nat.pow_le_pow_right (Nat.succ_pos 255) hlength
  obtain ⟨y, hy, htoInt⟩ := readSigned_toInt hw hsize (e := e)
    (by rw [htake]; exact Nat.lt_of_lt_of_le hlt hmono) (by omega)
  have hle : e.length ≤ size := Nat.le_trans (Nat.mod_le _ _) hlength
  rw [if_pos hle, htake, hvalue] at htoInt
  rw [Except.bind_of_ok hy, BitVec.eq_of_toInt_eq htoInt]

end RoundTrips

/-- What the setters and the readers are to do. -/
structure ImmediateElement.Implements (e : ImmediateElement) (v : BitVec 32) (u : BitVec 64) :
    Prop where
  word : (e.setWord v).word = .ok v
  longWord : (e.setULongWord u).longWord = .ok u
  signedWord : (e.setSignedWord v).signedWord = .ok v
  sLongWord : (e.setSignedLong u).sLongWord = .ok u
  noLeadingZero : (e.setWord v).value.head? ≠ some 0 ∧ (e.setULongWord u).value.head? ≠ some 0
  shortest : Shortest (e.setSignedWord v).value v.toInt ∧ Shortest (e.setSignedLong u).value u.toInt
  readsWord : ReadsUnsigned e.word e.value
  readsLongWord : ReadsUnsigned e.longWord e.value
  readsSignedWord : ReadsSigned e.signedWord e.value
  readsSLongWord : ReadsSigned e.sLongWord e.value

theorem ImmediateElement.immediateElement_iff (e : ImmediateElement) (v : BitVec 32) (u : BitVec 64) :
    e.Implements v u ↔ FitsUnsigned 4 e.value ∧ FitsUnsigned 8 e.value ∧
      FitsSigned 4 e.value ∧ FitsSigned 8 e.value := by
  constructor
  · intro h
    exact ⟨(readsUnsigned_iff rfl).1 h.readsWord, (readsUnsigned_iff rfl).1 h.readsLongWord,
      (readsSigned_iff rfl (by decide)).1 h.readsSignedWord,
      (readsSigned_iff rfl (by decide)).1 h.readsSLongWord⟩
  · rintro ⟨hword, hlongWord, hsignedWord, hsLongWord⟩
    refine ⟨?_, ?_, readSigned_setSigned (by decide), readSigned_setSigned (by decide),
      ⟨head_bytes_needed v.isLt, head_bytes_needed u.isLt⟩,
      ⟨(setSigned_shortest e 4 (by decide) v).1,
        (setSigned_shortest e 8 (by decide) u).1⟩,
      (readsUnsigned_iff rfl).2 hword, (readsUnsigned_iff rfl).2 hlongWord,
      (readsSigned_iff rfl (by decide)).2 hsignedWord,
      (readsSigned_iff rfl (by decide)).2 hsLongWord⟩
    · rw [ImmediateElement.word, setWord, Except.bind_of_ok (readUnsigned_setUnsigned v.isLt (by decide)),
        BitVec.ofNat_toNat, BitVec.setWidth_eq]
    · rw [ImmediateElement.longWord, setULongWord,
        Except.bind_of_ok (readUnsigned_setUnsigned u.isLt (by decide)), BitVec.ofNat_toNat,
        BitVec.setWidth_eq]

/-- The sign of an empty immediate is looked for at the bit -1. -/
theorem ImmediateElement.not_implements_empty :
    ¬ ∀ (e : ImmediateElement) (v : BitVec 32) (u : BitVec 64), e.Implements v u := by
  intro h
  have hundefined : ImmediateElement.signedWord ⟨0, 0, []⟩ = .error .undefined := by decide
  rcases (h ⟨0, 0, []⟩ 0 0).readsSignedWord with ⟨x, hx, -⟩ | hx
  · rw [hundefined] at hx
    cases hx
  · rw [hundefined] at hx
    cases hx

end Tpef

end OpenAsip
