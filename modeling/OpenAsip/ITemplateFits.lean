import Mathlib.Algebra.Order.Ring.Int
import Mathlib.Tactic.Positivity
import OpenAsip.ITemplateBroker

namespace OpenAsip
set_option autoImplicit true

namespace MathTools

theorem le_requiredBitsSignedLoop (fuel : Nat) (n : Int) (b : Nat) :
    b ≤ requiredBitsSignedLoop fuel n b := by
  induction fuel generalizing n b with
  | zero => exact Nat.le_refl b
  | succ fuel ih =>
    rw [requiredBitsSignedLoop]
    split
    · exact Nat.le_of_succ_le (ih (n / 2) (b + 1))
    · exact Nat.le_refl b

/-- Every halving of the number takes one of the bits before the sign. -/
theorem requiredBitsSignedLoop_le {n : Int} (h : n.natAbs ≤ fuel) :
    requiredBitsSignedLoop fuel n b ≤ b + w ↔ -2 ^ w ≤ n ∧ n < 2 ^ w := by
  induction fuel generalizing n b w with
  | zero =>
    obtain rfl : n = 0 := by omega
    have hp : (0 : Int) < 2 ^ w := by positivity
    simp only [requiredBitsSignedLoop]
    omega
  | succ fuel ih =>
    have hp : (0 : Int) < 2 ^ w := by positivity
    rw [requiredBitsSignedLoop]
    split
    · rename_i hn
      cases w with
      | zero =>
        have hle := le_requiredBitsSignedLoop fuel (n / 2) (b + 1)
        simp only [pow_zero]
        omega
      | succ w =>
        have hi := @ih (b + 1) w (n / 2) (by omega)
        rw [Nat.add_right_comm] at hi
        rw [← Nat.add_assoc, hi]
        simp only [pow_succ]
        omega
    · rename_i hn
      omega

theorem requiredBitsSigned_le (hw : 0 < w) :
    requiredBitsSigned n ≤ w ↔ -2 ^ (w - 1) ≤ n ∧ n < 2 ^ (w - 1) := by
  have hl := @requiredBitsSignedLoop_le n.natAbs 1 (w - 1) n (Nat.le_refl _)
  rwa [Nat.add_sub_cancel' hw] at hl

theorem requiredBitsSigned_pos (n : Int) : 0 < requiredBitsSigned n :=
  le_requiredBitsSignedLoop n.natAbs n 1

end MathTools

namespace SimValue
variable {bits width : Nat}

theorem natCast_mod :
    ((bits % 2 ^ width : Nat) : Int) = (bits : Int) % 2 ^ width := by
  rw [Int.natCast_emod, Int.natCast_pow]
  rfl

theorem zeroExtend_eq {x : Int} (hlow : 0 ≤ x) (hhigh : x < 2 ^ width)
    (hb : (bits : Int) % 2 ^ width = x % 2 ^ width) : zeroExtend bits width = x := by
  rw [zeroExtend, natCast_mod, hb, Int.emod_eq_of_lt hlow hhigh]

theorem zeroExtend_lt (bits width : Nat) : zeroExtend bits width < 2 ^ width := by
  rw [zeroExtend]
  exact_mod_cast Nat.mod_lt bits (Nat.two_pow_pos width)

/-- Two's complement: half of the codes stand for the numbers below 0. -/
theorem signExtend_eq {x : Int} (hw : 0 < width) (hlow : -2 ^ (width - 1) ≤ x)
    (hhigh : x < 2 ^ (width - 1)) (hb : (bits : Int) % 2 ^ width = x % 2 ^ width) :
    signExtend bits width = x := by
  obtain ⟨w, rfl⟩ := Nat.exists_eq_succ_of_ne_zero (Nat.ne_of_gt hw)
  rw [Nat.succ_eq_add_one, Nat.add_sub_cancel] at hlow hhigh
  have hp : (0 : Int) < 2 ^ w := by positivity
  have hdouble : (2 : Int) ^ (w + 1) = 2 * 2 ^ w := by rw [pow_succ, mul_comm]
  have hcast : ((2 ^ w : Nat) : Int) = 2 ^ w := by exact_mod_cast rfl
  have hcode : ((bits % 2 ^ (w + 1) : Nat) : Int) = if 0 ≤ x then x else x + 2 ^ (w + 1) := by
    rw [natCast_mod, hb]
    split
    · exact Int.emod_eq_of_lt (by assumption) (by omega)
    · rw [← Int.add_emod_right, Int.emod_eq_of_lt (by omega) (by omega)]
  rw [signExtend, Nat.succ_eq_add_one, Nat.add_sub_cancel]
  split at hcode
  · rw [if_pos (by omega), hcode]
  · rw [if_neg (by omega), hcode, Int.add_sub_cancel]

theorem signExtend_range (bits : Nat) (hw : 0 < width) :
    -2 ^ (width - 1) ≤ signExtend bits width ∧ signExtend bits width < 2 ^ (width - 1) := by
  obtain ⟨w, rfl⟩ := Nat.exists_eq_succ_of_ne_zero (Nat.ne_of_gt hw)
  have hlt := Nat.mod_lt bits (Nat.two_pow_pos (w + 1))
  have hdouble : 2 ^ (w + 1) = 2 * 2 ^ w := by rw [pow_succ, mul_comm]
  have hdouble' : (2 : Int) ^ (w + 1) = 2 * 2 ^ w := by rw [pow_succ, mul_comm]
  have hcast : ((2 ^ w : Nat) : Int) = 2 ^ w := by exact_mod_cast rfl
  rw [signExtend, Nat.succ_eq_add_one, Nat.add_sub_cancel]
  split <;> omega

/-- The bytes that are copied hold the low bits of the number. -/
theorem ofSLongWord_bits (x : Int) (hw : width ≤ 32) :
    ((ofSLongWord x width).bits : Int) % 2 ^ width = x % 2 ^ width := by
  have hdvd : (2 : Int) ^ width ∣ 2 ^ (8 * ((width + 7) / 8)) := pow_dvd_pow 2 (by omega)
  have hpos : (0 : Int) ≤ x % 2 ^ (8 * ((width + 7) / 8)) := Int.emod_nonneg x (by positivity)
  rw [ofSLongWord, if_pos (by omega)]
  dsimp only
  rw [Int.toNat_of_nonneg hpos, Int.emod_emod_of_dvd x hdvd]

end SimValue

namespace ITemplate
open List (Perm)
open scoped List

/-- The number that a value of any width stands for in a unit. -/
def number : Extension → SimValue → Int
  | .zero, v => SimValue.zeroExtend v.bits v.width
  | .sign, v => SimValue.signExtend v.bits v.width

/-- The numbers that a unit can get in a number of bits. -/
def InRange : Extension → Nat → Int → Prop
  | .zero, width, x => 0 ≤ x ∧ x < 2 ^ width
  | .sign, width, x => -2 ^ (width - 1) ≤ x ∧ x < 2 ^ (width - 1)

/-- What a unit makes of a number of which it gets the low bits. -/
def readBack : Extension → Nat → Int → Int
  | .zero, width, x => SimValue.zeroExtend (x % 2 ^ width).toNat width
  | .sign, width, x => SimValue.signExtend (x % 2 ^ width).toNat width

theorem number_eq (hw : 0 < v.width) (h : InRange mode v.width x)
    (hb : (v.bits : Int) % 2 ^ v.width = x % 2 ^ v.width) : number mode v = x := by
  cases mode with
  | zero => exact SimValue.zeroExtend_eq h.1 h.2 hb
  | sign => exact SimValue.signExtend_eq hw h.1 h.2 hb

theorem readBack_eq (hw : 0 < width) (h : InRange mode width x) : readBack mode width x = x := by
  have hpos : (0 : Int) ≤ x % 2 ^ width := Int.emod_nonneg x (by positivity)
  have hb : (((x % 2 ^ width).toNat : Nat) : Int) % 2 ^ width = x % 2 ^ width := by
    rw [Int.toNat_of_nonneg hpos, Int.emod_emod]
  cases mode with
  | zero => exact SimValue.zeroExtend_eq h.1 h.2 hb
  | sign => exact SimValue.signExtend_eq hw h.1 h.2 hb

theorem number_inRange (mode : Extension) (hw : 0 < v.width) :
    InRange mode v.width (number mode v) := by
  cases mode with
  | zero => exact ⟨Int.natCast_nonneg _, SimValue.zeroExtend_lt _ _⟩
  | sign => exact SimValue.signExtend_range v.bits hw

theorem InRange.mono (h : InRange mode width x) (hle : width ≤ width') : InRange mode width' x := by
  cases mode with
  | zero =>
    have hp : (2 : Int) ^ width ≤ 2 ^ width' := pow_le_pow_right₀ (by decide) hle
    exact ⟨h.1, by have := h.2; omega⟩
  | sign =>
    have hp : (2 : Int) ^ (width - 1) ≤ 2 ^ (width' - 1) :=
      pow_le_pow_right₀ (by decide) (Nat.sub_le_sub_right hle 1)
    have hl := h.1
    have hr := h.2
    exact ⟨by omega, by omega⟩

theorem extended_eq_number (mode : Extension) (hw : v.width ≤ 32) :
    extended mode v = number mode v := by
  have hmin : min v.width 32 = v.width := Nat.min_eq_left hw
  cases mode with
  | zero => rw [extended, SimValue.unsignedValue, hmin]; rfl
  | sign => rw [extended, SimValue.intValue, hmin]; rfl

theorem number_ofSLongWord (hpos : 0 < width) (hw : width ≤ 32) (h : InRange mode width x) :
    number mode (.ofSLongWord x width) = x :=
  number_eq hpos h (SimValue.ofSLongWord_bits x hw)

section Fits
variable {m : Machine} {t : InstructionTemplate} {imm : Immediate} {v : SimValue}

theorem transports_value (hv : imm.value = .value v) :
    m.transports t imm ↔ (v.width ≤ 32 ∨ v.width ≤ t.supportedWidth imm.unit) ∧
      0 < t.supportedWidth imm.unit ∧
        InRange (m.extensionMode imm.unit) (t.supportedWidth imm.unit)
          (extended (m.extensionMode imm.unit) v) := by
  rw [Machine.transports, hv]
  simp only [Bool.and_eq_true, Bool.or_eq_true, decide_eq_true_eq]
  refine and_congr Iff.rfl ?_
  cases m.extensionMode imm.unit with
  | zero =>
    have hpos := MathTools.requiredBits_pos v.unsignedValue
    simp only [decide_eq_true_eq, InRange, extended]
    constructor
    · intro h
      have hw : 0 < t.supportedWidth imm.unit := by omega
      have hlt := (MathTools.requiredBits_le hw).1 h
      exact ⟨hw, Int.natCast_nonneg _, by exact_mod_cast hlt⟩
    · intro h
      have hlt : v.unsignedValue < 2 ^ t.supportedWidth imm.unit := by exact_mod_cast h.2.2
      exact (MathTools.requiredBits_le h.1).2 hlt
  | sign =>
    have hpos := MathTools.requiredBitsSigned_pos v.intValue
    simp only [decide_eq_true_eq, InRange, extended]
    constructor
    · intro h
      have hw : 0 < t.supportedWidth imm.unit := by omega
      exact ⟨hw, (MathTools.requiredBitsSigned_le hw).1 h⟩
    · intro h
      exact (MathTools.requiredBitsSigned_le h.1).2 h.2

theorem number_inRange_of_transports (hv : imm.value = .value v) (h : m.transports t imm) :
    0 < t.supportedWidth imm.unit ∧
      InRange (m.extensionMode imm.unit) (t.supportedWidth imm.unit)
        (number (m.extensionMode imm.unit) v) := by
  obtain ⟨hwidth, hpos, hrange⟩ := (transports_value hv).1 h
  refine ⟨hpos, ?_⟩
  by_cases hw : v.width ≤ 32
  · rwa [← extended_eq_number _ hw]
  · have hle : v.width ≤ t.supportedWidth imm.unit := hwidth.resolve_left hw
    exact (number_inRange _ (by omega)).mono hle

/-- Two states of one immediate that every template treats alike and that mean one number. -/
structure Alike (m : Machine) (imm imm' : Immediate) : Prop where
  unit : imm'.unit = imm.unit
  transports : ∀ t, m.transports t imm' = m.transports t imm
  number : ∀ v, imm.value = .value v → ∃ v', imm'.value = .value v' ∧
    number (m.extensionMode imm.unit) v' = number (m.extensionMode imm.unit) v
  reference : (∀ v, imm.value ≠ .value v) → imm'.value = imm.value

theorem Alike.refl (m : Machine) (imm : Immediate) : Alike m imm imm :=
  ⟨rfl, fun _ => rfl, fun v hv => ⟨v, hv, rfl⟩, fun _ => rfl⟩

theorem Alike.trans (h : Alike m imm imm') (h' : Alike m imm' imm'') : Alike m imm imm'' where
  unit := h'.unit.trans h.unit
  transports t := (h'.transports t).trans (h.transports t)
  number v hv := by
    obtain ⟨v', hv', he⟩ := h.number v hv
    obtain ⟨v'', hv'', he'⟩ := h'.number v' hv'
    rw [h.unit] at he'
    exact ⟨v'', hv'', he'.trans he⟩
  reference hr := by
    have he := h.reference hr
    exact (h'.reference (he ▸ hr)).trans he

/-- A number of at most a word that a template transports can be given the width of the template. -/
theorem Alike.ofSLongWord (hv : imm.value = .value v) (hw : v.width ≤ 32)
    (hs : t.supportedWidth imm.unit ≤ 32) (h : m.transports t imm) :
    Alike m imm { imm with
      value := .value (.ofSLongWord (extended (m.extensionMode imm.unit) v)
        (t.supportedWidth imm.unit)) } := by
  obtain ⟨-, hpos, hrange⟩ := (transports_value hv).1 h
  have hnumber := number_ofSLongWord hpos hs hrange
  have hext : extended (m.extensionMode imm.unit) (.ofSLongWord
      (extended (m.extensionMode imm.unit) v) (t.supportedWidth imm.unit)) =
        extended (m.extensionMode imm.unit) v := by
    rw [extended_eq_number _ hs, hnumber]
  refine ⟨rfl, fun t' => ?_, fun v' hv' => ⟨_, rfl, ?_⟩, fun hr => absurd hv (hr v)⟩
  · rw [Bool.eq_iff_iff, transports_value rfl, transports_value hv, hext]
    simp only [hw, true_or, true_and, SimValue.ofSLongWord, hs]
  · obtain rfl : v' = v := by
      rw [hv'] at hv
      injection hv
    rw [hnumber, extended_eq_number _ hw]

theorem alike_narrowed (h : m.transports t imm) : Alike m imm (narrowed m t imm) := by
  rw [narrowed]
  split
  · rename_i v hv
    split
    · rename_i hlt
      have hw : v.width ≤ 32 := ((transports_value hv).1 h).1.resolve_right (by omega)
      exact Alike.ofSLongWord hv hw (by omega) h
    · exact Alike.refl m imm
  · exact Alike.refl m imm

theorem alike_atWidth (h : m.transports t imm) : Alike m imm (atWidth m t imm) := by
  rw [atWidth]
  split
  · rename_i v hv
    split
    · rename_i hs
      have hs : t.supportedWidth imm.unit ≤ 32 := hs
      have hw : v.width ≤ 32 := by
        obtain hw | hw := ((transports_value hv).1 h).1
        · exact hw
        · omega
      exact Alike.ofSLongWord hv hw hs h
    · exact Alike.refl m imm
  · exact Alike.refl m imm

theorem immediatesFit_iff {l : List Immediate} : m.immediatesFit t writen l ↔
    (∀ i ∈ l, i.unit ∉ writen) ∧ (l.map Immediate.unit).Nodup ∧
      ∀ i ∈ l, t.isOneOfDestinations i.unit ∧ m.transports t i := by
  induction l generalizing writen with
  | nil => simp only [Machine.immediatesFit, List.not_mem_nil, false_implies, implies_true,
      List.map_nil, List.nodup_nil, and_self]
  | cons i l ih =>
    simp only [List.forall_mem_cons, List.map_cons, List.nodup_cons]
    rw [Machine.immediatesFit]
    split
    · rename_i hmem
      simp only [hmem, not_true_eq_false, false_and, Bool.false_eq_true]
    · rename_i hmem
      split
      · rename_i hdst
        simp only [hdst, false_and, and_false, Bool.false_eq_true]
      · rename_i hdst
        split
        · rename_i htr
          simp only [htr, false_and, and_false, Bool.false_eq_true]
        · rename_i htr
          rw [not_not] at hdst htr
          simp only [ih, List.mem_append, List.mem_singleton, not_or, forall_and, hmem, hdst, htr,
            not_false_eq_true, true_and]
          constructor
          · rintro ⟨⟨hw, hi⟩, hn, ht⟩
            refine ⟨hw, ⟨fun hm => ?_, hn⟩, ht⟩
            obtain ⟨j, hj, he⟩ := List.mem_map.1 hm
            exact hi j hj he
          · rintro ⟨hw, ⟨hi, hn⟩, ht⟩
            exact ⟨⟨hw, fun j hj he => hi (he ▸ List.mem_map_of_mem hj)⟩, hn, ht⟩

theorem fits_iff {buses : List String} {l : List Immediate} : m.fits t buses l ↔
    (m.dependentBuses t = [] ∨ l.length ≤ (m.dependentUnits t).length) ∧
      (l.map Immediate.unit).Nodup ∧
        (∀ i ∈ l, t.isOneOfDestinations i.unit ∧ m.transports t i) ∧
          ∀ b ∈ buses, ¬ m.hasDependentResource t b := by
  simp only [Machine.fits, Machine.movesFit, Bool.and_eq_true, Bool.or_eq_true, decide_eq_true_eq,
    immediatesFit_iff, List.not_mem_nil, not_false_eq_true, implies_true, true_and,
    List.all_eq_true, and_assoc]

/-- A template that can carry an instruction can carry a part of it. -/
theorem fits_sublist {buses buses' : List String} {l l' : List Immediate} (h : m.fits t buses l)
    (hb : buses' <+ buses) (hl : l' <+ l) : m.fits t buses' l' := by
  obtain ⟨hn, hd, hi, hbus⟩ := fits_iff.1 h
  refine fits_iff.2 ⟨hn.imp_right hl.length_le.trans, hd.sublist (hl.map _),
    fun i hi' => hi i (hl.subset hi'), fun b hb' => hbus b (hb.subset hb')⟩

theorem fits_perm {buses buses' : List String} {l l' : List Immediate} (hb : buses' ~ buses)
    (hl : l' ~ l) : m.fits t buses' l' = m.fits t buses l := by
  rw [Bool.eq_iff_iff, fits_iff, fits_iff, hl.length_eq, (hl.map _).nodup_iff]
  simp only [hl.mem_iff, hb.mem_iff]

theorem fits_alike {buses : List String} {f g : ν → Immediate} {l : List ν}
    (h : ∀ n ∈ l, Alike m (f n) (g n)) :
    m.fits t buses (l.map g) = m.fits t buses (l.map f) := by
  have hunits : (l.map g).map Immediate.unit = (l.map f).map Immediate.unit := by
    rw [List.map_map, List.map_map]
    exact List.map_congr_left fun n hn => (h n hn).unit
  rw [Bool.eq_iff_iff, fits_iff, fits_iff, hunits, List.length_map, List.length_map]
  simp only [List.forall_mem_map]
  refine and_congr_right fun _ => and_congr_right fun _ => and_congr_left fun _ =>
    forall₂_congr fun n hn => ?_
  rw [(h n hn).unit, (h n hn).transports]

end Fits
end ITemplate
end OpenAsip
