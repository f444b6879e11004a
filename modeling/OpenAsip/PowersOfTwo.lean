import Mathlib.Algebra.Order.Ring.Int
import Mathlib.Data.Nat.Log
import Mathlib.Order.Bounds.Basic
import OpenAsip.WhileLoops

namespace OpenAsip
set_option autoImplicit true

namespace MathTools

/-- The loop of `roundUpToPowerTwo`. A shift by the width of the word is undefined. -/
def roundUpBody (number i : UInt32) : Option (Outcome UInt32) :=
  if 32 ≤ i then some (.error .undefined)
  else if (1 : UInt32) <<< i < number then some (.ok (i + 1))
  else none

/-- The loops of the two functions run for at most so many iterations. -/
def roundUpToPowerTwo (fuel : Nat) (number : UInt32) : Option (Outcome UInt32) :=
  if number = 0 then some (.ok 0)
  else (whileLoop (roundUpBody number) fuel 0).map fun r => do
    let i ← r
    if 32 ≤ i then .error .undefined else .ok ((1 : UInt32) <<< i)

def roundDownBody (number i : UInt64) : Option (Outcome UInt64) :=
  if 64 ≤ i then some (.error .undefined)
  else if (1 : UInt64) <<< i ≤ number then some (.ok (i + 1))
  else none

def roundDownToPowerTwo (fuel : Nat) (number : UInt64) : Option (Outcome UInt64) :=
  if number = 0 then some (.ok 0)
  else (whileLoop (roundDownBody number) fuel 0).map fun r => do
    let i ← r
    if 64 ≤ i then .error .undefined else .ok (((1 : UInt64) <<< i) >>> 1)

/-- The overload for `int`. -/
def roundUpToPowerTwoInt (fuel : Nat) (number : Int32) : Option (Outcome Int32) :=
  (roundUpToPowerTwo fuel number.toUInt32).map fun r => do
    let result ← r
    .ok result.toInt32

/-- The overload for `SLongWord`. -/
def roundDownToPowerTwoSLong (fuel : Nat) (number : Int64) : Option (Outcome Int64) :=
  (roundDownToPowerTwo fuel number.toUInt64).map fun r => do
    let result ← r
    .ok result.toInt64

def IsPowerTwo (p : Int) : Prop := ∃ k : Nat, p = 2 ^ k

/-- The result is the least power of two that is not below the number, if the type has one. -/
def RoundedUp (number top result : Int) : Prop :=
  0 < number → (∃ p, IsPowerTwo p ∧ number ≤ p ∧ p ≤ top) →
    IsLeast {p | IsPowerTwo p ∧ number ≤ p} result

/-- The result is the greatest power of two that is not above the number. -/
def RoundedDown (number result : Int) : Prop :=
  0 < number → IsGreatest {p | IsPowerTwo p ∧ p ≤ number} result

section Powers

theorem isLeast_powerTwo (n : Nat) :
    IsLeast {p | IsPowerTwo p ∧ (n : Int) ≤ p} ((2 ^ Nat.clog 2 n : Nat) : Int) := by
  constructor
  · refine ⟨⟨Nat.clog 2 n, ?_⟩, ?_⟩
    · push_cast
      rfl
    · exact Int.ofNat_le.2 (Nat.le_pow_clog Nat.one_lt_two n)
  · rintro p ⟨⟨k, rfl⟩, hp⟩
    have hk : n ≤ 2 ^ k := by exact_mod_cast hp
    have hle := Nat.pow_le_pow_right Nat.two_pos ((Nat.clog_le_iff_le_pow Nat.one_lt_two).2 hk)
    exact_mod_cast hle

theorem isGreatest_powerTwo {n : Nat} (hn : n ≠ 0) :
    IsGreatest {p | IsPowerTwo p ∧ p ≤ (n : Int)} ((2 ^ Nat.log 2 n : Nat) : Int) := by
  constructor
  · refine ⟨⟨Nat.log 2 n, ?_⟩, ?_⟩
    · push_cast
      rfl
    · exact Int.ofNat_le.2 (Nat.pow_log_le_self 2 hn)
  · rintro p ⟨⟨k, rfl⟩, hp⟩
    have hk : 2 ^ k ≤ n := by exact_mod_cast hp
    have hle := Nat.pow_le_pow_right Nat.two_pos ((Nat.le_log_iff_pow_le Nat.one_lt_two hn).2 hk)
    exact_mod_cast hle

end Powers

section Loops

variable {call : Nat → Option (Outcome α)}

/-- What a function of the outcome of a call gives. -/
theorem exists_map_iff {g : Outcome α → Outcome β} :
    (∃ fuel, (call fuel).map g = some o) ↔ ∃ r, (∃ fuel, call fuel = some r) ∧ g r = o := by
  constructor
  · rintro ⟨fuel, h⟩
    obtain ⟨r, hr, hg⟩ := Option.map_eq_some_iff.1 h
    exact ⟨r, ⟨fuel, hr⟩, hg⟩
  · rintro ⟨r, ⟨fuel, hr⟩, hg⟩
    exact ⟨fuel, Option.map_eq_some_iff.2 ⟨r, hr, hg⟩⟩

/-- What comes back where a function comes back for exactly the numbers of a range. -/
theorem returns_iff {good : Prop} [Decidable good] {P : α → Prop}
    (h : ∀ o, (∃ fuel, call fuel = some o) ↔ o = if good then .ok a else .error .undefined)
    (ha : good → P a) : (∃ fuel r, call fuel = some (.ok r) ∧ P r) ↔ good := by
  constructor
  · rintro ⟨fuel, r, hr, _⟩
    have heq := (h (.ok r)).1 ⟨fuel, hr⟩
    by_contra hbad
    rw [if_neg hbad] at heq
    cases heq
  · intro hgood
    obtain ⟨fuel, hr⟩ := (h (.ok a)).2 (if_pos hgood).symm
    exact ⟨fuel, a, hr, ha hgood⟩

theorem exists_ends_iff {body : τ → Option (Outcome τ)} :
    (∃ fuel, whileLoop body fuel t = some r) ↔ Ends body t r := Iff.rfl

end Loops

section Up

variable {number : UInt32}

theorem toNat_ofNat32 {k : Nat} (hk : k ≤ 32) : (UInt32.ofNat k).toNat = k := by
  exact UInt32.toNat_ofNat_of_lt' (Nat.lt_of_le_of_lt hk (by decide))

theorem toNat_shift32 {k : Nat} (hk : k < 32) :
    ((1 : UInt32) <<< UInt32.ofNat k).toNat = 2 ^ k := by
  have hlt : 2 ^ k < 2 ^ 32 := Nat.pow_lt_pow_right Nat.one_lt_two hk
  rw [UInt32.toNat_shiftLeft, toNat_ofNat32 (Nat.le_of_lt hk), Nat.mod_eq_of_lt hk]
  simp only [UInt32.toNat_one, Nat.one_shiftLeft]
  exact Nat.mod_eq_of_lt hlt

theorem not_le_ofNat32 {k : Nat} (hk : k < 32) : ¬ 32 ≤ UInt32.ofNat k := by
  rw [UInt32.le_iff_toNat_le, toNat_ofNat32 (Nat.le_of_lt hk)]
  exact Nat.not_le.2 hk

theorem roundUpBody_of_lt {k : Nat} (hk : k < 32) (h : 2 ^ k < number.toNat) :
    roundUpBody number (UInt32.ofNat k) = some (.ok (UInt32.ofNat (k + 1))) := by
  have hlt : (1 : UInt32) <<< UInt32.ofNat k < number := by
    rw [UInt32.lt_iff_toNat_lt, toNat_shift32 hk]
    exact h
  rw [roundUpBody, if_neg (not_le_ofNat32 hk), if_pos hlt, UInt32.ofNat_add]
  rfl

theorem roundUpBody_of_le {k : Nat} (hk : k < 32) (h : number.toNat ≤ 2 ^ k) :
    roundUpBody number (UInt32.ofNat k) = none := by
  have hlt : ¬ (1 : UInt32) <<< UInt32.ofNat k < number := by
    rw [UInt32.lt_iff_toNat_lt, toNat_shift32 hk]
    exact Nat.not_lt.2 h
  rw [roundUpBody, if_neg (not_le_ofNat32 hk), if_neg hlt]

theorem clog_lt (h : number.toNat ≤ 2 ^ 31) : Nat.clog 2 number.toNat < 32 :=
  Nat.lt_succ_of_le ((Nat.clog_le_iff_le_pow Nat.one_lt_two).2 h)

theorem ends_roundUp_of_le (h : number.toNat ≤ 2 ^ 31) :
    Ends (roundUpBody number) 0 r ↔ r = .ok (UInt32.ofNat (Nat.clog 2 number.toNat)) := by
  have hc := clog_lt h
  have hbody (k : Nat) (hk : k < Nat.clog 2 number.toNat) :
      roundUpBody number (UInt32.ofNat k) = some (.ok (UInt32.ofNat (k + 1))) :=
    roundUpBody_of_lt (Nat.lt_trans hk hc) ((Nat.lt_clog_iff_pow_lt Nat.one_lt_two).1 hk)
  exact (Ends.count_iff hbody).trans (Ends.stop_iff (roundUpBody_of_le hc (Nat.le_pow_clog Nat.one_lt_two _)))

theorem ends_roundUp_of_lt (h : 2 ^ 31 < number.toNat) :
    Ends (roundUpBody number) 0 r ↔ r = .error .undefined := by
  have hbody (k : Nat) (hk : k < 32) :
      roundUpBody number (UInt32.ofNat k) = some (.ok (UInt32.ofNat (k + 1))) :=
    roundUpBody_of_lt hk
      (Nat.lt_of_le_of_lt (Nat.pow_le_pow_right Nat.two_pos (Nat.le_of_lt_succ hk)) h)
  exact (Ends.count_iff hbody).trans (Ends.fault_iff rfl)

/-- The word for the least power of two that is not below the number. -/
def upPower (number : UInt32) : UInt32 :=
  if number = 0 then 0 else (1 : UInt32) <<< UInt32.ofNat (Nat.clog 2 number.toNat)

theorem toNat_upPower (h0 : number ≠ 0) (h : number.toNat ≤ 2 ^ 31) :
    (upPower number).toNat = 2 ^ Nat.clog 2 number.toNat := by
  rw [upPower, if_neg h0, toNat_shift32 (clog_lt h)]

theorem roundUpToPowerTwo_iff : (∃ fuel, roundUpToPowerTwo fuel number = some o) ↔
    o = if number.toNat ≤ 2 ^ 31 then .ok (upPower number) else .error .undefined := by
  by_cases h0 : number = 0
  · cases h0
    simp only [roundUpToPowerTwo, if_true, Option.some.injEq, exists_const]
    exact eq_comm
  · simp only [roundUpToPowerTwo, if_neg h0, exists_map_iff, exists_ends_iff]
    obtain h | h := Nat.lt_or_ge (2 ^ 31) number.toNat
    · simp only [ends_roundUp_of_lt h, exists_eq_left, if_neg (Nat.not_le.2 h)]
      exact eq_comm
    · simp only [ends_roundUp_of_le h, exists_eq_left, if_pos h, upPower, if_neg h0]
      rw [Except.bind_of_ok rfl, if_neg (not_le_ofNat32 (clog_lt h))]
      exact eq_comm

end Up

section Down

variable {number : UInt64}

theorem toNat_ofNat64 {k : Nat} (hk : k ≤ 64) : (UInt64.ofNat k).toNat = k := by
  exact UInt64.toNat_ofNat_of_lt' (Nat.lt_of_le_of_lt hk (by decide))

theorem toNat_shift64 {k : Nat} (hk : k < 64) :
    ((1 : UInt64) <<< UInt64.ofNat k).toNat = 2 ^ k := by
  have hlt : 2 ^ k < 2 ^ 64 := Nat.pow_lt_pow_right Nat.one_lt_two hk
  rw [UInt64.toNat_shiftLeft, toNat_ofNat64 (Nat.le_of_lt hk), Nat.mod_eq_of_lt hk]
  simp only [UInt64.toNat_one, Nat.one_shiftLeft]
  exact Nat.mod_eq_of_lt hlt

theorem not_le_ofNat64 {k : Nat} (hk : k < 64) : ¬ 64 ≤ UInt64.ofNat k := by
  rw [UInt64.le_iff_toNat_le, toNat_ofNat64 (Nat.le_of_lt hk)]
  exact Nat.not_le.2 hk

theorem roundDownBody_of_le {k : Nat} (hk : k < 64) (h : 2 ^ k ≤ number.toNat) :
    roundDownBody number (UInt64.ofNat k) = some (.ok (UInt64.ofNat (k + 1))) := by
  have hle : (1 : UInt64) <<< UInt64.ofNat k ≤ number := by
    rw [UInt64.le_iff_toNat_le, toNat_shift64 hk]
    exact h
  rw [roundDownBody, if_neg (not_le_ofNat64 hk), if_pos hle, UInt64.ofNat_add]
  rfl

theorem roundDownBody_of_lt {k : Nat} (hk : k < 64) (h : number.toNat < 2 ^ k) :
    roundDownBody number (UInt64.ofNat k) = none := by
  have hle : ¬ (1 : UInt64) <<< UInt64.ofNat k ≤ number := by
    rw [UInt64.le_iff_toNat_le, toNat_shift64 hk]
    exact Nat.not_le.2 h
  rw [roundDownBody, if_neg (not_le_ofNat64 hk), if_neg hle]

theorem log_succ_lt (h0 : number.toNat ≠ 0) (h : number.toNat < 2 ^ 63) :
    Nat.log 2 number.toNat + 1 < 64 :=
  Nat.succ_lt_succ ((Nat.log_lt_iff_lt_pow Nat.one_lt_two h0).2 h)

theorem ends_roundDown_of_lt (h0 : number.toNat ≠ 0) (h : number.toNat < 2 ^ 63) :
    Ends (roundDownBody number) 0 r ↔ r = .ok (UInt64.ofNat (Nat.log 2 number.toNat + 1)) := by
  have hl := log_succ_lt h0 h
  have hbody (k : Nat) (hk : k < Nat.log 2 number.toNat + 1) :
      roundDownBody number (UInt64.ofNat k) = some (.ok (UInt64.ofNat (k + 1))) :=
    roundDownBody_of_le (Nat.lt_trans hk hl)
      ((Nat.le_log_iff_pow_le Nat.one_lt_two h0).1 (Nat.le_of_lt_succ hk))
  exact (Ends.count_iff hbody).trans (Ends.stop_iff (roundDownBody_of_lt hl
    (Nat.lt_pow_succ_log_self Nat.one_lt_two _)))

theorem ends_roundDown_of_le (h : 2 ^ 63 ≤ number.toNat) :
    Ends (roundDownBody number) 0 r ↔ r = .error .undefined := by
  have hbody (k : Nat) (hk : k < 64) :
      roundDownBody number (UInt64.ofNat k) = some (.ok (UInt64.ofNat (k + 1))) :=
    roundDownBody_of_le hk
      (Nat.le_trans (Nat.pow_le_pow_right Nat.two_pos (Nat.le_of_lt_succ hk)) h)
  exact (Ends.count_iff hbody).trans (Ends.fault_iff rfl)

theorem toNat_shift_back {k : Nat} (hk : k + 1 < 64) :
    ((1 : UInt64) <<< UInt64.ofNat (k + 1) >>> 1).toNat = 2 ^ k := by
  rw [UInt64.toNat_shiftRight, toNat_shift64 hk]
  exact Nat.mul_div_cancel (2 ^ k) Nat.two_pos

/-- The word for the greatest power of two that is not above the number. -/
def downPower (number : UInt64) : UInt64 :=
  if number = 0 then 0 else (1 : UInt64) <<< UInt64.ofNat (Nat.log 2 number.toNat + 1) >>> 1

theorem toNat_ne_zero (h0 : number ≠ 0) : number.toNat ≠ 0 :=
  fun h => h0 (UInt64.toNat_inj.1 h)

theorem toNat_downPower (h0 : number ≠ 0) (h : number.toNat < 2 ^ 63) :
    (downPower number).toNat = 2 ^ Nat.log 2 number.toNat := by
  rw [downPower, if_neg h0, toNat_shift_back (log_succ_lt (toNat_ne_zero h0) h)]

theorem roundDownToPowerTwo_iff : (∃ fuel, roundDownToPowerTwo fuel number = some o) ↔
    o = if number.toNat < 2 ^ 63 then .ok (downPower number) else .error .undefined := by
  by_cases h0 : number = 0
  · cases h0
    simp only [roundDownToPowerTwo, if_true, Option.some.injEq, exists_const]
    exact eq_comm
  · simp only [roundDownToPowerTwo, if_neg h0, exists_map_iff, exists_ends_iff]
    obtain h | h := Nat.lt_or_ge number.toNat (2 ^ 63)
    · have hne := toNat_ne_zero h0
      simp only [ends_roundDown_of_lt hne h, exists_eq_left, if_pos h, downPower, if_neg h0]
      rw [Except.bind_of_ok rfl, if_neg (not_le_ofNat64 (log_succ_lt hne h))]
      exact eq_comm
    · simp only [ends_roundDown_of_le h, exists_eq_left, if_neg (Nat.not_lt.2 h)]
      exact eq_comm

end Down

section Signed

theorem roundUpToPowerTwoInt_iff {number : Int32} :
    (∃ fuel, roundUpToPowerTwoInt fuel number = some o) ↔
      o = if number.toUInt32.toNat ≤ 2 ^ 31 then .ok (upPower number.toUInt32).toInt32
        else .error .undefined := by
  simp only [roundUpToPowerTwoInt, exists_map_iff, roundUpToPowerTwo_iff, exists_eq_left]
  split
  · exact eq_comm
  · exact eq_comm

theorem roundDownToPowerTwoSLong_iff {number : Int64} :
    (∃ fuel, roundDownToPowerTwoSLong fuel number = some o) ↔
      o = if number.toUInt64.toNat < 2 ^ 63 then .ok (downPower number.toUInt64).toInt64
        else .error .undefined := by
  simp only [roundDownToPowerTwoSLong, exists_map_iff, roundDownToPowerTwo_iff, exists_eq_left]
  split
  · exact eq_comm
  · exact eq_comm

theorem toInt_eq32 (x : Int32) : x.toInt =
    if x.toUInt32.toNat < 2 ^ 31 then (x.toUInt32.toNat : Int) else x.toUInt32.toNat - 2 ^ 32 := by
  have h := x.toBitVec.toInt_eq_toNat_cond
  have hx : x.toInt = x.toBitVec.toInt := rfl
  have hu : x.toBitVec.toNat = x.toUInt32.toNat := rfl
  rw [hx, h, hu]
  split <;> split <;> omega

theorem toInt_eq64 (x : Int64) : x.toInt =
    if x.toUInt64.toNat < 2 ^ 63 then (x.toUInt64.toNat : Int) else x.toUInt64.toNat - 2 ^ 64 := by
  have h := x.toBitVec.toInt_eq_toNat_cond
  have hx : x.toInt = x.toBitVec.toInt := rfl
  have hu : x.toBitVec.toNat = x.toUInt64.toNat := rfl
  rw [hx, h, hu]
  split <;> split <;> omega

end Signed

section Rounded

theorem RoundedUp.of_le (h : number ≤ 0) : RoundedUp number top result :=
  fun hpos => absurd hpos (Int.not_lt.2 h)

theorem RoundedDown.of_le (h : number ≤ 0) : RoundedDown number result :=
  fun hpos => absurd hpos (Int.not_lt.2 h)

theorem RoundedUp.of_clog {n : Nat} {result : Int}
    (h : ((2 ^ Nat.clog 2 n : Nat) : Int) ≤ top → result = (2 ^ Nat.clog 2 n : Nat)) :
    RoundedUp n top result := by
  rintro _ ⟨p, hp, hn, htop⟩
  have hleast := isLeast_powerTwo n
  rw [h (le_trans (hleast.2 ⟨hp, hn⟩) htop)]
  exact hleast

theorem RoundedDown.of_log {n : Nat} {result : Int} (h0 : n ≠ 0)
    (h : result = (2 ^ Nat.log 2 n : Nat)) : RoundedDown n result := by
  intro _
  rw [h]
  exact isGreatest_powerTwo h0

theorem upPower_rounded {number : UInt32} (h : number.toNat ≤ 2 ^ 31) :
    RoundedUp number.toNat (2 ^ 32 - 1) (upPower number).toNat := by
  by_cases h0 : number = 0
  · cases h0
    exact .of_le (le_refl 0)
  · exact .of_clog fun _ => by rw [toNat_upPower h0 h]

theorem downPower_rounded {number : UInt64} (h : number.toNat < 2 ^ 63) :
    RoundedDown number.toNat (downPower number).toNat := by
  by_cases h0 : number = 0
  · cases h0
    exact .of_le (le_refl 0)
  · exact .of_log (toNat_ne_zero h0) (by rw [toNat_downPower h0 h])

theorem upPower_rounded_int {number : Int32} (h : number.toUInt32.toNat ≤ 2 ^ 31) :
    RoundedUp number.toInt (2 ^ 31 - 1) (upPower number.toUInt32).toInt32.toInt := by
  by_cases hneg : number.toUInt32.toNat < 2 ^ 31
  · have hn : number.toInt = number.toUInt32.toNat := by rw [toInt_eq32, if_pos hneg]
    by_cases h0 : number.toUInt32 = 0
    · rw [hn, h0]
      exact .of_le (le_refl 0)
    · rw [hn]
      refine .of_clog fun hle => ?_
      have hr : (upPower number.toUInt32).toInt32.toUInt32.toNat = _ := toNat_upPower h0 h
      rw [toInt_eq32, hr, if_pos (by omega)]
  · refine .of_le ?_
    rw [toInt_eq32, if_neg hneg]
    omega

theorem downPower_rounded_long {number : Int64} (h : number.toUInt64.toNat < 2 ^ 63) :
    RoundedDown number.toInt (downPower number.toUInt64).toInt64.toInt := by
  have hn : number.toInt = number.toUInt64.toNat := by rw [toInt_eq64, if_pos h]
  rw [hn]
  by_cases h0 : number.toUInt64 = 0
  · rw [h0]
    exact .of_le (le_refl 0)
  · refine .of_log (toNat_ne_zero h0) ?_
    have hr : (downPower number.toUInt64).toInt64.toUInt64.toNat = _ := toNat_downPower h0 h
    have hle := Nat.pow_log_le_self 2 (toNat_ne_zero h0)
    rw [toInt_eq64, hr, if_pos (Nat.lt_of_le_of_lt hle h)]

end Rounded

/-- The functions come back with the powers of two that they promise, for which machine words. -/
theorem roundsToPowerTwo_iff (u : UInt32) (i : Int32) (x : UInt64) (l : Int64) :
    ((∃ fuel r, roundUpToPowerTwo fuel u = some (.ok r) ∧
      RoundedUp u.toNat (2 ^ 32 - 1) r.toNat) ↔ u.toNat ≤ 2 ^ 31) ∧
    ((∃ fuel r, roundUpToPowerTwoInt fuel i = some (.ok r) ∧
      RoundedUp i.toInt (2 ^ 31 - 1) r.toInt) ↔ 0 ≤ i.toInt ∨ i.toInt = -2 ^ 31) ∧
    ((∃ fuel r, roundDownToPowerTwo fuel x = some (.ok r) ∧
      RoundedDown x.toNat r.toNat) ↔ x.toNat < 2 ^ 63) ∧
    ((∃ fuel r, roundDownToPowerTwoSLong fuel l = some (.ok r) ∧
      RoundedDown l.toInt r.toInt) ↔ 0 ≤ l.toInt) := by
  have hi : i.toUInt32.toNat ≤ 2 ^ 31 ↔ 0 ≤ i.toInt ∨ i.toInt = -2 ^ 31 := by
    have hlt : i.toUInt32.toNat < 2 ^ 32 := i.toUInt32.toNat_lt
    rw [toInt_eq32]
    split <;> omega
  have hl : l.toUInt64.toNat < 2 ^ 63 ↔ 0 ≤ l.toInt := by
    have hlt : l.toUInt64.toNat < 2 ^ 64 := l.toUInt64.toNat_lt
    rw [toInt_eq64]
    split <;> omega
  refine ⟨?_, ?_, ?_, ?_⟩
  · exact returns_iff (fun _ => roundUpToPowerTwo_iff) upPower_rounded
  · exact (returns_iff (fun _ => roundUpToPowerTwoInt_iff) upPower_rounded_int).trans hi
  · exact returns_iff (fun _ => roundDownToPowerTwo_iff) downPower_rounded
  · exact (returns_iff (fun _ => roundDownToPowerTwoSLong_iff) downPower_rounded_long).trans hl

/-- Nothing comes back for the next number after the half of the range of a word, although
the greatest power of two of `ULongWord` is that number. -/
theorem not_rounds_half : ¬ (∃ fuel r, roundDownToPowerTwo fuel 0x8000000000000000 = some (.ok r)) ∧
    ¬ (∃ fuel r, roundUpToPowerTwo fuel 0x80000001 = some (.ok r)) := by
  constructor
  · rintro ⟨fuel, r, hr⟩
    cases roundDownToPowerTwo_iff.1 ⟨fuel, hr⟩
  · rintro ⟨fuel, r, hr⟩
    cases roundUpToPowerTwo_iff.1 ⟨fuel, hr⟩

end MathTools

end OpenAsip
