import Mathlib.Algebra.BigOperators.Group.Finset.Sigma
import Mathlib.Algebra.Order.BigOperators.Group.Finset
import Mathlib.Data.Fintype.EquivFin
import Mathlib.Data.List.FinRange
import OpenAsip.Outcomes

namespace OpenAsip
set_option autoImplicit true

namespace Bem

/-- The classes whose fields have child fields. -/
inductive ParentClass where
  | binaryEncoding
  | moveSlot
deriving DecidableEq, Repr

/-- The child fields of a parent, in the order in which its `childField` looks at them. -/
structure ChildFields (n : Nat) where
  parent : ParentClass
  relativePosition : Fin n → Nat
  width : Fin n → Nat

namespace ChildFields

/-- `childField` of the parent. Where no field has the position, a `BinaryEncoding` has a null
instance, which is `none` here, and a `MoveSlot` asserts that this does not happen. -/
def childField (c : ChildFields n) (position : Int) : Outcome (Option (Fin n)) :=
  if position < 0 ∨ n ≤ position then .error (.exception .outOfRange)
  else
    match (List.finRange n).find? fun f => (c.relativePosition f : Int) = position with
    | some f => .ok (some f)
    | none =>
      match c.parent with
      | .binaryEncoding => .ok none
      | .moveSlot => .error .assertion

/-- The loop that looks for a position without field. The fuel is the number of positions left. -/
def emptyPositionLoop (c : ChildFields n) : Nat → Nat → Outcome (Option Nat)
  | 0, _ => .ok none
  | fuel + 1, i => do
    let field ← c.childField i
    match field with
    | none => .ok (some i)
    | some _ => c.emptyPositionLoop fuel (i + 1)

def emptyPosition (c : ChildFields n) : Outcome (Option Nat) := c.emptyPositionLoop n 0

def moveTo (c : ChildFields n) (f : Fin n) (position : Nat) : ChildFields n :=
  { c with relativePosition := Function.update c.relativePosition f position }

/-- `InstructionField::setRelativePosition`. The fuel bounds the depth of the recursion. The null
instance has no parent to ask. -/
def setRelativePositionLoop (c : ChildFields n) : Nat → Fin n → Int → Outcome (ChildFields n)
  | 0, _, _ => .error .undefined
  | fuel + 1, f, position =>
    if position < 0 ∨ n ≤ position then .error (.exception .outOfRange)
    else do
      let fieldToMove ← c.childField position
      let moved := c.moveTo f position.toNat
      let emptyPosition ← moved.emptyPosition
      match emptyPosition, fieldToMove with
      | none, _ => .ok moved
      | some empty, none => if 0 < empty then .error .undefined else .error .assertion
      | some empty, some field =>
        let relativePosition := moved.relativePosition field
        if empty < relativePosition then
          moved.setRelativePositionLoop fuel field (relativePosition - 1)
        else if relativePosition < empty then
          moved.setRelativePositionLoop fuel field (relativePosition + 1)
        else .error .assertion

/-- A field is moved by one more call for each place up to the empty one. -/
def setRelativePosition (c : ChildFields n) (f : Fin n) (position : Int) :
    Outcome (ChildFields n) :=
  c.setRelativePositionLoop (n + 1) f position

/-- Adds the width of the child field at a position. The null instance has no width. -/
def addWidth (c : ChildFields n) (position i : Nat) : Outcome Nat := do
  let field ← c.childField i
  match field with
  | some g => .ok (position + c.width g)
  | none => .error .assertion

def bitPosition (c : ChildFields n) (f : Fin n) : Outcome Nat :=
  (List.range (c.relativePosition f)).foldlM c.addWidth 0

/-- The children occupy the positions up to their number. -/
structure Placed (c : ChildFields n) : Prop where
  injective : Function.Injective c.relativePosition
  lt : ∀ f, c.relativePosition f < n

/-- All children but one occupy all positions but one. -/
structure Gap (c : ChildFields n) (f : Fin n) (empty : Nat) : Prop where
  injective : ∀ i j, i ≠ f → j ≠ f → c.relativePosition i = c.relativePosition j → i = j
  lt : ∀ i, i ≠ f → c.relativePosition i < n
  ne : ∀ i, i ≠ f → c.relativePosition i ≠ empty
  empty_lt : empty < n

/-- Where a field ends up when another one moves from the empty position to the given one. -/
def shifted (empty position q : Nat) : Nat :=
  if empty < q ∧ q ≤ position then q - 1
  else if position ≤ q ∧ q < empty then q + 1
  else q

theorem Placed.surjective {c : ChildFields n} (h : c.Placed) (hq : q < n) :
    ∃ f, c.relativePosition f = q := by
  have hinj : Function.Injective fun f : Fin n => (⟨c.relativePosition f, h.lt f⟩ : Fin n) := by
    intro i j hij
    exact h.injective (congrArg Fin.val hij)
  obtain ⟨f, hf⟩ := (Finite.injective_iff_surjective.1 hinj) ⟨q, hq⟩
  exact ⟨f, congrArg Fin.val hf⟩

theorem Placed.gap {c : ChildFields n} (h : c.Placed) (f : Fin n) :
    c.Gap f (c.relativePosition f) where
  injective _ _ _ _ hij := h.injective hij
  lt i _ := h.lt i
  ne _ hi he := hi (h.injective he)
  empty_lt := h.lt f

@[simp] theorem moveTo_self (c : ChildFields n) (f : Fin n) (p : Nat) :
    (c.moveTo f p).relativePosition f = p := by
  simp only [moveTo, Function.update_self]

theorem moveTo_ne (c : ChildFields n) (p : Nat) (h : i ≠ f) :
    (c.moveTo f p).relativePosition i = c.relativePosition i := by
  simp only [moveTo, Function.update_of_ne h]

/-- The field that moves to the empty position fills it. -/
theorem Gap.fill {c : ChildFields n} (h : c.Gap f e) : (c.moveTo f e).Placed := by
  constructor
  · intro i j hij
    by_cases hi : i = f
    · by_cases hj : j = f
      · rw [hi, hj]
      · rw [hi, moveTo_self, moveTo_ne c e hj] at hij
        exact (h.ne j hj hij.symm).elim
    · by_cases hj : j = f
      · rw [hj, moveTo_self, moveTo_ne c e hi] at hij
        exact (h.ne i hi hij).elim
      · rw [moveTo_ne c e hi, moveTo_ne c e hj] at hij
        exact h.injective i j hi hj hij
  · intro i
    by_cases hi : i = f
    · rw [hi, moveTo_self]
      exact h.empty_lt
    · rw [moveTo_ne c e hi]
      exact h.lt i hi

theorem Gap.surjective {c : ChildFields n} (h : c.Gap f e) (hq : q < n) (hne : q ≠ e) :
    ∃ i, i ≠ f ∧ c.relativePosition i = q := by
  obtain ⟨i, hi⟩ := h.fill.surjective hq
  have hif : i ≠ f := by
    rintro rfl
    rw [moveTo_self] at hi
    exact hne hi.symm
  rw [moveTo_ne c e hif] at hi
  exact ⟨i, hif, hi⟩

/-- After the move to an occupied position, the field that was there has to leave. -/
theorem Gap.move {c : ChildFields n} (h : c.Gap f e) (hg : g ≠ f)
    (hp : c.relativePosition g = p) : (c.moveTo f p).Gap g e := by
  have hlt := h.lt g hg
  have hne := h.ne g hg
  constructor
  · intro i j hi hj hij
    by_cases hif : i = f
    · by_cases hjf : j = f
      · rw [hif, hjf]
      · rw [hif, moveTo_self, moveTo_ne c p hjf, ← hp] at hij
        exact (hj (h.injective j g hjf hg hij.symm)).elim
    · by_cases hjf : j = f
      · rw [hjf, moveTo_self, moveTo_ne c p hif, ← hp] at hij
        exact (hi (h.injective i g hif hg hij)).elim
      · rw [moveTo_ne c p hif, moveTo_ne c p hjf] at hij
        exact h.injective i j hif hjf hij
  · intro i hi
    by_cases hif : i = f
    · rw [hif, moveTo_self, ← hp]
      exact hlt
    · rw [moveTo_ne c p hif]
      exact h.lt i hif
  · intro i hi
    by_cases hif : i = f
    · rw [hif, moveTo_self, ← hp]
      exact hne
    · rw [moveTo_ne c p hif]
      exact h.ne i hif
  · exact h.empty_lt

theorem childField_some {c : ChildFields n} (hf : ∀ i, c.relativePosition i = q ↔ i = f)
    (hq : q < n) : c.childField q = .ok (some f) := by
  have hfind : ((List.finRange n).find? fun i => ((c.relativePosition i : Int) = q)) = some f := by
    cases hfound : (List.finRange n).find? fun i => ((c.relativePosition i : Int) = q) with
    | none =>
      have hnone := List.find?_eq_none.1 hfound f (List.mem_finRange f)
      rw [decide_eq_true_iff, Int.natCast_inj] at hnone
      exact (hnone ((hf f).2 rfl)).elim
    | some i =>
      have hi := List.find?_some hfound
      rw [decide_eq_true_iff, Int.natCast_inj, hf] at hi
      rw [hi]
  rw [childField, if_neg (by omega), hfind]

theorem childField_none {c : ChildFields n} (hq : q < n) (hf : ∀ i, c.relativePosition i ≠ q) :
    c.childField q = match c.parent with
      | .binaryEncoding => .ok none
      | .moveSlot => .error .assertion := by
  have hfind : ((List.finRange n).find? fun i => ((c.relativePosition i : Int) = q)) = none := by
    apply List.find?_eq_none.2
    intro i _
    rw [decide_eq_true_iff, Int.natCast_inj]
    exact hf i
  rw [childField, if_neg (by omega), hfind]

theorem childField_exists {c : ChildFields n} (hq : q < n) (hf : c.relativePosition f = q) :
    ∃ g, c.childField q = .ok (some g) := by
  rw [childField, if_neg (by omega)]
  cases hfound : (List.finRange n).find? fun i => ((c.relativePosition i : Int) = q) with
  | none =>
    have hnone := List.find?_eq_none.1 hfound f (List.mem_finRange f)
    rw [decide_eq_true_iff, Int.natCast_inj] at hnone
    exact (hnone hf).elim
  | some g => exact ⟨g, rfl⟩

theorem emptyPositionLoop_none {c : ChildFields n} {i fuel : Nat}
    (h : ∀ q : Nat, i ≤ q → q < i + fuel → ∃ g, c.childField q = .ok (some g)) :
    c.emptyPositionLoop fuel i = .ok none := by
  induction fuel generalizing i with
  | zero => rfl
  | succ fuel ih =>
    obtain ⟨g, hg⟩ := h i (Nat.le_refl i) (by omega)
    rw [emptyPositionLoop, hg]
    exact ih fun q hi hq => h q (by omega) (by omega)

theorem emptyPositionLoop_some {c : ChildFields n} {i e fuel : Nat} (hi : i ≤ e)
    (he : e < i + fuel) (h : ∀ q : Nat, i ≤ q → q < e → ∃ g, c.childField q = .ok (some g)) :
    c.emptyPositionLoop fuel i = (c.childField e >>= fun field =>
      match field with
      | none => .ok (some e)
      | some _ => c.emptyPositionLoop (i + fuel - e - 1) (e + 1)) := by
  induction fuel generalizing i with
  | zero => omega
  | succ fuel ih =>
    rcases Nat.eq_or_lt_of_le hi with rfl | hlt
    · rw [emptyPositionLoop, show i + (fuel + 1) - i - 1 = fuel by omega]
    · obtain ⟨g, hg⟩ := h i (Nat.le_refl i) hlt
      rw [emptyPositionLoop, hg]
      change c.emptyPositionLoop fuel (i + 1) = _
      rw [ih hlt (by omega) fun q hq => h q (by omega),
        show i + 1 + fuel - e - 1 = i + (fuel + 1) - e - 1 by omega]

theorem Placed.emptyPosition {c : ChildFields n} (h : c.Placed) : c.emptyPosition = .ok none := by
  apply emptyPositionLoop_none
  intro q _ hq
  obtain ⟨f, hf⟩ := h.surjective (show q < n by omega)
  exact childField_exists (by omega) hf

/-- The search meets the first position without field, where a `MoveSlot` asserts. -/
theorem Gap.emptyPosition {c : ChildFields n} (h : c.Gap f e) (hf : c.relativePosition f ≠ e) :
    c.emptyPosition = match c.parent with
      | .binaryEncoding => .ok (some e)
      | .moveSlot => .error .assertion := by
  have hlt := h.empty_lt
  have hempty : ∀ i, c.relativePosition i ≠ e := by
    intro i
    by_cases hi : i = f
    · rw [hi]
      exact hf
    · exact h.ne i hi
  have hbelow : ∀ q : Nat, 0 ≤ q → q < e → ∃ g, c.childField q = .ok (some g) := by
    intro q _ hq
    obtain ⟨i, _, hi⟩ := h.surjective (show q < n by omega) (show q ≠ e by omega)
    exact childField_exists (by omega) hi
  rw [ChildFields.emptyPosition, emptyPositionLoop_some (Nat.zero_le e) (by omega) hbelow,
    childField_none hlt hempty]
  cases c.parent with
  | binaryEncoding => rfl
  | moveSlot => rfl

/-- The fields after the one at the empty position has moved to the given one. -/
def moveBetween (c : ChildFields n) (f : Fin n) (empty position : Nat) : ChildFields n :=
  { c with relativePosition := fun i =>
      if i = f then position else shifted empty position (c.relativePosition i) }

/-- The field that leaves its position goes one place towards the empty one. -/
theorem Gap.moveBetween_next {c : ChildFields n} (h : c.Gap f e) (hg : g ≠ f)
    (hp : c.relativePosition g = p)
    (hnext : next = if e < p then p - 1 else p + 1) (hne : e ≠ p) :
    (c.moveTo f p).moveBetween g e next = c.moveBetween f e p := by
  have hpos : ∀ i, (if i = g then next else shifted e next ((c.moveTo f p).relativePosition i))
      = if i = f then p else shifted e p (c.relativePosition i) := by
    intro i
    by_cases hif : i = f
    · rw [if_neg (by rw [hif]; exact hg.symm), if_pos hif, hif, moveTo_self, shifted]
      split at hnext <;> split_ifs <;> omega
    · rw [if_neg hif, moveTo_ne c p hif]
      by_cases hig : i = g
      · rw [if_pos hig, hig, hp, shifted]
        split at hnext <;> split_ifs <;> omega
      · have hq : c.relativePosition i ≠ p := by
          intro he
          exact hig (h.injective i g hif hg (he.trans hp.symm))
        have hqe := h.ne i hif
        rw [if_neg hig, shifted, shifted]
        split at hnext <;> split_ifs <;> omega
  exact congrArg (fun q => { c with relativePosition := q }) (funext hpos)

theorem moveBetween_self (c : ChildFields n) (f : Fin n) (e : Nat) :
    c.moveBetween f e e = c.moveTo f e := by
  have hpos : ∀ i, (if i = f then e else shifted e e (c.relativePosition i)) =
      (c.moveTo f e).relativePosition i := by
    intro i
    by_cases hif : i = f
    · rw [if_pos hif, hif, moveTo_self]
    · rw [if_neg hif, moveTo_ne c e hif, shifted, if_neg (by omega), if_neg (by omega)]
  exact congrArg (fun q => { c with relativePosition := q }) (funext hpos)

/-- The calls of a move go towards the empty position and end there. -/
theorem setRelativePositionLoop_gap {c : ChildFields n} {f : Fin n} {e p fuel : Nat}
    (hparent : c.parent = .binaryEncoding) (h : c.Gap f e) (hf : c.relativePosition f ≠ p)
    (hp : p < n) (hfuel : p - e + (e - p) < fuel) :
    c.setRelativePositionLoop fuel f p = .ok (c.moveBetween f e p) := by
  induction fuel generalizing c f p with
  | zero => omega
  | succ fuel ih =>
    rw [setRelativePositionLoop, if_neg (by omega), Int.toNat_natCast]
    by_cases hpe : p = e
    · have hempty : ∀ i, c.relativePosition i ≠ p := by
        intro i
        by_cases hi : i = f
        · rw [hi]
          exact hf
        · rw [hpe]
          exact h.ne i hi
      rw [childField_none hp hempty, hparent, hpe]
      change (c.moveTo f e).emptyPosition >>= _ = _
      rw [h.fill.emptyPosition, moveBetween_self]
      rfl
    · obtain ⟨g, hg, hgp⟩ := h.surjective hp hpe
      have honly : ∀ i, c.relativePosition i = p ↔ i = g := by
        intro i
        constructor
        · intro hi
          have hif : i ≠ f := by
            rintro rfl
            exact hf hi
          exact h.injective i g hif hg (hi.trans hgp.symm)
        · rintro rfl
          exact hgp
      have hgap := h.move hg hgp
      have hlt := hgap.empty_lt
      have hsame : (c.moveTo f p).parent = .binaryEncoding := hparent
      have hmoved : (c.moveTo f p).relativePosition g = p := by
        rw [moveTo_ne c p hg, hgp]
      rw [childField_some honly hp]
      change (c.moveTo f p).emptyPosition >>= _ = _
      rw [hgap.emptyPosition (by rw [hmoved]; exact hpe)]
      rw [hsame]
      change (if e < (c.moveTo f p).relativePosition g then _ else _) = _
      by_cases hep : e < p
      · rw [hmoved, if_pos hep, show ((p : Int) - 1) = ((p - 1 : Nat) : Int) by omega,
          ih hsame hgap (by rw [hmoved]; omega) (by omega) (by omega),
          h.moveBetween_next hg hgp (by rw [if_pos hep]) (Ne.symm hpe)]
      · rw [hmoved, if_neg hep, if_pos (by omega),
          show ((p : Int) + 1) = ((p + 1 : Nat) : Int) by omega,
          ih hsame hgap (by rw [hmoved]; omega) (by omega) (by omega),
          h.moveBetween_next hg hgp (by rw [if_neg hep]) (Ne.symm hpe)]

theorem shifted_lt (he : e < n) (hq : q < n) : shifted e p q < n := by
  rw [shifted]
  split_ifs <;> omega

/-- Only the field at the position given could end up there, and it is shifted away. -/
theorem shifted_ne (hq : q ≠ e) : shifted e p q ≠ p := by
  rw [shifted]
  split_ifs <;> omega

theorem shifted_lt_iff (hq : q ≠ e) (hr : r ≠ e) : shifted e p q < shifted e p r ↔ q < r := by
  rw [shifted, shifted]
  split_ifs <;> omega

theorem Gap.moveBetween_order {c : ChildFields n} (h : c.Gap f e) (hi : i ≠ f) (hj : j ≠ f) :
    (c.moveBetween f e p).relativePosition i < (c.moveBetween f e p).relativePosition j ↔
      c.relativePosition i < c.relativePosition j := by
  simp only [moveBetween, if_neg hi, if_neg hj]
  exact shifted_lt_iff (h.ne i hi) (h.ne j hj)

theorem Gap.moveBetween_placed {c : ChildFields n} (h : c.Gap f e) (hp : p < n) :
    (c.moveBetween f e p).Placed := by
  constructor
  · intro i j hij
    by_cases hi : i = f
    · by_cases hj : j = f
      · rw [hi, hj]
      · simp only [moveBetween, if_pos hi, if_neg hj] at hij
        exact (shifted_ne (h.ne j hj) hij.symm).elim
    · by_cases hj : j = f
      · simp only [moveBetween, if_pos hj, if_neg hi] at hij
        exact (shifted_ne (h.ne i hi) hij).elim
      · have hlt := h.moveBetween_order (p := p) hi hj
        have hgt := h.moveBetween_order (p := p) hj hi
        exact h.injective i j hi hj (by omega)
  · intro i
    by_cases hi : i = f
    · simpa only [moveBetween, if_pos hi] using hp
    · simpa only [moveBetween, if_neg hi] using shifted_lt h.empty_lt (h.lt i hi)

/-- The width of the children at a position. -/
def widthAt (c : ChildFields n) (q : Nat) : Nat :=
  ∑ f : Fin n with c.relativePosition f = q, c.width f

/-- The bits below a position. -/
def widthBelow (c : ChildFields n) (q : Nat) : Nat := ∑ i ∈ Finset.range q, c.widthAt i

theorem widthBelow_succ (c : ChildFields n) (q : Nat) :
    c.widthBelow (q + 1) = c.widthBelow q + c.widthAt q := Finset.sum_range_succ _ _

theorem widthBelow_mono (c : ChildFields n) (h : q ≤ r) : c.widthBelow q ≤ c.widthBelow r := by
  induction h with
  | refl => exact Nat.le_refl _
  | step _ ih =>
    rw [widthBelow_succ]
    exact Nat.le_add_right_of_le ih

/-- Each bit lies at one position. -/
theorem exists_widthBelow (c : ChildFields n) {bit q : Nat} (h : bit < c.widthBelow q) :
    ∃ r, r < q ∧ c.widthBelow r ≤ bit ∧ bit < c.widthBelow (r + 1) := by
  induction q with
  | zero => exact (Nat.not_lt_zero _ h).elim
  | succ q ih =>
    by_cases hlt : bit < c.widthBelow q
    · obtain ⟨r, hr, hle, hbit⟩ := ih hlt
      exact ⟨r, Nat.lt_succ_of_lt hr, hle, hbit⟩
    · exact ⟨q, Nat.lt_succ_self q, Nat.le_of_not_lt hlt, h⟩

theorem Placed.eq_iff {c : ChildFields n} (h : c.Placed) (f i : Fin n) :
    c.relativePosition i = c.relativePosition f ↔ i = f := h.injective.eq_iff

theorem Placed.widthAt {c : ChildFields n} (h : c.Placed) (f : Fin n) :
    c.widthAt (c.relativePosition f) = c.width f := by
  rw [ChildFields.widthAt]
  simp only [h.eq_iff]
  rw [Finset.filter_eq' Finset.univ f, if_pos (Finset.mem_univ f), Finset.sum_singleton]

theorem Placed.widthBelow_all {c : ChildFields n} (h : c.Placed) :
    c.widthBelow n = ∑ f, c.width f :=
  Finset.sum_fiberwise_of_maps_to (fun f _ => Finset.mem_range.2 (h.lt f)) c.width

theorem Placed.bitPosition {c : ChildFields n} (h : c.Placed) (f : Fin n) :
    c.bitPosition f = .ok (c.widthBelow (c.relativePosition f)) := by
  have hloop : ∀ q, q ≤ n → (List.range q).foldlM c.addWidth 0 = .ok (c.widthBelow q) := by
    intro q hq
    induction q with
    | zero => rfl
    | succ q ih =>
      obtain ⟨g, rfl⟩ := h.surjective hq
      rw [List.range_succ, List.foldlM_append, ih (by omega)]
      change List.foldlM c.addWidth (c.widthBelow (c.relativePosition g)) [_] = _
      rw [List.foldlM_cons, addWidth, childField_some (h.eq_iff g) hq, widthBelow_succ, h.widthAt]
      rfl
  exact hloop _ (Nat.le_of_lt (h.lt f))

/-- The children lie at the positions that they report, each bit of the parent in one of them. -/
def Tiles (c : ChildFields n) : Prop :=
  ∃ position : Fin n → Nat, (∀ f, c.bitPosition f = .ok (position f)) ∧
    (∀ f, position f + c.width f ≤ ∑ g, c.width g) ∧
    ∀ bit, bit < ∑ g, c.width g → ∃! f, position f ≤ bit ∧ bit < position f + c.width f

theorem Placed.tiles {c : ChildFields n} (h : c.Placed) : c.Tiles := by
  have hend : ∀ f, c.widthBelow (c.relativePosition f) + c.width f =
      c.widthBelow (c.relativePosition f + 1) := by
    intro f
    rw [widthBelow_succ, h.widthAt]
  refine ⟨fun f => c.widthBelow (c.relativePosition f), h.bitPosition, ?_, ?_⟩
  · intro f
    rw [hend, ← h.widthBelow_all]
    exact c.widthBelow_mono (h.lt f)
  · intro bit hbit
    rw [← h.widthBelow_all] at hbit
    obtain ⟨q, hq, hle, hlt⟩ := c.exists_widthBelow hbit
    obtain ⟨f, rfl⟩ := h.surjective hq
    refine ⟨f, ⟨hle, by rw [hend]; exact hlt⟩, ?_⟩
    rintro g ⟨hgle, hglt⟩
    rw [hend] at hglt
    change c.widthBelow (c.relativePosition g) ≤ bit at hgle
    apply h.injective
    rcases Nat.lt_trichotomy (c.relativePosition g) (c.relativePosition f) with hgf | hgf | hgf
    · have := c.widthBelow_mono (q := c.relativePosition g + 1) hgf
      omega
    · exact hgf
    · have := c.widthBelow_mono (q := c.relativePosition f + 1) hgf
      omega

/-- What a move of a field to a position has to do. -/
structure Moved (c c' : ChildFields n) (f : Fin n) (position : Nat) : Prop where
  placed : c'.Placed
  width_eq : c'.width = c.width
  position_eq : c'.relativePosition f = position
  order : ∀ i j, i ≠ f → j ≠ f →
    (c'.relativePosition i < c'.relativePosition j ↔ c.relativePosition i < c.relativePosition j)
  tiles : c'.Tiles

theorem Gap.moved {c : ChildFields n} (h : c.Gap f e) (hp : p < n) :
    c.Moved (c.moveBetween f e p) f p where
  placed := h.moveBetween_placed hp
  width_eq := rfl
  position_eq := if_pos rfl
  order _ _ hi hj := h.moveBetween_order hi hj
  tiles := (h.moveBetween_placed hp).tiles

theorem Placed.moved_self {c : ChildFields n} (h : c.Placed) (f : Fin n) :
    c.Moved c f (c.relativePosition f) where
  placed := h
  width_eq := rfl
  position_eq := rfl
  order _ _ _ _ := Iff.rfl
  tiles := h.tiles

theorem Placed.setRelativePosition_self {c : ChildFields n} (h : c.Placed) (f : Fin n) :
    c.setRelativePosition f (c.relativePosition f) = .ok c := by
  have hsame : c.moveTo f (c.relativePosition f) = c :=
    congrArg (fun q => { c with relativePosition := q }) (Function.update_eq_self f _)
  have hlt := h.lt f
  rw [setRelativePosition, setRelativePositionLoop, if_neg (by omega),
    childField_some (h.eq_iff f) hlt, Int.toNat_natCast, hsame]
  change c.emptyPosition >>= _ = _
  rw [h.emptyPosition]
  rfl

/-- A move within a `MoveSlot` stops when it looks for the empty position. -/
theorem Placed.setRelativePosition_moveSlot {c : ChildFields n} (h : c.Placed) {f : Fin n}
    {p : Nat} (hparent : c.parent = .moveSlot) (hf : c.relativePosition f ≠ p) (hp : p < n) :
    c.setRelativePosition f p = .error .assertion := by
  obtain ⟨g, rfl⟩ := h.surjective hp
  have hg : g ≠ f := by
    rintro rfl
    exact hf rfl
  have hsame : (c.moveTo f (c.relativePosition g)).parent = .moveSlot := hparent
  have hgap := (h.gap f).move hg rfl
  rw [setRelativePosition, setRelativePositionLoop, if_neg (by omega),
    childField_some (h.eq_iff g) hp, Int.toNat_natCast]
  change (c.moveTo f (c.relativePosition g)).emptyPosition >>= _ = _
  rw [hgap.emptyPosition (by rw [moveTo_ne c _ hg]; exact hf.symm), hsame]
  rfl

end ChildFields

/-- Child fields as the object model keeps them. -/
structure PlacedChildFields (n : Nat) extends ChildFields n where
  placed : toChildFields.Placed

/-- A child moves as it should in a `BinaryEncoding`, and in a `MoveSlot` when it stays in place. -/
theorem setRelativePosition_moved_iff (c : PlacedChildFields n) (f position : Fin n) :
    (∃ c', c.setRelativePosition f position = .ok c' ∧ c.Moved c' f position) ↔
      c.parent = .binaryEncoding ∨ c.relativePosition f = position := by
  by_cases hf : c.relativePosition f = position
  · rw [← hf]
    exact ⟨fun _ => .inr rfl,
      fun _ => ⟨_, c.placed.setRelativePosition_self f, c.placed.moved_self f⟩⟩
  · cases hparent : c.parent with
    | binaryEncoding =>
      have hlt := c.placed.lt f
      exact ⟨fun _ => .inl rfl, fun _ => ⟨_, ChildFields.setRelativePositionLoop_gap hparent
        (c.placed.gap f) hf position.isLt (by omega), (c.placed.gap f).moved position.isLt⟩⟩
    | moveSlot =>
      constructor
      · rintro ⟨c', hc', _⟩
        rw [c.placed.setRelativePosition_moveSlot hparent hf position.isLt] at hc'
        cases hc'
      · rintro (h | h)
        · cases h
        · exact (hf h).elim

/-- The guard and the source field of a move slot, in this order. -/
def guardAndSource : PlacedChildFields 2 where
  parent := .moveSlot
  relativePosition := Fin.val
  width := fun _ => 1
  placed := ⟨Fin.val_injective, Fin.isLt⟩

theorem guardAndSource_setRelativePosition :
    guardAndSource.setRelativePosition 0 1 = .error .assertion ∧
      ¬ ∀ (n : Nat) (c : PlacedChildFields n) (f position : Fin n),
        ∃ c', c.setRelativePosition f position = .ok c' ∧ c.Moved c' f position := by
  have hrun : guardAndSource.setRelativePosition 0 1 = .error .assertion := rfl
  refine ⟨hrun, fun h => ?_⟩
  obtain ⟨c', hc', _⟩ := h 2 guardAndSource 0 1
  change guardAndSource.setRelativePosition 0 1 = .ok c' at hc'
  rw [hrun] at hc'
  cases hc'

end Bem

end OpenAsip
