import OpenAsip.DataImage

namespace OpenAsip
set_option autoImplicit true

namespace DataImage

def byteBits (b : UInt8) : List Bool := toBits 8 b.toNat

/-- The bits of an image that is given by its bytes. -/
def bitsOf (bytes : List UInt8) : List Bool := bytes.flatMap byteBits

@[simp] theorem length_bitsOf (bytes : List UInt8) : (bitsOf bytes).length = 8 * bytes.length := by
  induction bytes with
  | nil => rfl
  | cons b bytes ih =>
    rw [bitsOf, List.flatMap_cons, List.length_append, byteBits, length_toBits, List.length_cons]
    rw [bitsOf] at ih
    omega

@[simp] theorem bitsOf_append (a b : List UInt8) : bitsOf (a ++ b) = bitsOf a ++ bitsOf b :=
  List.flatMap_append

theorem bitsOf_cons (b : UInt8) (bytes : List UInt8) :
    bitsOf (b :: bytes) = byteBits b ++ bitsOf bytes :=
  List.flatMap_cons

theorem bitsOf_replicate_zero (n : Nat) :
    bitsOf (List.replicate n 0) = List.replicate (8 * n) false := by
  induction n with
  | zero => rfl
  | succ n ih =>
    rw [List.replicate_succ, bitsOf_cons, ih, Nat.mul_succ, Nat.add_comm, List.replicate_add]
    rfl

theorem swapBits_eq (p q r : List Bool) (a b : Bool) :
    swapBits (p ++ (a :: (q ++ (b :: r)))) p.length (p.length + (q.length + 1)) =
      .ok (p ++ (b :: (q ++ (a :: r)))) := by
  have hi : (p ++ (a :: (q ++ (b :: r))))[p.length]? = some a := by simp
  have hj : (p ++ (a :: (q ++ (b :: r))))[p.length + (q.length + 1)]? = some b := by
    rw [List.getElem?_append_right (Nat.le_add_right _ _), Nat.add_sub_cancel_left,
      List.getElem?_cons_succ, List.getElem?_append_right (Nat.le_refl _), Nat.sub_self]
    rfl
  rw [swapBits, hi, hj]
  simp

/-- Two blocks of one length change places. -/
theorem swapMAUs_eq (p xs q ys r : List Bool) (hl : xs.length = ys.length)
    (hsize : p.length + xs.length + q.length + ys.length ≤ 2 ^ 32) :
    swapMAUs xs.length p.length (p.length + xs.length + q.length)
      (p ++ (xs ++ (q ++ (ys ++ r)))) = .ok (p ++ (ys ++ (q ++ (xs ++ r)))) := by
  induction xs generalizing p q ys with
  | nil =>
    rw [List.length_eq_zero_iff.1 hl.symm]
    rfl
  | cons a xs ih =>
    cases ys with
    | nil => cases hl
    | cons b ys =>
      have hl' : xs.length = ys.length := Nat.succ.inj hl
      rw [List.length_cons, List.length_cons] at hsize
      have hfirst : p.length % 2 ^ 32 = p.length := Nat.mod_eq_of_lt (by omega)
      have hsecond : (p.length + (xs.length + 1) + q.length) % 2 ^ 32 =
          p.length + ((xs ++ q).length + 1) := by
        rw [List.length_append, Nat.mod_eq_of_lt (by omega)]
        omega
      have hswap := swapBits_eq p (xs ++ q) (ys ++ r) a b
      have hrest := ih (p ++ [b]) (q ++ [a]) ys hl' (by
        simp only [List.length_append, List.length_singleton]
        omega)
      have hindex : (p ++ [b]).length + xs.length + (q ++ [a]).length =
          p.length + (xs.length + 1) + q.length + 1 := by
        simp only [List.length_append, List.length_singleton]
        omega
      rw [hindex, List.length_append, List.length_singleton] at hrest
      rw [List.length_cons, swapMAUs, hfirst, hsecond]
      simp only [List.append_assoc, List.cons_append, List.nil_append] at hswap hrest ⊢
      rw [hswap]
      exact hrest

theorem length_byteBits (b : UInt8) : (byteBits b).length = 8 := length_toBits 8 _

theorem exists_ends {l : List α} (h : 2 ≤ l.length) : ∃ x mid y, l = x :: (mid ++ [y]) := by
  obtain ⟨x, l, rfl⟩ := List.exists_cons_of_length_pos (Nat.lt_of_lt_of_le Nat.two_pos h)
  rw [List.length_cons] at h
  have hne : l ≠ [] := List.ne_nil_of_length_pos (by omega)
  exact ⟨x, l.dropLast, l.getLast hne, by rw [List.dropLast_append_getLast]⟩

/-- The swaps that are left reverse the middle of the line. -/
theorem reverseLine_eq (n : Nat) {k mausPerLine : Nat} {before left mid right after : List UInt8}
    (hleft : left.length = k) (hright : right.length = k) (hmid : mid.length + 2 * k = mausPerLine)
    (hn : n = mid.length / 2) (hsize : 8 * (before.length + mausPerLine) ≤ 2 ^ 32) :
    reverseLine 8 mausPerLine (8 * before.length) n k
        (bitsOf (before ++ (left ++ (mid ++ (right ++ after))))) =
      .ok (bitsOf (before ++ (left ++ (mid.reverse ++ (right ++ after))))) := by
  induction n generalizing k left mid right with
  | zero =>
    have hle : mid.length ≤ 1 := by omega
    have hrev : mid.reverse = mid := by
      match mid, hle with
      | [], _ => rfl
      | [x], _ => rfl
    rw [hrev]
    rfl
  | succ n ih =>
    obtain ⟨x, mid, y, rfl⟩ := exists_ends (show 2 ≤ mid.length by omega)
    simp only [List.length_cons, List.length_append, List.length_nil] at hmid hn
    have hswap := swapMAUs_eq (bitsOf (before ++ left)) (byteBits x) (bitsOf mid) (byteBits y)
      (bitsOf (right ++ after)) rfl (by
        simp only [length_bitsOf, length_byteBits, List.length_append]
        omega)
    have hfirst : (bitsOf (before ++ left)).length = 8 * before.length + k * 8 := by
      rw [length_bitsOf, List.length_append]
      omega
    have hsecond : 8 * before.length + k * 8 + 8 + 8 * mid.length =
        8 * before.length + (mausPerLine - k - 1) * 8 := by
      omega
    rw [hfirst, length_byteBits, length_bitsOf, hsecond] at hswap
    have hrest := @ih (k + 1) (left ++ [y]) mid (x :: right)
      (by rw [List.length_append, hleft, List.length_singleton])
      (by rw [List.length_cons, hright]) (by omega) (by omega)
    rw [reverseLine]
    simp only [bitsOf_append, bitsOf_cons, List.append_assoc, List.cons_append,
      List.reverse_cons, List.reverse_append, List.nil_append, List.reverse_nil] at hswap hrest ⊢
    rw [hswap]
    exact hrest

/-- The first end of a line that is not before the position. -/
def lineEnd (mausPerLine n : Nat) : Nat := (n + mausPerLine - 1) / mausPerLine * mausPerLine

/-- The position in a line that is as far from its end as the given one is from its beginning. -/
def mirror (mausPerLine p : Nat) : Nat :=
  p / mausPerLine * mausPerLine + (mausPerLine - 1 - p % mausPerLine)

theorem lineEnd_mul_add (hpos : 0 < m) (q n : Nat) :
    lineEnd m (m * q + n) = m * q + lineEnd m n := by
  have h : (m * q + n + m - 1) / m = q + (n + m - 1) / m := by
    rw [← Nat.mul_add_div hpos]
    congr 1
    omega
  rw [lineEnd, lineEnd, h, Nat.add_mul, Nat.mul_comm q]

theorem lineEnd_of_le (hpos : 0 < n) (h : n ≤ m) : lineEnd m n = m := by
  have hdiv : (n + m - 1) / m = 1 :=
    Nat.div_eq_of_lt_le (by omega) (by omega)
  rw [lineEnd, hdiv, Nat.one_mul]

theorem le_lineEnd (hpos : 0 < m) (n : Nat) : n ≤ lineEnd m n := by
  have := Nat.div_add_mod (n + m - 1) m
  have := Nat.mod_lt (n + m - 1) hpos
  rw [lineEnd, Nat.mul_comm]
  omega

theorem dvd_lineEnd (m n : Nat) : m ∣ lineEnd m n := Nat.dvd_mul_left m _

theorem mirror_mul_add (hpos : 0 < m) (q p : Nat) : mirror m (m * q + p) = m * q + mirror m p := by
  rw [mirror, mirror, Nat.mul_add_mod, Nat.mul_add_div hpos, Nat.add_mul, Nat.mul_comm q,
    Nat.add_assoc]

theorem mirror_of_lt (h : p < m) : mirror m p = m - 1 - p := by
  rw [mirror, Nat.div_eq_of_lt h, Nat.mod_eq_of_lt h, Nat.zero_mul, Nat.zero_add]

theorem mirror_lt (hp : p < m * q) : mirror m p < m * q := by
  have hpos : 0 < m := Nat.pos_of_ne_zero fun h => by
    rw [h, Nat.zero_mul] at hp
    exact Nat.not_lt_zero p hp
  have hdiv : p / m + 1 ≤ q := Nat.div_lt_of_lt_mul hp
  have hmul : m * (p / m + 1) ≤ m * q := Nat.mul_le_mul_left m hdiv
  rw [Nat.mul_succ] at hmul
  rw [mirror, Nat.mul_comm (p / m)]
  omega

theorem mirror_mirror (hpos : 0 < m) (p : Nat) : mirror m (mirror m p) = p := by
  have hlt := Nat.mod_lt p hpos
  have hdiv := Nat.div_add_mod p m
  have hmirror : mirror m p = m * (p / m) + (m - 1 - p % m) := by rw [mirror, Nat.mul_comm]
  rw [hmirror, mirror_mul_add hpos, mirror_of_lt (by omega)]
  omega

/-- The second image has the lines of the first one, the last one padded with zeros, reversed. -/
structure Mirrored (mausPerLine : Nat) (l l' : List UInt8) : Prop where
  length_eq : l'.length = lineEnd mausPerLine l.length
  getElem?_eq : ∀ p < l'.length, l'[mirror mausPerLine p]? = some (l.getD p 0)

theorem Mirrored.nil (hpos : 0 < m) : Mirrored m [] [] := by
  refine ⟨?_, fun p hp => (Nat.not_lt_zero p hp).elim⟩
  have h : (0 + m - 1) / m = 0 := Nat.div_eq_of_lt (by omega)
  rw [List.length_nil, lineEnd, h, Nat.zero_mul]

theorem Mirrored.line (hline : l.length = m) (hpos : 0 < m) : Mirrored m l l.reverse := by
  constructor
  · rw [List.length_reverse, hline, lineEnd_of_le hpos (Nat.le_refl m)]
  · intro p hp
    rw [List.length_reverse, hline] at hp
    have hindex : l.length - 1 - (m - 1 - p) = p := by omega
    rw [mirror_of_lt hp, List.getElem?_reverse (by omega), hindex, List.getD_eq_getElem?_getD,
      List.getElem?_eq_getElem (by omega)]
    rfl

theorem Mirrored.append (hpos : 0 < m) (hdvd : m ∣ a.length) (ha : Mirrored m a a')
    (hb : Mirrored m b b') : Mirrored m (a ++ b) (a' ++ b') := by
  obtain ⟨q, hq⟩ := hdvd
  have hlength : a'.length = m * q := by
    have hnil : lineEnd m 0 = 0 := (Mirrored.nil hpos).length_eq.symm
    have hend := lineEnd_mul_add hpos q 0
    rw [hnil, Nat.add_zero] at hend
    rw [ha.length_eq, hq, hend]
  constructor
  · rw [List.length_append, List.length_append, hlength, hq, lineEnd_mul_add hpos, hb.length_eq]
  · intro p hp
    rw [List.length_append, hlength] at hp
    by_cases hlt : p < m * q
    · have hmirror := mirror_lt hlt
      rw [List.getElem?_append_left (by omega), ha.getElem?_eq p (by omega),
        List.getD_append _ _ _ _ (by omega)]
    · obtain ⟨r, rfl⟩ := Nat.exists_eq_add_of_le (Nat.le_of_not_lt hlt)
      rw [mirror_mul_add hpos, List.getElem?_append_right (by omega), hlength,
        Nat.add_sub_cancel_left, hb.getElem?_eq r (by omega),
        List.getD_append_right _ _ _ _ (by omega), hq, Nat.add_sub_cancel_left]

theorem getD_replicate_zero (n p : Nat) : (List.replicate n (0 : UInt8)).getD p 0 = 0 := by
  rw [List.getD_eq_getElem?_getD, List.getElem?_replicate]
  split
  · rfl
  · rfl

theorem getD_append_zeros (l : List UInt8) (n p : Nat) :
    (l ++ List.replicate n 0).getD p 0 = l.getD p 0 := by
  by_cases hlt : p < l.length
  · rw [List.getD_append _ _ _ _ hlt]
  · rw [List.getD_append_right _ _ _ _ (Nat.le_of_not_lt hlt), getD_replicate_zero,
      List.getD_eq_default _ _ (Nat.le_of_not_lt hlt)]

/-- The padding may as well be a part of the first image. -/
theorem Mirrored.padded_iff (h : (l ++ List.replicate n 0).length = lineEnd m l.length)
    (hpos : 0 < m) : Mirrored m (l ++ List.replicate n 0) l' ↔ Mirrored m l l' := by
  obtain ⟨q, hq⟩ := dvd_lineEnd m l.length
  have hend : lineEnd m (l ++ List.replicate n (0 : UInt8)).length = lineEnd m l.length := by
    have hnil : lineEnd m 0 = 0 := (Mirrored.nil hpos).length_eq.symm
    have hmul := lineEnd_mul_add hpos q 0
    rw [hnil, Nat.add_zero] at hmul
    rw [h, hq, hmul]
  constructor
  · intro hm
    refine ⟨hm.length_eq.trans hend, fun p hp => ?_⟩
    rw [hm.getElem?_eq p hp, getD_append_zeros]
  · intro hm
    refine ⟨hm.length_eq.trans hend.symm, fun p hp => ?_⟩
    rw [hm.getElem?_eq p hp, getD_append_zeros]

theorem Mirrored.last (hpos : 0 < l.length) (hle : l.length ≤ m) :
    Mirrored m l (l ++ List.replicate (m - l.length) 0).reverse := by
  have hlength : (l ++ List.replicate (m - l.length) (0 : UInt8)).length = m := by
    rw [List.length_append, List.length_replicate]
    omega
  rw [← Mirrored.padded_iff (by rw [hlength, lineEnd_of_le hpos hle]) (by omega)]
  exact Mirrored.line hlength (by omega)

/-- A line that is full is not padded. -/
theorem padLine_full {before l : List UInt8} (h : m ≤ l.length)
    (hsize : 8 * (before.length + l.length) < 2 ^ 32) :
    padLine (m * 8) (8 * before.length) (bitsOf (before ++ l)) = bitsOf (before ++ l) := by
  rw [padLine, if_neg]
  rintro ⟨-, hlt⟩
  rw [length_bitsOf, List.length_append] at hlt
  omega

/-- The last line is padded, unless it is the first one, where the subtraction wraps around. -/
theorem padLine_last {before l : List UInt8} (hbefore : m ∣ before.length) (hpos : 0 < l.length)
    (hlt : l.length < m) (hle : m ≤ before.length + l.length)
    (hsize : 8 * (before.length + m) < 2 ^ 32) :
    padLine (m * 8) (8 * before.length) (bitsOf (before ++ l)) =
      bitsOf (before ++ (l ++ List.replicate (m - l.length) 0)) := by
  obtain ⟨q, hq⟩ := hbefore
  have hlength : (bitsOf (before ++ l)).length = m * 8 * q + 8 * l.length := by
    rw [length_bitsOf, List.length_append, hq, Nat.mul_add, ← Nat.mul_assoc, Nat.mul_comm 8 m]
  have hmod : (m * 8 * q + 8 * l.length) % (m * 8) = 8 * l.length := by
    rw [Nat.mul_add_mod, Nat.mod_eq_of_lt (by omega)]
  have hdiv : (m * 8 * q + 8 * l.length) / (m * 8) = q := by
    rw [Nat.mul_add_div (by omega), Nat.div_eq_of_lt (by omega), Nat.add_zero]
  have hline : m * 8 * q = 8 * before.length := by
    rw [hq, ← Nat.mul_assoc, Nat.mul_comm 8 m]
  have hnext : (q + 1) * (m * 8) = 8 * before.length + m * 8 := by
    rw [Nat.succ_mul, Nat.mul_comm q, hline]
  rw [padLine, if_pos, hlength, hdiv, hnext, Nat.mod_eq_of_lt (by omega), ← List.append_assoc,
    bitsOf_append (before ++ l), bitsOf_replicate_zero, hline]
  · congr 2
    omega
  · rw [hlength, hmod]
    refine ⟨by omega, ?_⟩
    rw [hline]
    omega

/-- The loop reverses the lines one by one. The invariant is that the lines before `lineOffset` are
done, and that there are whole lines of them. -/
theorem reverseLines_eq (n : Nat) {before l : List UInt8} (hpos : 0 < m) (hn : l.length < n)
    (hbefore : m ∣ before.length) (hle : l = [] ∨ m ≤ before.length + l.length)
    (hsize : 8 * (before.length + lineEnd m l.length) < 2 ^ 32) :
    ∃ l', reverseLines 8 m n (8 * before.length) (bitsOf (before ++ l)) =
      .ok (bitsOf (before ++ l')) ∧ Mirrored m l l' := by
  induction n generalizing before l with
  | zero => exact (Nat.not_lt_zero _ hn).elim
  | succ n ih =>
    rw [reverseLines]
    by_cases hl : l.length = 0
    · obtain rfl := List.length_eq_zero_iff.1 hl
      rw [if_neg (by simp)]
      exact ⟨[], rfl, Mirrored.nil hpos⟩
    · have hne : l ≠ [] := fun h => hl (by rw [h]; rfl)
      have hle := hle.resolve_left hne
      rw [if_pos (by rw [length_bitsOf, List.length_append]; omega)]
      by_cases hfull : m ≤ l.length
      · obtain ⟨line, l, rfl, hline⟩ : ∃ line rest, l = line ++ rest ∧ line.length = m :=
          ⟨l.take m, l.drop m, (List.take_append_drop m l).symm, List.length_take_of_le hfull⟩
        rw [List.length_append, hline] at hn hsize
        have hadd := lineEnd_mul_add hpos 1 l.length
        rw [Nat.mul_one] at hadd
        rw [hadd] at hsize
        have hend := le_lineEnd hpos l.length
        have hreverse := @reverseLine_eq (m / 2) 0 m before [] line [] l rfl rfl
          (by omega) (by rw [hline]) (by omega)
        obtain ⟨l', hl', hmirrored⟩ := @ih (before ++ line.reverse) l (by omega)
          (by
            rw [List.length_append, List.length_reverse, hline]
            exact Nat.dvd_add hbefore (Nat.dvd_refl m))
          (by
            right
            rw [List.length_append, List.length_reverse, hline]
            omega)
          (by
            rw [List.length_append, List.length_reverse, hline]
            omega)
        rw [List.length_append, List.length_reverse, hline] at hl'
        refine ⟨line.reverse ++ l', ?_, (Mirrored.line hline hpos).append hpos (by rw [hline]) hmirrored⟩
        rw [padLine_full (by rw [List.length_append]; omega)
          (by rw [List.length_append]; omega)]
        simp only [List.nil_append] at hreverse
        dsimp only
        rw [hreverse]
        change reverseLines 8 m n ((8 * before.length + m * 8) % 2 ^ 32) _ = _
        rw [Nat.mod_eq_of_lt (by omega), ← List.append_assoc, ← List.append_assoc, ← hl']
        congr 1
        omega
      · have hlt := Nat.lt_of_not_le hfull
        rw [lineEnd_of_le (Nat.pos_of_ne_zero hl) (Nat.le_of_lt hlt)] at hsize
        have hlength : (l ++ List.replicate (m - l.length) (0 : UInt8)).length = m := by
          rw [List.length_append, List.length_replicate]
          omega
        have hreverse := @reverseLine_eq (m / 2) 0 m before []
          (l ++ List.replicate (m - l.length) 0) [] [] rfl rfl (by omega) (by rw [hlength]) (by omega)
        refine ⟨_, ?_, Mirrored.last (Nat.pos_of_ne_zero hl) (Nat.le_of_lt hlt)⟩
        rw [padLine_last hbefore (Nat.pos_of_ne_zero hl) hlt hle hsize]
        simp only [List.nil_append, List.append_nil] at hreverse
        dsimp only
        rw [hreverse]
        change reverseLines 8 m n ((8 * before.length + m * 8) % 2 ^ 32) _ = _
        obtain ⟨n, rfl⟩ : ∃ k, n = k + 1 := ⟨n - 1, by omega⟩
        rw [Nat.mod_eq_of_lt (by omega), reverseLines, if_neg]
        rw [length_bitsOf, List.length_append, List.length_reverse, hlength]
        omega

end DataImage

end OpenAsip
