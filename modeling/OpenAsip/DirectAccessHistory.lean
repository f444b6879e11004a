import Mathlib.Data.List.Nodup
import OpenAsip.DirectAccessMemory
import OpenAsip.MemoryHistory

namespace OpenAsip
set_option autoImplicit true

namespace DirectAccessMemory
open Memory

/-- The addresses that the page table and its 32-bit indices cover. -/
def Covered (c : Settings) (address : Nat) : Prop :=
  c.start % 2 ^ 32 ≤ address ∧
    address < c.start % 2 ^ 32 + min (new c).contents.capacity (2 ^ 32)

instance : Decidable (Covered c address) := inferInstanceAs (Decidable (_ ∧ _))

/-- The index of a MAU of an access from the index of the first one. -/
theorem index_add (h : Covered c address) (hk : Covered c (address + k)) :
    (index c address + k) % 2 ^ 32 = address + k - c.start % 2 ^ 32 := by
  have hlt := c.start_lt
  have hlow := h.1
  have hhigh : address + k < c.start % 2 ^ 32 + 2 ^ 32 :=
    Nat.lt_of_lt_of_le hk.2 (Nat.add_le_add_left (Nat.min_le_right _ _) _)
  rw [index]
  omega

theorem index_eq (h : Covered c address) :
    index c address = address - c.start % 2 ^ 32 ∧
      index c (address % 2 ^ 32) = address - c.start % 2 ^ 32 := by
  have hlt := c.start_lt
  have hlow := h.1
  have hhigh : address < c.start % 2 ^ 32 + 2 ^ 32 :=
    Nat.lt_of_lt_of_le h.2 (Nat.add_le_add_left (Nat.min_le_right _ _) _)
  rw [index, index]
  omega

theorem and_mask (c : Settings) (x : Nat) : x &&& mask c = x % 2 ^ c.MAUSize := by
  rw [mask]
  split
  · rename_i h
    rw [Nat.le_antisymm c.MAUSize_le h, Nat.and_two_pow_sub_one_eq_mod]
  · rw [Nat.and_two_pow_sub_one_eq_mod]

/-- The contents hold the last values of some writes. -/
structure Holds (c : Settings) (contents : PagedArray Nat memChunkSize)
    (writes : List (Nat × Nat)) : Prop where
  capacity_eq : contents.capacity = (new c).contents.capacity
  value : ∀ a, Covered c a →
    contents.readData 0 (a - c.start % 2 ^ 32) = .ok (lastValue writes a)
  value_lt : ∀ p ∈ writes, p.2 < 2 ^ c.MAUSize

theorem Holds.index_lt (h : Holds c contents writes) (ha : Covered c address) :
    address - c.start % 2 ^ 32 < contents.capacity := by
  have hcap := h.capacity_eq
  have hle := Nat.min_le_left (DirectAccessMemory.new c).contents.capacity (2 ^ 32)
  have hlow := ha.1
  have hhigh := ha.2
  omega

theorem Holds.new (c : Settings) : Holds c (new c).contents [] := by
  refine ⟨rfl, ?_, fun p hp => (List.not_mem_nil hp).elim⟩
  intro a ha
  have hle := Nat.min_le_left (DirectAccessMemory.new c).contents.capacity (2 ^ 32)
  have hlow := ha.1
  have hhigh := ha.2
  apply PagedArray.readData_new
  change _ < (DirectAccessMemory.new c).contents.capacity
  omega

/-- One MAU is written. -/
theorem Holds.writeData {i : Nat} (h : Holds c m.contents writes) (ha : Covered c address)
    (hi : i % 2 ^ 32 = address - c.start % 2 ^ 32) (value : Nat) :
    ∃ contents, writeData c m i value = .ok { m with contents := contents } ∧
      Holds c contents (writes ++ [(address, value % 2 ^ c.MAUSize)]) := by
  obtain ⟨contents, hok, hcap, hread⟩ :=
    m.contents.writeData_spec (value % 2 ^ c.MAUSize) (h.index_lt ha)
  refine ⟨contents, ?_, hcap.trans h.capacity_eq, ?_, ?_⟩
  · rw [DirectAccessMemory.writeData, hi, and_mask, hok]
    rfl
  · intro a hcov
    rw [hread _ (h.index_lt hcov), lastValue_append_singleton]
    have hsame : a - c.start % 2 ^ 32 = address - c.start % 2 ^ 32 ↔ a = address := by
      have h1 := hcov.1
      have h2 := ha.1
      omega
    by_cases he : a = address
    · rw [if_pos (hsame.2 he), if_pos he]
    · rw [if_neg (mt hsame.1 he), if_neg he]
      exact h.value a hcov
  · intro p hp
    rcases List.mem_append.1 hp with hp | hp
    · exact h.value_lt p hp
    · rw [List.mem_singleton.1 hp]
      exact Nat.mod_lt _ (Nat.two_pow_pos _)

theorem Holds.fastWriteMAU (h : Holds c m.contents writes) (ha : Covered c address)
    (value : Nat) :
    ∃ contents, fastWriteMAU c m address value = .ok { m with contents := contents } ∧
      Holds c contents (writes ++ [(address, value % 2 ^ c.MAUSize)]) := by
  have hi := index_add ha (k := 0) ha
  exact h.writeData ha hi value

theorem Holds.commit {data : List Nat} (h : Holds c m.contents writes)
    (ha : ∀ a ∈ List.range' address data.length, Covered c a)
    (hdata : ∀ d ∈ data, d < 2 ^ c.MAUSize) :
    ∃ contents, commit c m data address = .ok { m with contents := contents } ∧
      Holds c contents (writes ++ mauWrites address data) := by
  induction data generalizing address m writes with
  | nil =>
    rw [mauWrites, List.zip_nil_right, List.append_nil]
    exact ⟨m.contents, rfl, h⟩
  | cons d data ih =>
    rw [List.length_cons, List.range'_succ] at ha
    have hcov := ha address List.mem_cons_self
    have hi : index c (address % 2 ^ 32) % 2 ^ 32 = address - c.start % 2 ^ 32 := by
      have hadd := index_add hcov (k := 0) hcov
      rw [(index_eq hcov).2]
      rwa [(index_eq hcov).1] at hadd
    obtain ⟨contents₁, hok, hholds⟩ := h.writeData hcov hi d
    rw [Nat.mod_eq_of_lt (hdata d List.mem_cons_self)] at hholds
    obtain ⟨contents, hrest, hholds'⟩ :=
      ih (m := { m with contents := contents₁ }) hholds
        (fun a hm => ha a (List.mem_cons_of_mem _ hm))
        fun e he => hdata e (List.mem_cons_of_mem d he)
    rw [DirectAccessMemory.commit, writeMAU, DirectAccessMemory.fastWriteMAU, hok]
    refine ⟨contents, hrest, ?_⟩
    rwa [List.append_assoc] at hholds'

/-- The offsets of a fast access with the shifts, which go down to zero. -/
def descending (w : Nat) : List Nat → List (Nat × Nat)
  | [] => []
  | offset :: offsets => (offset, w * offsets.length) :: descending w offsets

theorem Holds.fastWrite {offsets : List Nat} (h : Holds c m.contents writes)
    (hfirst : Covered c address) (ha : ∀ k ∈ offsets, Covered c (address + k))
    (hwidth : c.MAUSize * offsets.length ≤ 64) (data : Nat) :
    ∃ contents, fastWrite c m address data (descending c.MAUSize offsets) =
        .ok { m with contents := contents } ∧
      Holds c contents (writes ++ (offsets.map (address + ·)).zip
        (words c.MAUSize offsets.length data).reverse) := by
  induction offsets generalizing m writes with
  | nil =>
    rw [List.map_nil, List.zip_nil_left, List.append_nil]
    exact ⟨m.contents, rfl, h⟩
  | cons k offsets ih =>
    have hk := ha k List.mem_cons_self
    rw [List.length_cons, Nat.mul_succ] at hwidth
    have hpos := c.MAUSize_pos
    obtain ⟨contents₁, hok, hholds⟩ := h.writeData hk (index_add hfirst hk)
      (data / 2 ^ (c.MAUSize * offsets.length))
    obtain ⟨contents, hrest, hholds'⟩ :=
      ih (m := { m with contents := contents₁ }) hholds
        (fun j hj => ha j (List.mem_cons_of_mem k hj)) (by omega)
    rw [DirectAccessMemory.fastWrite, descending, List.foldlM_cons]
    dsimp only
    rw [shiftRight_nat (by omega)]
    change ∃ m', (DirectAccessMemory.writeData _ _ _ _ >>= _) = _ ∧ _
    rw [hok]
    refine ⟨contents, hrest, ?_⟩
    rw [List.append_assoc] at hholds'
    rw [List.length_cons, words_succ_last, List.reverse_append, List.map_cons]
    exact hholds'

theorem Holds.readMAU (h : Holds c m.contents writes) (ha : Covered c a) :
    readMAU c m a = .ok (lastValue writes a) ∧ lastValue writes a < 2 ^ c.MAUSize := by
  refine ⟨?_, lastValue_lt h.value_lt a⟩
  rw [DirectAccessMemory.readMAU, fastReadMAU, (index_eq ha).1, h.value a ha]

theorem Holds.foldlM_parts {m : SRAM} {offsets : List Nat} (h : Holds c m.contents writes)
    (hfirst : Covered c address) (ha : ∀ k ∈ offsets, Covered c (address + k))
    (hwidth : c.MAUSize * offsets.length ≤ 32) (data : Nat) :
    (descending c.MAUSize offsets).foldlM (fun data part => do
        let mau ← m.contents.readData 0 ((index c address + part.1) % 2 ^ 32)
        let shifted ← shiftLeft 32 mau part.2
        return data ||| shifted) (data * 2 ^ (c.MAUSize * offsets.length)) =
      (.ok (data * 2 ^ (c.MAUSize * offsets.length) + Nat.ofDigits (2 ^ c.MAUSize)
        (offsets.map fun k => lastValue writes (address + k)).reverse) : Outcome Nat) := by
  induction offsets generalizing data with
  | nil => rfl
  | cons k offsets ih =>
    have hk := ha k List.mem_cons_self
    have hpos := c.MAUSize_pos
    rw [List.length_cons, Nat.mul_succ] at hwidth
    have hlt := (h.readMAU hk).2
    have hshift : lastValue writes (address + k) * 2 ^ (c.MAUSize * offsets.length) <
        2 ^ (c.MAUSize * offsets.length + c.MAUSize) := by
      rw [Nat.pow_add, Nat.mul_comm (2 ^ _)]
      exact Nat.mul_lt_mul_of_pos_right hlt (Nat.two_pow_pos _)
    -- the MAUs read so far are a multiple of the place of the next one
    have hor : data * 2 ^ (c.MAUSize * (offsets.length + 1)) |||
        lastValue writes (address + k) * 2 ^ (c.MAUSize * offsets.length) =
          (data * 2 ^ c.MAUSize + lastValue writes (address + k)) *
            2 ^ (c.MAUSize * offsets.length) := by
      rw [Nat.or_comm, or_mul_two_pow (by rwa [Nat.mul_succ]), Nat.mul_succ, Nat.pow_add]
      ring
    rw [descending, List.foldlM_cons]
    dsimp only
    rw [index_add hfirst hk, h.value _ hk]
    change (shiftLeft _ _ _ >>= _) >>= _ = _
    rw [shiftLeft_nat (by omega)
      (Nat.lt_of_lt_of_le hshift (Nat.pow_le_pow_right Nat.two_pos hwidth))]
    change List.foldlM _ (_ ||| _) _ = _
    rw [List.length_cons, hor, ih (fun j hj => ha j (List.mem_cons_of_mem k hj)) (by omega),
      List.map_cons, List.reverse_cons, Nat.ofDigits_append, Nat.ofDigits_singleton,
      List.length_reverse, List.length_map, Nat.mul_succ, Nat.pow_add, ← Nat.pow_mul]
    congr 1
    ring

/-- The bytes of a floating point number in little endian, from place `k` on. -/
theorem readBytes_up {c : Settings} {m : SRAM} {f : Nat → Nat} (k : Nat)
    (hf : ∀ a ∈ List.range' address n,
      Memory.readIn c m order a 1 = .ok (f a) ∧ f a < 2 ^ 8) :
    readBytes c m order address (List.range' k n) =
      .ok (2 ^ (8 * k) * Nat.ofDigits (2 ^ 8) ((List.range' address n).map f)) := by
  induction n generalizing address k with
  | zero => rfl
  | succ n ih =>
    rw [List.range'_succ] at hf
    obtain ⟨hread, hlt⟩ := hf address List.mem_cons_self
    rw [List.range'_succ, readBytes, hread]
    change (readBytes _ _ _ _ _ >>= _) = _
    rw [ih (k + 1) fun a ha => hf a (List.mem_cons_of_mem _ ha), List.range'_succ, List.map_cons,
      Nat.ofDigits_cons]
    change Except.ok (_ ||| _) = _
    have hlow : f address * 2 ^ (8 * k) < 2 ^ (8 * (k + 1)) := by
      rw [Nat.mul_succ, Nat.pow_add, Nat.mul_comm (2 ^ _)]
      exact Nat.mul_lt_mul_of_pos_right hlt (Nat.two_pow_pos _)
    rw [Nat.mod_eq_of_lt hlt, Nat.shiftLeft_eq, Nat.mul_comm (2 ^ (8 * (k + 1))),
      or_mul_two_pow hlow, Nat.mul_succ, Nat.pow_add]
    congr 1
    ring

theorem readBytes_down {c : Settings} {m : SRAM} {f : Nat → Nat}
    (hf : ∀ a ∈ List.range' address n,
      Memory.readIn c m order a 1 = .ok (f a) ∧ f a < 2 ^ 8) :
    readBytes c m order address (List.range n).reverse =
      .ok (Nat.ofDigits (2 ^ 8) ((List.range' address n).map f).reverse) := by
  induction n generalizing address with
  | zero => rfl
  | succ n ih =>
    rw [List.range'_succ] at hf
    obtain ⟨hread, hlt⟩ := hf address List.mem_cons_self
    have hrest : Nat.ofDigits (2 ^ 8) ((List.range' (address + 1) n).map f).reverse <
        2 ^ (8 * n) := by
      have hlen : ((List.range' (address + 1) n).map f).reverse.length = n := by
        rw [List.length_reverse, List.length_map, List.length_range']
      rw [Nat.pow_mul]
      nth_rewrite 2 [← hlen]
      apply Nat.ofDigits_lt_base_pow_length (by decide)
      intro d hd
      obtain ⟨a, ha, rfl⟩ := List.mem_map.1 (List.mem_reverse.1 hd)
      exact (hf a (List.mem_cons_of_mem _ ha)).2
    rw [List.range_succ, List.reverse_append, List.reverse_singleton, List.singleton_append,
      readBytes, hread]
    change (readBytes _ _ _ _ _ >>= _) = _
    rw [ih fun a ha => hf a (List.mem_cons_of_mem _ ha), List.range'_succ, List.map_cons,
      List.reverse_cons, Nat.ofDigits_append, Nat.ofDigits_singleton]
    change Except.ok (_ ||| _) = _
    rw [Nat.mod_eq_of_lt hlt, Nat.shiftLeft_eq, Nat.or_comm, or_mul_two_pow hrest,
      List.length_reverse, List.length_map, List.length_range', Nat.pow_mul]

theorem places_eq (little : Bool) (n : Nat) :
    places little n = if little then List.range' 0 n else (List.range n).reverse := by
  cases little with
  | true =>
    rw [places]
    exact (List.map_id _).trans List.range_eq_range'
  | false =>
    rw [places]
    apply List.ext_getElem
    · rw [List.length_map, if_neg Bool.false_ne_true, List.length_reverse]
    · intro i hi hi'
      simp only [List.getElem_map, List.getElem_range, Bool.false_eq_true, if_false,
        List.getElem_reverse, List.length_range]

/-- Writes to different addresses can be taken in any order. -/
theorem lastValue_of_mem {later : List (Nat × Nat)} (h : (later.map Prod.fst).Nodup)
    (hm : (a, d) ∈ later) : lastValue (writes ++ later) a = d := by
  induction later generalizing writes with
  | nil => cases hm
  | cons p later ih =>
    rw [List.map_cons, List.nodup_cons] at h
    rw [← List.singleton_append, ← List.append_assoc]
    rcases List.mem_cons.1 hm with rfl | hm
    · rw [lastValue_append, lastValue_append_singleton, if_pos rfl]
      intro q hq he
      exact h.1 (List.mem_map.2 ⟨q, hq, he⟩)
    · exact ih h.2 hm

theorem lastValue_perm {later later' : List (Nat × Nat)} (h : (later.map Prod.fst).Nodup)
    (hp : later.Perm later') (a : Nat) :
    lastValue (writes ++ later') a = lastValue (writes ++ later) a := by
  have h' : (later'.map Prod.fst).Nodup := (hp.map Prod.fst).nodup_iff.1 h
  by_cases hm : ∃ d, (a, d) ∈ later
  · obtain ⟨d, hm⟩ := hm
    rw [lastValue_of_mem h hm, lastValue_of_mem h' (hp.mem_iff.1 hm)]
  · rw [lastValue_append, lastValue_append]
    · rintro ⟨b, d⟩ hq rfl
      exact hm ⟨d, hq⟩
    · rintro ⟨b, d⟩ hq rfl
      exact hm ⟨d, hp.mem_iff.2 hq⟩

theorem Holds.perm {later later' : List (Nat × Nat)} (h : Holds c contents (writes ++ later))
    (hkeys : (later.map Prod.fst).Nodup) (hp : later.Perm later') :
    Holds c contents (writes ++ later') := by
  refine ⟨h.capacity_eq, fun a ha => ?_, fun p hp' => ?_⟩
  · rw [h.value a ha, lastValue_perm hkeys hp]
  · apply h.value_lt p
    rcases List.mem_append.1 hp' with hw | hl
    · exact List.mem_append_left _ hw
    · exact List.mem_append_right _ (hp.mem_iff.2 hl)

/-- The writes of single MAUs that a write consists of. -/
def writesOf (c : Settings) : Write → List (Nat × Nat)
  | .single address data => mauWrites address (maus c true data 1)
  | .sized order address count data => mauWrites address (maus c (order.isLittle c) data count)
  | .float order address bits => mauWrites address (maus c (order.isLittle c) bits 4)
  | .double order address bits => mauWrites address (maus c (order.isLittle c) bits 8)
  | .fast1 address data => mauWrites address (maus c true data 1)
  | .fast2 little address data => mauWrites address (maus c little data 2)
  | .fast4 little address data => mauWrites address (maus c little data 4)

/-- The writes of single MAUs up to now, in the order in which they are made. -/
def record (c : Settings) (writes : List (Nat × Nat)) : Access → List (Nat × Nat)
  | .write w => writes ++ writesOf c w
  | .read _ => writes
  | .advanceClock => writes

def Read.address : Read → Nat
  | .single address => address
  | .sized _ address _ => address
  | .float _ address => address
  | .double _ address => address
  | .fast1 address => address
  | .fast2 _ address => address
  | .fast4 _ address => address

def Read.size : Read → Nat
  | .single _ => 1
  | .sized _ _ size => size
  | .float _ _ => 4
  | .double _ _ => 8
  | .fast1 _ => 1
  | .fast2 _ _ => 2
  | .fast4 _ _ => 4

def Read.isLittle (c : Settings) : Read → Bool
  | .single _ => true
  | .sized order _ _ => order.isLittle c
  | .float order _ => order.isLittle c
  | .double order _ => order.isLittle c
  | .fast1 _ => true
  | .fast2 little _ => little
  | .fast4 little _ => little

/-- The value of a read when the MAUs have the given values. -/
def Read.value (c : Settings) (r : Read) (f : Nat → Nat) : Nat :=
  assemble c (r.isLittle c) ((List.range' r.address r.size).map f)

/-- The range checks that a read makes, and the width that a sized one can have. -/
def Read.Accepted (c : Settings) : Read → Prop
  | .sized _ address size => Memory.Accepted c address size
  | .float _ address => checkRange c address 4 = .ok () ∧
    ∀ a ∈ List.range' address 4, checkRange c a 1 = .ok ()
  | .double _ address => ∀ a ∈ List.range' address 8, checkRange c a 1 = .ok ()
  | _ => True

/-- The reads that the memory carries out: the MAUs are in the page table, and a sized read in big
endian has to fit into 32 bits. -/
def Read.Regular (c : Settings) (r : Read) : Prop :=
  r.Accepted c ∧ (∀ a ∈ List.range' r.address r.size, Covered c a) ∧
    match r with
    | .sized order _ size => order.isLittle c = false → c.MAUSize * size ≤ 32
    | _ => True

/-- The writes that the memory carries out at once. Those in little endian with a size and those of
floating point numbers are not among them. -/
def Write.Regular (c : Settings) : Write → Prop
  | .single address _ => Covered c address
  | .sized order address count _ => Memory.Accepted c address count ∧
    (∀ a ∈ List.range' address count, Covered c a) ∧ order.isLittle c = false
  | .float _ _ _ => False
  | .double _ _ _ => False
  | .fast1 address _ => Covered c address
  | .fast2 _ address _ => ∀ a ∈ List.range' address 2, Covered c a
  | .fast4 _ address _ => ∀ a ∈ List.range' address 4, Covered c a

def Access.Regular (c : Settings) : Access → Prop
  | .write w => w.Regular c
  | .read r => r.Regular c
  | .advanceClock => True

instance (r : Read) : Decidable (r.Accepted c) :=
  match r with
  | .sized _ address size => inferInstanceAs (Decidable (Memory.Accepted c address size))
  | .float _ address => inferInstanceAs (Decidable (checkRange c address 4 = .ok () ∧
    ∀ a ∈ List.range' address 4, checkRange c a 1 = .ok ()))
  | .double _ address => inferInstanceAs (Decidable
    (∀ a ∈ List.range' address 8, checkRange c a 1 = .ok ()))
  | .single _ => inferInstanceAs (Decidable True)
  | .fast1 _ => inferInstanceAs (Decidable True)
  | .fast2 _ _ => inferInstanceAs (Decidable True)
  | .fast4 _ _ => inferInstanceAs (Decidable True)

instance (w : Write) : Decidable (w.Regular c) :=
  match w with
  | .single address _ => inferInstanceAs (Decidable (Covered c address))
  | .sized _ address count _ => inferInstanceAs (Decidable (Memory.Accepted c address count ∧
    (∀ a ∈ List.range' address count, Covered c a) ∧ _))
  | .float _ _ _ => inferInstanceAs (Decidable False)
  | .double _ _ _ => inferInstanceAs (Decidable False)
  | .fast1 address _ => inferInstanceAs (Decidable (Covered c address))
  | .fast2 _ address _ => inferInstanceAs (Decidable (∀ a ∈ List.range' address 2, Covered c a))
  | .fast4 _ address _ => inferInstanceAs (Decidable (∀ a ∈ List.range' address 4, Covered c a))

instance (r : Read) : Decidable (r.Regular c) :=
  match r with
  | .sized _ _ _ => inferInstanceAs (Decidable (_ ∧ (∀ a ∈ _, Covered c a) ∧ (_ → _)))
  | .single _ => inferInstanceAs (Decidable (_ ∧ (∀ a ∈ _, Covered c a) ∧ True))
  | .float _ _ => inferInstanceAs (Decidable (_ ∧ (∀ a ∈ _, Covered c a) ∧ True))
  | .double _ _ => inferInstanceAs (Decidable (_ ∧ (∀ a ∈ _, Covered c a) ∧ True))
  | .fast1 _ => inferInstanceAs (Decidable (_ ∧ (∀ a ∈ _, Covered c a) ∧ True))
  | .fast2 _ _ => inferInstanceAs (Decidable (_ ∧ (∀ a ∈ _, Covered c a) ∧ True))
  | .fast4 _ _ => inferInstanceAs (Decidable (_ ∧ (∀ a ∈ _, Covered c a) ∧ True))

instance (op : Access) : Decidable (op.Regular c) :=
  match op with
  | .write w => inferInstanceAs (Decidable (w.Regular c))
  | .read r => inferInstanceAs (Decidable (r.Regular c))
  | .advanceClock => inferInstanceAs (Decidable True)

theorem descending_two (w i j : Nat) : descending w [i, j] = [(i, w), (j, 0)] := by
  simp only [descending, List.length_cons, List.length_nil, Nat.zero_add, Nat.mul_one, Nat.mul_zero]

theorem descending_four (w i j k l : Nat) :
    descending w [i, j, k, l] = [(i, w * 3), (j, w * 2), (k, w), (l, 0)] := by
  simp only [descending, List.length_cons, List.length_nil, Nat.zero_add, Nat.mul_one, Nat.mul_zero,
    Nat.reduceAdd]

/-- The offsets of the MAUs in the order of a fast access. -/
def offsets (little : Bool) (n : Nat) : List Nat :=
  if little then (List.range n).reverse else List.range n

theorem length_offsets (little : Bool) (n : Nat) : (offsets little n).length = n := by
  rw [offsets]
  cases little with
  | true => exact List.length_reverse.trans List.length_range
  | false => exact List.length_range

theorem mem_offsets (h : k ∈ offsets little n) : k < n := by
  rw [offsets] at h
  cases little with
  | true => exact List.mem_range.1 (List.mem_reverse.1 h)
  | false => exact List.mem_range.1 h

theorem covered_offsets (little : Bool) (h : ∀ a ∈ List.range' address n, Covered c a)
    (hn : 0 < n) :
    Covered c address ∧ ∀ k ∈ offsets little n, Covered c (address + k) := by
  refine ⟨h address (List.mem_range'_1.2 ⟨Nat.le_refl _, by omega⟩), fun k hk => ?_⟩
  have hlt := mem_offsets hk
  exact h _ (List.mem_range'_1.2 ⟨by omega, by omega⟩)

/-- What a fast write of two or four MAUs writes, up to the order. -/
theorem Holds.fastWrites {m : SRAM} {n : Nat} (h : Holds c m.contents writes)
    (hn : n = 2 ∨ n = 4) (hmau : c.MAUSize = 8) (little : Bool) (data : Nat)
    (hcov : ∀ a ∈ List.range' address n, Covered c a) :
    ∃ contents, DirectAccessMemory.fastWrite c m address data
        (descending c.MAUSize (offsets little n)) = .ok { m with contents := contents } ∧
      Holds c contents (writes ++ mauWrites address (maus c little data n)) := by
  have hlen := length_offsets little n
  have hpos : 0 < n := by omega
  obtain ⟨hfirst, hoffsets⟩ := covered_offsets little hcov hpos
  obtain ⟨contents, hok, hholds⟩ := h.fastWrite hfirst hoffsets (by rw [hlen, hmau]; omega) data
  refine ⟨contents, hok, ?_⟩
  rw [hlen] at hholds
  have hkeys : ((((offsets little n).map (address + ·)).zip
      (words c.MAUSize n data).reverse).map Prod.fst).Nodup := by
    rw [List.map_fst_zip]
    · apply List.Nodup.map (fun i j hij => Nat.add_left_cancel hij)
      rw [offsets]
      cases little with
      | true => exact List.nodup_reverse.2 List.nodup_range
      | false => exact List.nodup_range
    · rw [List.length_map, hlen, List.length_reverse, length_words]
  apply hholds.perm hkeys
  cases little with
  | true =>
    rcases hn with rfl | rfl
    · exact List.reverse_perm (mauWrites address (words c.MAUSize 2 data))
    · exact List.reverse_perm (mauWrites address (words c.MAUSize 4 data))
  | false =>
    rcases hn with rfl | rfl
    · exact List.Perm.refl _
    · exact List.Perm.refl _

theorem Holds.fastReads {m : SRAM} {n : Nat} (h : Holds c m.contents writes)
    (hn : n = 2 ∨ n = 4) (hmau : c.MAUSize = 8) (little : Bool)
    (hcov : ∀ a ∈ List.range' address n, Covered c a) :
    fastRead c m address (descending c.MAUSize (offsets little n)) =
      .ok (assemble c little ((List.range' address n).map (lastValue writes))) := by
  have hlen := length_offsets little n
  have hpos : 0 < n := by omega
  obtain ⟨hfirst, hoffsets⟩ := covered_offsets little hcov hpos
  have hread := h.foldlM_parts hfirst hoffsets (by rw [hlen, hmau]; omega) 0
  rw [Nat.zero_mul, Nat.zero_add] at hread
  rw [DirectAccessMemory.fastRead, hread]
  have hrange : List.range' address n = (List.range n).map (address + ·) := by
    rw [List.range'_eq_map_range]
  rw [assemble, hrange, List.map_map, offsets]
  cases little with
  | true =>
    rw [if_pos rfl, if_pos rfl, List.map_reverse, List.reverse_reverse]
    rfl
  | false =>
    rw [if_neg Bool.false_ne_true, if_neg Bool.false_ne_true]
    rfl

/-- A sized write in big endian is queued and carried out at once. -/
theorem Holds.writeBE {m : SRAM} (h : Holds c m.contents writes) (hqueue : m.writeRequests = [])
    (hacc : Memory.Accepted c address count) (hcov : ∀ a ∈ List.range' address count, Covered c a)
    (data : Nat) :
    ∃ contents, DirectAccessMemory.writeBE c m address count data = .ok ⟨contents, []⟩ ∧
      Holds c contents (writes ++ mauWrites address (maus c false data count)) := by
  have hwrite : Memory.writeBE c m address count data = _ := writeIn_eq hacc m .big data
  have hlen : (maus c false data count).length = count := length_maus
  obtain ⟨contents, hok, hholds⟩ := Holds.commit
    (m := ⟨m.contents, [⟨maus c false data count, address⟩]⟩) h (by rwa [hlen])
    fun d hd => lt_of_mem_maus hd
  refine ⟨contents, ?_, hholds⟩
  rw [DirectAccessMemory.writeBE, hwrite, hqueue]
  change flush c ⟨m.contents, [⟨maus c false data count, address⟩]⟩ = _
  rw [flush, List.foldlM_cons]
  change (DirectAccessMemory.commit c _ (maus c false data count) address >>= _) >>= _ = _
  rw [hok]
  rfl

/-- The memory is what the writes made of it, and no write is left to be carried out. -/
structure Tracks (c : Settings) (m : SRAM) (writes : List (Nat × Nat)) : Prop where
  holds : Holds c m.contents writes
  writeRequests_eq : m.writeRequests = []

theorem Tracks.write {m : SRAM} (h : Tracks c m writes) (hmau : c.MAUSize = 8) (w : Write)
    (hw : w.Regular c) :
    ∃ m', DirectAccessMemory.write c m w = .ok m' ∧ Tracks c m' (writes ++ writesOf c w) := by
  have hone (address data : Nat) :
      mauWrites address (maus c true data 1) = [(address, data % 2 ^ c.MAUSize)] := rfl
  cases w with
  | single address data =>
    obtain ⟨contents, hok, hholds⟩ := h.holds.fastWriteMAU hw data
    rw [writesOf, hone]
    exact ⟨_, hok, hholds, h.writeRequests_eq⟩
  | fast1 address data =>
    obtain ⟨contents, hok, hholds⟩ := h.holds.fastWriteMAU hw data
    rw [writesOf, hone]
    exact ⟨_, hok, hholds, h.writeRequests_eq⟩
  | float order address bits => exact hw.elim
  | double order address bits => exact hw.elim
  | sized order address count data =>
    obtain ⟨hacc, hcov, hbig⟩ := hw
    obtain ⟨contents, hok, hholds⟩ := h.holds.writeBE h.writeRequests_eq hacc hcov data
    rw [DirectAccessMemory.write, writeIn, writesOf, hbig]
    exact ⟨_, hok, hholds, rfl⟩
  | fast2 little address data =>
    obtain ⟨contents, hok, hholds⟩ := h.holds.fastWrites (.inl rfl) hmau little data hw
    refine ⟨{ m with contents := contents }, ?_, hholds, h.writeRequests_eq⟩
    rw [← hok, DirectAccessMemory.write]
    cases little with
    | true => exact congrArg (fastWrite c m address data) (descending_two c.MAUSize 1 0).symm
    | false => exact congrArg (fastWrite c m address data) (descending_two c.MAUSize 0 1).symm
  | fast4 little address data =>
    obtain ⟨contents, hok, hholds⟩ := h.holds.fastWrites (.inr rfl) hmau little data hw
    refine ⟨{ m with contents := contents }, ?_, hholds, h.writeRequests_eq⟩
    rw [← hok, DirectAccessMemory.write]
    cases little with
    | true => exact congrArg (fastWrite c m address data) (descending_four c.MAUSize 3 2 1 0).symm
    | false => exact congrArg (fastWrite c m address data) (descending_four c.MAUSize 0 1 2 3).symm

/-- A floating point number is read byte by byte. -/
theorem Holds.readFloat {m : SRAM} {n : Nat} (h : Holds c m.contents writes)
    (hmau : c.MAUSize = 8) (little : Bool)
    (hcheck : ∀ a ∈ List.range' address n, checkRange c a 1 = .ok ())
    (hcov : ∀ a ∈ List.range' address n, Covered c a) :
    readBytes c m (if little then .little else .big) address (places little n) =
      .ok (assemble c little ((List.range' address n).map (lastValue writes))) := by
  have hf (a : Nat) (ha : a ∈ List.range' address n) :
      Memory.readIn c m (if little then .little else .big) a 1 = .ok (lastValue writes a) ∧
        lastValue writes a < 2 ^ 8 := by
    have hread := h.readMAU (hcov a ha)
    rw [readMAU_eq] at hread
    rw [← hmau]
    refine ⟨?_, hread.2⟩
    rw [Memory.readIn_eq (f := lastValue writes)]
    · rw [assemble]
      split
      · exact congrArg _ (Nat.ofDigits_singleton ..)
      · exact congrArg _ (Nat.ofDigits_singleton ..)
    · intro b hb
      rw [List.mem_singleton.1 hb]
      exact hread
    · exact ⟨hcheck a ha, by rw [hmau]; decide⟩
    · intro _
      rw [hmau]
      decide
  rw [places_eq, assemble, hmau]
  cases little with
  | true =>
    have hup := readBytes_up 0 hf
    rw [Nat.mul_zero, Nat.pow_zero, Nat.one_mul] at hup
    exact hup
  | false => exact readBytes_down hf

/-- Every read gives the last values. -/
theorem Holds.read {m : SRAM} (h : Holds c m.contents writes) (hmau : c.MAUSize = 8) (r : Read)
    (hr : r.Regular c) :
    DirectAccessMemory.read c m r = .ok (r.value c (lastValue writes)) := by
  obtain ⟨hacc, hcov, hwidth⟩ := hr
  have hone (a : Nat) : a ∈ List.range' a 1 := List.mem_singleton_self a
  have hsingle (address : Nat) : assemble c true ((List.range' address 1).map (lastValue writes)) =
      lastValue writes address := Nat.ofDigits_singleton ..
  cases r with
  | single address =>
    rw [Read.value]
    exact (h.readMAU (hcov address (hone address))).1.trans (congrArg _ (hsingle address).symm)
  | fast1 address =>
    rw [Read.value]
    exact (h.readMAU (hcov address (hone address))).1.trans (congrArg _ (hsingle address).symm)
  | sized order address size =>
    apply Memory.readIn_eq _ hacc hwidth
    intro a ha
    rw [← readMAU_eq]
    exact h.readMAU (hcov a ha)
  | float order address =>
    rw [DirectAccessMemory.read, DirectAccessMemory.readFloat, if_pos hmau, hacc.1]
    exact h.readFloat hmau (order.isLittle c) hacc.2 hcov
  | double order address =>
    rw [DirectAccessMemory.read, readDouble, if_pos hmau]
    exact h.readFloat hmau (order.isLittle c) hacc hcov
  | fast2 little address =>
    have hread : fastRead c m address (descending c.MAUSize (offsets little 2)) = _ :=
      h.fastReads (.inl rfl) hmau little hcov
    refine Eq.trans ?_ hread
    cases little with
    | true => exact congrArg (fastRead c m address) (descending_two c.MAUSize 1 0).symm
    | false => exact congrArg (fastRead c m address) (descending_two c.MAUSize 0 1).symm
  | fast4 little address =>
    have hread : fastRead c m address (descending c.MAUSize (offsets little 4)) = _ :=
      h.fastReads (.inr rfl) hmau little hcov
    refine Eq.trans ?_ hread
    cases little with
    | true => exact congrArg (fastRead c m address) (descending_four c.MAUSize 3 2 1 0).symm
    | false => exact congrArg (fastRead c m address) (descending_four c.MAUSize 0 1 2 3).symm

theorem Tracks.step {m : SRAM} (h : Tracks c m writes) (hmau : c.MAUSize = 8) (op : Access)
    (hop : op.Regular c) :
    ∃ m', DirectAccessMemory.step c m op = .ok m' ∧ Tracks c m' (record c writes op) := by
  cases op with
  | write w => exact h.write hmau w hop
  | read r =>
    rw [DirectAccessMemory.step, h.holds.read hmau r hop]
    exact ⟨m, rfl, h⟩
  | advanceClock => exact ⟨m, rfl, h⟩

theorem Tracks.run {m : SRAM} {ops : List Access} (h : Tracks c m writes) (hmau : c.MAUSize = 8)
    (hops : ∀ op ∈ ops, op.Regular c) :
    ∃ m', ops.foldlM (DirectAccessMemory.step c) m = .ok m' ∧
      Tracks c m' (ops.foldl (record c) writes) := by
  induction ops generalizing m writes with
  | nil => exact ⟨m, rfl, h⟩
  | cons op ops ih =>
    obtain ⟨m₁, hok, htracks⟩ := h.step hmau op (hops op List.mem_cons_self)
    rw [List.foldlM_cons, hok]
    exact ih htracks fun o ho => hops o (List.mem_cons_of_mem op ho)

/-- The sized read with the address, the size and the byte order of a fast one. -/
def Read.slow : Read → Read
  | .fast1 address => .sized .big address 1
  | .fast2 little address => .sized (if little then .little else .big) address 2
  | .fast4 little address => .sized (if little then .little else .big) address 4
  | r => r

theorem Read.slow_value (c : Settings) (r : Read) (f : Nat → Nat) :
    r.slow.value c f = r.value c f := by
  cases r with
  | fast1 address => rfl
  | fast2 little address => cases little <;> rfl
  | fast4 little address => cases little <;> rfl
  | _ => rfl

/-- After every run of accesses that the memory carries out at once, every read gives the value of
the last write to each MAU, and the fast reads give what the sized ones give. -/
theorem read_lastWritten (c : Settings) (hmau : c.MAUSize = 8) (ops : List Access)
    (hops : ∀ op ∈ ops, op.Regular c) :
    ∃ m, ops.foldlM (step c) (new c) = .ok m ∧
      ∀ r : Read, r.Regular c →
        read c m r = .ok (r.value c (lastValue (ops.foldl (record c) []))) ∧
        (r.slow.Regular c → read c m r = read c m r.slow) := by
  obtain ⟨m, hrun, htracks⟩ := Tracks.run ⟨Holds.new c, rfl⟩ hmau hops
  refine ⟨m, hrun, fun r hr => ⟨htracks.holds.read hmau r hr, fun hslow => ?_⟩⟩
  rw [htracks.holds.read hmau r hr, htracks.holds.read hmau r.slow hslow, Read.slow_value]

/-- A word is written fast in little endian and its second byte is written again in big endian. -/
theorem read_lastWritten_word :
    ∃ m, [.write (.fast4 true 4 0x11223344), .write (.sized .big 5 1 0xff)].foldlM
        (step (byteMemory 15 true (by decide))) (new (byteMemory 15 true (by decide))) = .ok m ∧
      read (byteMemory 15 true (by decide)) m (.fast4 false 4) = .ok 0x44ff2211 := by
  obtain ⟨m, hrun, hread⟩ := read_lastWritten (byteMemory 15 true (by decide)) rfl
    [.write (.fast4 true 4 0x11223344), .write (.sized .big 5 1 0xff)] (by decide +kernel)
  exact ⟨m, hrun, (hread (.fast4 false 4) (by decide +kernel)).1⟩

/-- A write of a word in the byte order of a little endian memory is not seen by the read after it,
and a write in little endian that still waits replaces a later one. -/
theorem read_not_lastWritten :
    (Memory.Accepted (byteMemory 15 true (by decide)) 0 4 ∧
      ¬ ∃ m, [.write (.sized .own 0 4 0x11223344)].foldlM
          (step (byteMemory 15 true (by decide))) (new (byteMemory 15 true (by decide))) = .ok m ∧
        read (byteMemory 15 true (by decide)) m (.sized .own 0 4) = .ok 0x11223344) ∧
    ¬ ∃ m, [.write (.sized .little 0 1 5), .write (.single 0 7), .write (.sized .big 4 1 0)].foldlM
        (step (byteMemory 15 false (by decide))) (new (byteMemory 15 false (by decide))) = .ok m ∧
      read (byteMemory 15 false (by decide)) m (.single 0) = .ok 7 := by
  refine ⟨⟨by decide, ?_⟩, ?_⟩
  · rintro ⟨m, hrun, hread⟩
    have hold : ([.write (.sized .own 0 4 0x11223344)].foldlM
        (step (byteMemory 15 true (by decide))) (new (byteMemory 15 true (by decide))) >>=
          fun m => read (byteMemory 15 true (by decide)) m (.sized .own 0 4)) = .ok 0 := by
      decide +kernel
    rw [hrun] at hold
    cases hread.symm.trans hold
  · rintro ⟨m, hrun, hread⟩
    have hold : ([.write (.sized .little 0 1 5), .write (.single 0 7),
        .write (.sized .big 4 1 0)].foldlM
          (step (byteMemory 15 false (by decide))) (new (byteMemory 15 false (by decide))) >>=
            fun m => read (byteMemory 15 false (by decide)) m (.single 0)) = .ok 5 := by
      decide +kernel
    rw [hrun] at hold
    cases hread.symm.trans hold

end DirectAccessMemory

end OpenAsip
