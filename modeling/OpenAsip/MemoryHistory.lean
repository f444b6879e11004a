import Mathlib.Data.List.Induction
import OpenAsip.MemoryWords

namespace OpenAsip
set_option autoImplicit true

namespace Memory

/-- The MAUs of a value, from the lowest address on. -/
def maus (c : Settings) (little : Bool) (value count : Nat) : List Nat :=
  if little then words c.MAUSize count value else (words c.MAUSize count value).reverse

/-- The value of MAUs that are given from the lowest address on. -/
def assemble (c : Settings) (little : Bool) (data : List Nat) : Nat :=
  Nat.ofDigits (2 ^ c.MAUSize) (if little then data else data.reverse)

/-- The writes of single MAUs that a write consists of. -/
def mauWrites (address : Nat) (data : List Nat) : List (Nat × Nat) :=
  (List.range' address data.length).zip data

/-- The writes of single MAUs that are committed and those that are not, in the order in which they
are issued. -/
def record (c : Settings) (h : List (Nat × Nat) × List (Nat × Nat)) :
    Operation → List (Nat × Nat) × List (Nat × Nat)
  | .write order address count data =>
    (h.1, h.2 ++ mauWrites address (maus c (order.isLittle c) data count))
  | .read _ _ _ => h
  | .advanceClock => (h.1 ++ h.2, [])

def committedWrites (c : Settings) (ops : List Operation) : List (Nat × Nat) :=
  (ops.foldl (record c) ([], [])).1

/-- The value of the last of some writes to an address. The memory is empty at first. -/
def lastValue (writes : List (Nat × Nat)) (address : Nat) : Nat :=
  (writes.reverse.lookup address).getD 0

theorem assemble_maus (c : Settings) :
    assemble c little (maus c little value count) = value % 2 ^ (c.MAUSize * count) := by
  rw [assemble, maus]
  cases little with
  | true => exact ofDigits_words
  | false =>
    simp only [Bool.false_eq_true, if_false, List.reverse_reverse]
    exact ofDigits_words

/-- The addresses that the page table and its 32-bit indices cover. -/
def Covered (c : Settings) (address : Nat) : Prop :=
  c.start % 2 ^ 32 ≤ address ∧
    address < c.start % 2 ^ 32 + min (new c).contents.capacity (2 ^ 32)

instance : Decidable (Covered c address) := inferInstanceAs (Decidable (_ ∧ _))

theorem index_eq (h : Covered c address) :
    index c address = address - c.start % 2 ^ 32 ∧
      index c (address % 2 ^ 32) = address - c.start % 2 ^ 32 := by
  have hlt := c.start_lt
  have hlow := h.1
  have hhigh : address < c.start % 2 ^ 32 + 2 ^ 32 :=
    Nat.lt_of_lt_of_le h.2 (Nat.add_le_add_left (Nat.min_le_right _ _) _)
  rw [index, index]
  omega

theorem index_lt (h : Covered c address) :
    address - c.start % 2 ^ 32 < (new c).contents.capacity := by
  have hle := Nat.min_le_left (new c).contents.capacity (2 ^ 32)
  have hlow := h.1
  have hhigh := h.2
  omega

/-- The contents hold the last values of some writes. -/
structure Holds (c : Settings) (contents : PagedArray Nat memChunkSize)
    (writes : List (Nat × Nat)) : Prop where
  capacity_eq : contents.capacity = (new c).contents.capacity
  value : ∀ a, Covered c a →
    contents.readData 0 (a - c.start % 2 ^ 32) = .ok (lastValue writes a)

theorem lastValue_append_singleton :
    lastValue (writes ++ [(address, d)]) a = if a = address then d else lastValue writes a := by
  rw [lastValue, List.reverse_append]
  change (List.lookup a ((address, d) :: writes.reverse)).getD 0 = _
  by_cases he : a = address
  · rw [if_pos he, he, List.lookup_cons_self]
    rfl
  · rw [if_neg he, List.lookup_cons, beq_false_of_ne he]
    rfl

theorem Holds.index_lt (h : Holds c contents writes) (ha : Covered c address) :
    address - c.start % 2 ^ 32 < contents.capacity := by
  rw [h.capacity_eq]
  exact Memory.index_lt ha

/-- One MAU is committed. -/
theorem Holds.writeData (h : Holds c contents writes) (ha : Covered c address) (d : Nat) :
    ∃ contents', contents.writeData (index c (address % 2 ^ 32)) d = .ok contents' ∧
      Holds c contents' (writes ++ [(address, d)]) := by
  obtain ⟨contents', hok, hcap, hread⟩ := contents.writeData_spec d (h.index_lt ha)
  refine ⟨contents', ?_, hcap.trans h.capacity_eq, ?_⟩
  · rw [(index_eq ha).2, hok]
  · intro a hcov
    rw [hread _ (h.index_lt hcov), lastValue_append_singleton]
    have hsame : a - c.start % 2 ^ 32 = address - c.start % 2 ^ 32 ↔ a = address := by
      have h1 := hcov.1
      have h2 := ha.1
      omega
    by_cases he : a = address
    · rw [if_pos (hsame.2 he), if_pos he]
    · rw [if_neg (mt hsame.1 he), if_neg he, h.value a hcov]

theorem Holds.commit (h : Holds c contents writes)
    (ha : ∀ a ∈ List.range' address data.length, Covered c a) :
    ∃ contents', commit c data address contents = .ok contents' ∧
      Holds c contents' (writes ++ mauWrites address data) := by
  induction data generalizing address contents writes with
  | nil =>
    rw [mauWrites, List.zip_nil_right, List.append_nil]
    exact ⟨contents, rfl, h⟩
  | cons d data ih =>
    rw [List.length_cons, List.range'_succ] at ha
    obtain ⟨contents₁, hok, hholds⟩ := h.writeData (ha address List.mem_cons_self) d
    obtain ⟨contents', hrest, hholds'⟩ := ih hholds fun a hm => ha a (List.mem_cons_of_mem _ hm)
    rw [Memory.commit, hok]
    refine ⟨contents', hrest, ?_⟩
    rwa [List.append_assoc] at hholds'

theorem Holds.commitAll {requests : List WriteRequest} (h : Holds c contents writes)
    (ha : ∀ r ∈ requests, ∀ a ∈ List.range' r.address r.data.length, Covered c a) :
    ∃ contents', requests.foldlM (fun contents r => Memory.commit c r.data r.address contents)
        contents = .ok contents' ∧
      Holds c contents' (writes ++ requests.flatMap fun r => mauWrites r.address r.data) := by
  induction requests generalizing contents writes with
  | nil =>
    rw [List.flatMap_nil, List.append_nil]
    exact ⟨contents, rfl, h⟩
  | cons r requests ih =>
    obtain ⟨contents₁, hok, hholds⟩ := h.commit (ha r List.mem_cons_self)
    obtain ⟨contents', hrest, hholds'⟩ := ih hholds fun s hs => ha s (List.mem_cons_of_mem r hs)
    rw [List.foldlM_cons, hok, List.flatMap_cons]
    refine ⟨contents', hrest, ?_⟩
    rwa [List.append_assoc] at hholds'

theorem mem_mauWrites (h : p ∈ mauWrites address data) :
    p.1 ∈ List.range' address data.length ∧ p.2 ∈ data :=
  List.of_mem_zip h

theorem lastValue_append (h : ∀ p ∈ later, p.1 ≠ a) :
    lastValue (writes ++ later) a = lastValue writes a := by
  induction later generalizing writes with
  | nil => rw [List.append_nil]
  | cons p later ih =>
    have hne : ¬ a = p.1 := fun he => h p List.mem_cons_self he.symm
    have hcons : writes ++ p :: later = writes ++ [(p.1, p.2)] ++ later := by
      rw [List.append_assoc]
      rfl
    rw [hcons, ih fun q hq => h q (List.mem_cons_of_mem p hq), lastValue_append_singleton,
      if_neg hne]

/-- The last values are those of a write when the later ones go to other addresses. -/
theorem map_lastValue_mauWrites (writes later : List (Nat × Nat)) (address : Nat) (data : List Nat)
    (h : ∀ p ∈ later, p.1 ∉ List.range' address data.length) :
    (List.range' address data.length).map (lastValue (writes ++ mauWrites address data ++ later)) =
      data := by
  induction data generalizing address writes with
  | nil => rfl
  | cons d data ih =>
    have hsplit : writes ++ mauWrites address (d :: data) ++ later =
        writes ++ [(address, d)] ++ (mauWrites (address + 1) data ++ later) := by
      rw [mauWrites, List.length_cons, List.range'_succ, List.zip_cons_cons, mauWrites]
      simp only [List.append_assoc, List.cons_append, List.nil_append]
    have hfirst : ∀ p ∈ mauWrites (address + 1) data ++ later, p.1 ≠ address := by
      intro p hp he
      rcases List.mem_append.1 hp with hp | hp
      · have hle := (List.mem_range'_1.1 (mem_mauWrites hp).1).1
        omega
      · apply h p hp
        rw [he]
        exact List.mem_range'_1.2 ⟨Nat.le_refl _, by rw [List.length_cons]; omega⟩
    have hrest : ∀ p ∈ later, p.1 ∉ List.range' (address + 1) data.length := by
      intro p hp hm
      apply h p hp
      rw [List.length_cons, List.range'_succ]
      exact List.mem_cons_of_mem _ hm
    rw [List.length_cons, List.range'_succ, List.map_cons, hsplit, lastValue_append hfirst,
      lastValue_append_singleton, if_pos rfl, ← List.append_assoc,
      ih _ _ hrest]

theorem lastValue_lt (h : ∀ p ∈ writes, p.2 < 2 ^ w) (a : Nat) : lastValue writes a < 2 ^ w := by
  induction writes using List.reverseRecOn with
  | nil => exact Nat.two_pow_pos w
  | append_singleton writes p ih =>
    rw [lastValue_append_singleton (d := p.2)]
    split
    · exact h p (List.mem_append_right _ List.mem_cons_self)
    · exact ih fun q hq => h q (List.mem_append_left _ hq)

/-- The operations that the memory is promised to carry out: the range check accepts them and they
are at most 64 bits wide. -/
structure Accepted (c : Settings) (address count : Nat) : Prop where
  checked : checkRange c address count = .ok ()
  width_le : c.MAUSize * count ≤ 64

/-- The operations that it does carry out. The MAUs have to be in the page table, and a read in big
endian has to fit into 32 bits. -/
def Regular (c : Settings) : Operation → Prop
  | .write _ address count _ =>
    Accepted c address count ∧ ∀ a ∈ List.range' address count, Covered c a
  | .read order address size =>
    Accepted c address size ∧ (∀ a ∈ List.range' address size, Covered c a) ∧
      (order.isLittle c = false → c.MAUSize * size ≤ 32)
  | .advanceClock => True

/-- The memory is what the history of its operations makes of it. -/
structure Tracks (c : Settings) (m : SRAM) (h : List (Nat × Nat) × List (Nat × Nat)) : Prop where
  holds : Holds c m.contents h.1
  pending : (m.writeRequests.flatMap fun r => mauWrites r.address r.data) = h.2
  covered : ∀ r ∈ m.writeRequests, ∀ a ∈ List.range' r.address r.data.length, Covered c a
  values : ∀ p ∈ h.1 ++ h.2, p.2 < 2 ^ c.MAUSize

instance : Decidable (Accepted c address count) :=
  decidable_of_iff (checkRange c address count = .ok () ∧ c.MAUSize * count ≤ 64)
    ⟨fun h => ⟨h.1, h.2⟩, fun h => ⟨h.checked, h.width_le⟩⟩

instance (op : Operation) : Decidable (Regular c op) :=
  match op with
  | .write _ address count _ =>
    inferInstanceAs (Decidable (Accepted c address count ∧ ∀ a ∈ List.range' address count, _))
  | .read _ address size =>
    inferInstanceAs (Decidable (Accepted c address size ∧
      (∀ a ∈ List.range' address size, Covered c a) ∧ (_ → _)))
  | .advanceClock => inferInstanceAs (Decidable True)

theorem Accepted.address_lt (h : Accepted c address count) : address < 2 ^ 32 := by
  have hok := h.checked
  rw [checkRange] at hok
  split at hok
  · cases hok
  · omega

theorem Accepted.count_le (h : Accepted c address count) : count ≤ maxAccessSize := by
  have hle := h.width_le
  have hmul := Nat.mul_le_mul_right count c.MAUSize_pos
  rw [maxAccessSize]
  omega

theorem length_maus : (maus c little data count).length = count := by
  rw [maus]
  cases little with
  | true => exact length_words
  | false => exact List.length_reverse.trans length_words

theorem lt_of_mem_maus (h : d ∈ maus c little data count) : d < 2 ^ c.MAUSize := by
  rw [maus] at h
  cases little with
  | true => exact lt_of_mem_words h
  | false => exact lt_of_mem_words (List.mem_reverse.1 h)

theorem writeIn_eq (h : Accepted c address count) (m : SRAM) (order : ByteOrder) (data : Nat) :
    writeIn c m order address count data = .ok { m with
      writeRequests := m.writeRequests ++ [⟨maus c (order.isLittle c) data count, address⟩] } := by
  have hunpack (little : Bool) (unpacked : Outcome (List Nat))
      (hu : unpacked = .ok (maus c little data count)) :
      writeUnpacked c m address count unpacked = .ok { m with
        writeRequests := m.writeRequests ++ [⟨maus c little data count, address⟩] } := by
    rw [writeUnpacked, h.checked, hu, Nat.mod_eq_of_lt h.address_lt]
    change (if maxAccessSize < count then _ else _) = _
    rw [if_neg (Nat.not_lt.2 h.count_le)]
    rfl
  have hlittle : writeLE c m address count data = _ :=
    hunpack true _ (by
      have hup := unpackLoop_up c data 0 (n := count) (by rw [Nat.zero_add]; exact h.width_le)
      rwa [Nat.mul_zero, Nat.pow_zero, Nat.div_one] at hup)
  have hbig : writeBE c m address count data = _ :=
    hunpack false _ (unpackLoop_down c data h.width_le)
  cases order with
  | own =>
    rw [writeIn, write, ByteOrder.isLittle]
    cases c.littleEndian with
    | true => exact hlittle
    | false => exact hbig
  | big => exact hbig
  | little => exact hlittle

theorem Tracks.readMAU (h : Tracks c m hist) (ha : Covered c a) :
    readMAU c m a = .ok (lastValue hist.1 a) ∧ lastValue hist.1 a < 2 ^ c.MAUSize := by
  refine ⟨?_, lastValue_lt (fun p hp => h.values p (List.mem_append_left _ hp)) a⟩
  rw [Memory.readMAU, (index_eq ha).1, h.holds.value a ha]

/-- A read puts the MAUs together, whatever holds them. -/
theorem readIn_eq {f : Nat → Nat}
    (hf : ∀ a ∈ List.range' address size, readMAU c m a = .ok (f a) ∧ f a < 2 ^ c.MAUSize)
    (hacc : Accepted c address size) (hwidth : order.isLittle c = false → c.MAUSize * size ≤ 32) :
    readIn c m order address size = .ok (assemble c (order.isLittle c)
      ((List.range' address size).map f)) := by
  have hlittle : readLE c m address size = .ok (assemble c true
      ((List.range' address size).map f)) := by
    have hup := readLoop_up 0 hf (by rw [Nat.zero_add]; exact hacc.width_le)
      (Nat.two_pow_pos _)
    rw [Nat.mul_zero, Nat.pow_zero, Nat.one_mul, Nat.zero_add] at hup
    rw [readLE, hacc.checked]
    exact hup
  have hbig (hw : c.MAUSize * size ≤ 32) : readBE c m address size = .ok (assemble c false
      ((List.range' address size).map f)) := by
    have hdown := readLoop_down hf hw 0
    rw [Nat.zero_mul, Nat.zero_add] at hdown
    rw [readBE, hacc.checked]
    exact hdown
  cases order with
  | own =>
    rw [Memory.readIn, read]
    rw [ByteOrder.isLittle] at hwidth ⊢
    cases hl : c.littleEndian with
    | true => exact hlittle
    | false => exact hbig (hwidth hl)
  | big => exact hbig (hwidth rfl)
  | little => exact hlittle

/-- A read sees the committed writes only. -/
theorem Tracks.readIn (h : Tracks c m hist) (hr : Regular c (.read order address size)) :
    readIn c m order address size = .ok (assemble c (order.isLittle c)
      ((List.range' address size).map (lastValue hist.1))) := by
  obtain ⟨hacc, hcov, hwidth⟩ := hr
  exact readIn_eq (fun a ha => h.readMAU (hcov a ha)) hacc hwidth

theorem Tracks.new (c : Settings) : Tracks c (new c) ([], []) := by
  refine ⟨⟨rfl, ?_⟩, rfl, ?_, ?_⟩
  · intro a ha
    exact PagedArray.readData_new (index_lt ha)
  · intro r hr
    cases hr
  · intro p hp
    cases hp

/-- One operation keeps the memory and its history together. -/
theorem Tracks.step (h : Tracks c m hist) (op : Operation) (hop : Regular c op) :
    ∃ m', step c m op = .ok m' ∧ Tracks c m' (record c hist op) := by
  cases op with
  | write order address count data =>
    obtain ⟨hacc, hcov⟩ := hop
    rw [Memory.step, writeIn_eq hacc]
    refine ⟨_, rfl, h.holds, ?_, ?_, ?_⟩
    · rw [List.flatMap_append, h.pending]
      change _ ++ (mauWrites _ _ ++ []) = _
      rw [List.append_nil]
      rfl
    · intro r hr
      rcases List.mem_append.1 hr with hr | hr
      · exact h.covered r hr
      · cases List.mem_singleton.1 hr
        rw [length_maus]
        exact hcov
    · intro p hp
      rw [record, ← List.append_assoc] at hp
      rcases List.mem_append.1 hp with hp | hp
      · exact h.values p hp
      · exact lt_of_mem_maus (mem_mauWrites hp).2
  | read order address size =>
    rw [Memory.step, h.readIn hop]
    exact ⟨m, rfl, h⟩
  | advanceClock =>
    obtain ⟨contents, hok, hholds⟩ := h.holds.commitAll h.covered
    rw [h.pending] at hholds
    rw [Memory.step, advanceClock, hok]
    refine ⟨_, rfl, hholds, rfl, ?_, ?_⟩
    · intro r hr
      cases hr
    · intro p hp
      rw [record, List.append_nil] at hp
      exact h.values p hp

theorem Tracks.run {ops : List Operation} (h : Tracks c m hist) (hops : ∀ op ∈ ops, Regular c op) :
    ∃ m', ops.foldlM (Memory.step c) m = .ok m' ∧ Tracks c m' (ops.foldl (record c) hist) := by
  induction ops generalizing m hist with
  | nil => exact ⟨m, rfl, h⟩
  | cons op ops ih =>
    obtain ⟨m₁, hok, htracks⟩ := h.step op (hops op List.mem_cons_self)
    rw [List.foldlM_cons, hok]
    exact ih htracks fun o ho => hops o (List.mem_cons_of_mem op ho)

/-- A memory of bytes from address 0 on. -/
def byteMemory (stop : Nat) (littleEndian : Bool) (h : stop < 2 ^ 64) : Settings :=
  ⟨0, stop, 8, littleEndian, Nat.two_pow_pos 64, h, Nat.succ_pos 7, Nat.le_add_right 8 24⟩

end Memory

end OpenAsip
