import OpenAsip.DirectAccessMemory

namespace OpenAsip
set_option autoImplicit true

/-- The last index, which is the size, is only in the table when it begins no page. -/
theorem PagedArray.size_lt_capacity_iff (h : size < 2 ^ 53) :
    size < (PagedArray.new size : PagedArray α Memory.memChunkSize).capacity ↔
      size % 1024 ≠ 0 := by
  rw [Memory.memChunkSize, capacity, new, List.length_replicate, pageTableSize, toDouble_of_lt h]
  omega

namespace Memory

/-- An access lies in the memory. -/
def InMemory (c : Settings) (address size : Nat) : Prop :=
  c.start ≤ address ∧ address + size - 1 ≤ c.stop

/-- The accesses of a size that are accepted are those in the memory, and both kinds of memories
have pages for them. -/
structure RangesRight (c : Settings) (size : Nat) : Prop where
  accepts : ∀ address < 2 ^ 64, checkRange c address size = .ok () ↔ InMemory c address size
  idealSRAM : ∀ address < 2 ^ 64, checkRange c address size = .ok () → ∀ i < size,
    index c (address + i) < (new c).contents.capacity
  directAccess : ∀ address < 2 ^ 64, checkRange c address size = .ok () → ∀ i < size,
    DirectAccessMemory.index c (address + i) < (DirectAccessMemory.new c).contents.capacity

/-- A memory with room for an access has its last such access below `2 ^ 32`, and the distance of
its last address from the first one is below `2 ^ 32` and not a multiple of the page size. For a
memory without room the last address of accesses that the check computes is before the first. -/
def RangesFit (c : Settings) (size : Nat) : Prop :=
  if c.start + size ≤ c.stop + 1 then c.stop + 1 < 2 ^ 32 + size ∧
    c.stop - c.start < 2 ^ 32 ∧ (c.stop - c.start) % 1024 ≠ 0
  else (c.stop % 2 ^ 32 + 1 + 2 ^ 32 - size) % 2 ^ 32 < c.start % 2 ^ 32

theorem checkRange_ok_iff (c : Settings) (address : Nat) (hle : size ≤ 64) :
    checkRange c address size = .ok () ↔ c.start % 2 ^ 32 ≤ address ∧
      address ≤ (c.stop % 2 ^ 32 + 1 + 2 ^ 32 - size) % 2 ^ 32 := by
  have hhigh : c.stop % 2 ^ 32 + 2 ^ 32 - size % 2 ^ 32 + 1 =
      c.stop % 2 ^ 32 + 1 + 2 ^ 32 - size := by omega
  simp only [checkRange, hhigh]
  split
  · rename_i hout
    constructor
    · intro h
      cases h
    · intro h
      omega
  · rename_i hin
    exact ⟨fun _ => by omega, fun _ => rfl⟩

/-- The bounds are those of the memory when they are not cut off. -/
theorem accepts_iff (c : Settings) (hpos : 1 ≤ size) (hle : size ≤ 64) :
    (∀ address < 2 ^ 64, checkRange c address size = .ok () ↔ InMemory c address size) ↔
      if c.start + size ≤ c.stop + 1 then c.stop + 1 < 2 ^ 32 + size
      else (c.stop % 2 ^ 32 + 1 + 2 ^ 32 - size) % 2 ^ 32 < c.start % 2 ^ 32 := by
  have hstop := c.stop_lt
  simp only [checkRange_ok_iff c _ hle, InMemory]
  split
  · rename_i hroom
    constructor
    · intro h
      have hlast := (h (c.stop + 1 - size) (by omega)).2 (by omega)
      omega
    · intro h address _
      omega
  · rename_i hroom
    constructor
    · intro h
      have hfirst := (h (c.start % 2 ^ 32) (by omega)).1
      omega
    · intro h address _
      omega

theorem index_of_le (c : Settings) (h : c.start ≤ address) :
    index c address = (address - c.start) % 2 ^ 32 := by
  have hstart := c.start_lt
  rw [index]
  omega

theorem directIndex_of_le (c : Settings) (h : c.start ≤ address) :
    DirectAccessMemory.index c address = (address - c.start) % 2 ^ 32 := by
  have hstart := c.start_lt
  rw [DirectAccessMemory.index]
  omega

end Memory

end OpenAsip
