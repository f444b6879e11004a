import OpenAsip.BinaryStreamWrites

namespace OpenAsip
set_option autoImplicit true

namespace BinaryStream
open BigEndian Reader

/-- The bytes of a number in the byte order of the storage. -/
def stored (littleEndianStorage : Bool) (size value : Nat) : List UInt8 :=
  if littleEndianStorage then (bytes size value).reverse else bytes size value

def Item.bytes (littleEndianStorage : Bool) : Item → List UInt8
  | .byte b => [b]
  | .halfWord x => stored littleEndianStorage 2 x.toNat
  | .word x => stored littleEndianStorage 4 x.toNat
  | .byteBlock l => l
  | .halfWordBlock l => l.flatMap fun x => stored littleEndianStorage 2 x.toNat
  | .wordBlock l => l.flatMap fun x => stored littleEndianStorage 4 x.toNat

/-- No half word and no word is written. -/
def Item.OnlyBytes : Item → Prop
  | .halfWord _ | .word _ => False
  | .halfWordBlock l => l = []
  | .wordBlock l => l = []
  | .byte _ | .byteBlock _ => True

section Swaps

theorem length_hostBytes : (hostBytes o n v).length = n := by
  rw [hostBytes]
  split
  · exact length_bytes
  · rw [List.length_reverse, length_bytes]

/-- A swap of two or four bytes reverses them, in place or not. -/
theorem swap_eq (inPlace : Bool) {src dst : List α} (hsize : size = 2 ∨ size = 4)
    (hsrc : src.length = size) (hdst : dst.length = size) (h : inPlace = true → dst = src) :
    swap inPlace src dst size = src.reverse := by
  rcases hsize with rfl | rfl
  · obtain ⟨a, b, rfl⟩ := List.length_eq_two.1 hsrc
    obtain ⟨c, d, rfl⟩ := List.length_eq_two.1 hdst
    cases inPlace with
    | false => rfl
    | true =>
      cases h rfl
      rfl
  · obtain ⟨a, b, c, d, rfl⟩ := List.length_eq_four.1 hsrc
    obtain ⟨a', b', c', d', rfl⟩ := List.length_eq_four.1 hdst
    cases inPlace with
    | false => rfl
    | true =>
      cases h rfl
      rfl

theorem reverse_hostBytes (h : o.needsSwap = true) (n v : Nat) :
    (hostBytes o n v).reverse = stored o.littleEndianStorage n v := by
  obtain ⟨big, little⟩ := o
  cases big with
  | false =>
    cases little with
    | false => exact List.reverse_reverse _
    | true => cases h
  | true =>
    cases little with
    | false => cases h
    | true => rfl

theorem hostBytes_eq (h : o.needsSwap = false) (n v : Nat) :
    hostBytes o n v = stored o.littleEndianStorage n v := by
  obtain ⟨big, little⟩ := o
  cases big with
  | false =>
    cases little with
    | false => cases h
    | true => rfl
  | true =>
    cases little with
    | false => rfl
    | true => cases h

theorem hostValue_hostBytes (o : ByteOrders) (n v : Nat) :
    hostValue o (hostBytes o n v) = v % 256 ^ n := by
  rw [hostValue, hostBytes]
  split
  · exact value_bytes
  · rw [List.reverse_reverse, value_bytes]

end Swaps

section Writing
variable {f f' : OutputFile}

/-- The bytes are appended as long as an `unsigned int` holds the position. -/
def OutputFile.Appending (f : OutputFile) : Prop := f.position = f.content.length

/-- The file after bytes that are appended. -/
def OutputFile.append (f : OutputFile) (l : List UInt8) : OutputFile :=
  ⟨f.content ++ l, f.position + l.length⟩

theorem OutputFile.Appending.append (h : f.Appending) (l : List UInt8) :
    (f.append l).Appending := by
  rw [Appending] at h ⊢
  change f.position + l.length = (f.content ++ l).length
  rw [List.length_append, h]

theorem OutputFile.append_append (f : OutputFile) (l l' : List UInt8) :
    (f.append l).append l' = f.append (l ++ l') := by
  simp only [append, List.append_assoc, List.length_append, Nat.add_assoc]

theorem OutputFile.append_nil (f : OutputFile) : f.append [] = f := by
  simp only [append, List.append_nil, List.length_nil, Nat.add_zero]

theorem putByte_ok (h : f.Appending) (hlen : f.content.length < 2 ^ 32) (b : UInt8) :
    putByte f b = .ok (f.append [b]) := by
  obtain ⟨content, position⟩ := f
  rw [OutputFile.Appending] at h
  change position = content.length at h
  subst h
  change content.length < 2 ^ 32 at hlen
  simp only [putByte, Nat.mod_eq_of_lt hlen, gt_iff_lt, Nat.lt_irrefl, if_false]
  rw [Blocks.splice, List.take_length, List.drop_of_length_le (Nat.le_add_right _ _),
    List.append_nil]
  rfl

theorem writeBuffer_ok (h : f.Appending) (hlen : f.content.length + l.length ≤ 2 ^ 32) :
    writeBuffer f (l.map some) = .ok (f.append l) := by
  induction l generalizing f with
  | nil =>
    rw [OutputFile.append_nil]
    rfl
  | cons b l ih =>
    rw [List.length_cons] at hlen
    have hput := putByte_ok h (by omega) b
    have hrest := ih (h.append [b]) (by
      change (f.content ++ [b]).length + l.length ≤ 2 ^ 32
      rw [List.length_append, List.length_singleton]
      omega)
    rw [List.map_cons, writeBuffer, Except.bind_of_ok hput, hrest, OutputFile.append_append]
    rfl

theorem length_stored (little : Bool) (n v : Nat) : (stored little n v).length = n := by
  rw [stored]
  split
  · rw [List.length_reverse, length_bytes]
  · exact length_bytes

theorem writeNumber_ok (ho : o.needsSwap = true) (hsize : size = 2 ∨ size = 4) (h : f.Appending)
    (hlen : f.content.length + size ≤ 2 ^ 32) :
    writeNumber o size v f = .ok (f.append (stored o.littleEndianStorage size v)) := by
  have hswap : swap false ((hostBytes o size v).map some) (List.replicate size none) size =
      (stored o.littleEndianStorage size v).map some := by
    rw [swap_eq false hsize (by rw [List.length_map, length_hostBytes]) List.length_replicate
      (fun h => absurd h Bool.false_ne_true), ← List.map_reverse, reverse_hostBytes ho]
  rw [writeNumber, ho, if_pos rfl, hswap]
  exact writeBuffer_ok h (by rw [length_stored]; exact hlen)

/-- Writes one after the other. -/
theorem writeAll_ok {write : OutputFile → α → Outcome OutputFile} {encode : α → List UInt8}
    {l : List α} (hwrite : ∀ f, ∀ x ∈ l, OutputFile.Appending f →
      f.content.length + (encode x).length ≤ 2 ^ 32 → write f x = .ok (f.append (encode x)))
    (h : f.Appending)
    (hlen : f.content.length + (l.flatMap encode).length ≤ 2 ^ 32) :
    l.foldlM write f = .ok (f.append (l.flatMap encode)) := by
  induction l generalizing f with
  | nil =>
    rw [List.flatMap_nil, OutputFile.append_nil]
    rfl
  | cons x l ih =>
    rw [List.flatMap_cons, List.length_append] at hlen
    have hput := hwrite f x List.mem_cons_self h (by omega)
    have hroom : (f.append (encode x)).content.length + (l.flatMap encode).length ≤ 2 ^ 32 := by
      change (f.content ++ encode x).length + _ ≤ 2 ^ 32
      rw [List.length_append]
      omega
    have hrest := ih (fun f y hy => hwrite f y (List.mem_cons_of_mem x hy)) (h.append _) hroom
    rw [List.foldlM_cons, Except.bind_of_ok hput, hrest, OutputFile.append_append,
      List.flatMap_cons]

theorem write_ok {item : Item} (ho : o.needsSwap = true ∨ item.OnlyBytes) (h : f.Appending)
    (hlen : f.content.length + (item.bytes o.littleEndianStorage).length ≤ 2 ^ 32) :
    write o f item = .ok (f.append (item.bytes o.littleEndianStorage)) := by
  cases item with
  | byte b => exact putByte_ok h (Nat.lt_of_succ_le hlen) b
  | halfWord x =>
    rw [Item.bytes, length_stored] at hlen
    exact writeNumber_ok (ho.resolve_right id) (.inl rfl) h hlen
  | word x =>
    rw [Item.bytes, length_stored] at hlen
    exact writeNumber_ok (ho.resolve_right id) (.inr rfl) h hlen
  | byteBlock l => exact writeBuffer_ok h hlen
  | halfWordBlock l =>
    rcases ho with ho | hnil
    · refine writeAll_ok (fun f x _ hf hx => ?_) h hlen
      rw [length_stored] at hx
      exact writeNumber_ok ho (.inl rfl) hf hx
    · cases hnil
      exact congrArg Except.ok f.append_nil.symm
  | wordBlock l =>
    rcases ho with ho | hnil
    · refine writeAll_ok (fun f x _ hf hx => ?_) h hlen
      rw [length_stored] at hx
      exact writeNumber_ok ho (.inr rfl) hf hx
    · cases hnil
      exact congrArg Except.ok f.append_nil.symm

/-- A number of which no byte was set cannot be written. -/
theorem writeNumber_undefined (ho : o.needsSwap = false) :
    writeNumber o (size + 1) v f = .error .undefined := by
  rw [writeNumber, ho, if_neg Bool.false_ne_true]
  rfl

theorem onlyBytes_of_write {item : Item} (ho : o.needsSwap = false) (h : write o f item = .ok f') :
    item.OnlyBytes := by
  cases item with
  | byte b => trivial
  | halfWord x =>
    rw [write, writeHalfWord, writeNumber_undefined ho] at h
    cases h
  | word x =>
    rw [write, writeWord, writeNumber_undefined ho] at h
    cases h
  | byteBlock l => trivial
  | halfWordBlock l =>
    cases l with
    | nil => rfl
    | cons x l =>
      rw [write, List.foldlM_cons, writeHalfWord, writeNumber_undefined ho] at h
      cases h
  | wordBlock l =>
    cases l with
    | nil => rfl
    | cons x l =>
      rw [write, List.foldlM_cons, writeWord, writeNumber_undefined ho] at h
      cases h

/-- No file gets longer than an `unsigned int` says. -/
theorem length_putByte (hlen : f.content.length ≤ 2 ^ 32) (h : putByte f b = .ok f') :
    f'.content.length ≤ 2 ^ 32 := by
  rw [putByte] at h
  split at h
  · cases h
  · rename_i hpos
    cases h
    change (Blocks.splice _ [b] f.content).length ≤ _
    have hlt := Nat.mod_lt f.position (Nat.two_pow_pos 32)
    rw [Blocks.splice, List.length_append, List.length_append, List.length_take, List.length_drop,
      List.length_singleton]
    omega

theorem length_writeBuffer {buffer : List (Option UInt8)} (hlen : f.content.length ≤ 2 ^ 32)
    (h : writeBuffer f buffer = .ok f') : f'.content.length ≤ 2 ^ 32 := by
  induction buffer generalizing f with
  | nil =>
    cases h
    exact hlen
  | cons b buffer ih =>
    cases b with
    | none => cases h
    | some b =>
      obtain ⟨f₁, hf₁, h⟩ := Except.bind_ok h
      exact ih (length_putByte hlen hf₁) h

theorem length_write {item : Item} (hlen : f.content.length ≤ 2 ^ 32)
    (h : write o f item = .ok f') : f'.content.length ≤ 2 ^ 32 := by
  cases item with
  | byte b => exact length_putByte hlen h
  | halfWord x => exact length_writeBuffer hlen h
  | word x => exact length_writeBuffer hlen h
  | byteBlock l => exact length_writeBuffer hlen h
  | halfWordBlock l =>
    exact foldlM_invariant (fun f x f' hf hx => length_writeBuffer hf hx) hlen h
  | wordBlock l =>
    exact foldlM_invariant (fun f x f' hf hx => length_writeBuffer hf hx) hlen h

end Writing

section Reading

theorem readNumber_reads (o : ByteOrders) (hsize : size = 2 ∨ size = 4) (hv : v < 256 ^ size) :
    Reads (readNumber o size) (stored o.littleEndianStorage size v) v := by
  have hlen := length_stored o.littleEndianStorage size v
  have hbuffer : (if o.needsSwap then swap true (stored o.littleEndianStorage size v)
      (stored o.littleEndianStorage size v) size else stored o.littleEndianStorage size v) =
        hostBytes o size v := by
    cases ho : o.needsSwap with
    | true => rw [if_pos rfl, swap_eq true hsize hlen hlen (fun _ => rfl), ← reverse_hostBytes ho,
        List.reverse_reverse]
    | false => rw [if_neg Bool.false_ne_true, hostBytes_eq ho]
  have hread := reads_readBytes (stored o.littleEndianStorage size v)
  rw [hlen] at hread
  apply hread.map
  rw [hbuffer, hostValue_hostBytes, Nat.mod_eq_of_lt hv]
  exact Reads.pure v

theorem readHalfWord_reads (o : ByteOrders) (x : UInt16) :
    Reads (readHalfWord o) (stored o.littleEndianStorage 2 x.toNat) x := by
  apply (readNumber_reads o (.inl rfl) x.toNat_lt).map
  rw [UInt16.ofNat_toNat]
  exact Reads.pure x

theorem readWord_reads (o : ByteOrders) (x : UInt32) :
    Reads (readWord o) (stored o.littleEndianStorage 4 x.toNat) x := by
  apply (readNumber_reads o (.inr rfl) x.toNat_lt).map
  rw [UInt32.ofNat_toNat]
  exact Reads.pure x

theorem readBlock_reads {p : Reader α} {encode : α → List UInt8}
    (hp : ∀ a, Reads p (encode a) a) (l : List α) :
    Reads (readBlock p l.length) (l.flatMap encode) l := by
  induction l with
  | nil => exact Reads.pure []
  | cons a l ih =>
    rw [List.flatMap_cons]
    exact (hp a).bind (ih.map (Reads.pure (a :: l)))

/-- Every item is read from its bytes, whatever the host. -/
theorem read_reads (o : ByteOrders) (item : Item) :
    Reads (read o item.request) (item.bytes o.littleEndianStorage) item := by
  cases item with
  | byte b => exact (reads_readByte b).map (Reads.pure _)
  | halfWord x => exact (readHalfWord_reads o x).map (Reads.pure _)
  | word x => exact (readWord_reads o x).map (Reads.pure _)
  | byteBlock l =>
    have h := readBlock_reads reads_readByte l
    rw [List.flatMap_singleton'] at h
    exact h.map (Reads.pure _)
  | halfWordBlock l => exact (readBlock_reads (readHalfWord_reads o) l).map (Reads.pure _)
  | wordBlock l => exact (readBlock_reads (readWord_reads o) l).map (Reads.pure _)

theorem run_taken {p : Reader α} {s : BinaryStream} (h : Reads p taken a)
    (hs : s.rest = taken ++ left) : ∃ s', s.run p = .ok (a, s') ∧ s'.rest = left := by
  refine ⟨s.after left, ?_, rest_after ⟨taken, hs.symm⟩⟩
  rw [run, hs, h left]

theorem readAll_ok (o : ByteOrders) {s : BinaryStream}
    (hs : s.rest = items.flatMap (Item.bytes o.littleEndianStorage) ++ left) :
    ∃ s', readAll o (items.map Item.request) s = .ok (items, s') ∧ s'.rest = left := by
  induction items generalizing s with
  | nil => exact ⟨s, rfl, hs⟩
  | cons item items ih =>
    rw [List.flatMap_cons, List.append_assoc] at hs
    obtain ⟨s₁, hs₁, hrest₁⟩ := run_taken (read_reads o item) hs
    obtain ⟨s', hs', hrest⟩ := ih hrest₁
    refine ⟨s', ?_, hrest⟩
    rw [List.map_cons, readAll, Except.bind_of_ok hs₁]
    exact Except.bind_of_ok hs' _

end Reading

section EndOfFile

def Request.size : Request → Nat
  | .byte => 1
  | .halfWord => 2
  | .word => 4
  | .byteBlock n => n
  | .halfWordBlock n => 2 * n
  | .wordBlock n => 4 * n

/-- The reader takes this many bytes and throws if there are fewer. -/
def Takes (p : Reader α) (n : Nat) : Prop :=
  ∀ l, if l.length < n then p l = .error (.exception .endOfFile)
    else ∃ a, p l = .ok (a, l.drop n)

theorem Takes.pure (a : α) : Takes (pure a) 0 := fun _ => ⟨a, rfl⟩

theorem Takes.bind {p : Reader α} {q : α → Reader β} (hp : Takes p m) (hq : ∀ a, Takes (q a) n) :
    Takes (p >>= q) (m + n) := by
  intro l
  change if _ then (p l >>= fun x => q x.1 x.2) = _ else ∃ a, (p l >>= fun x => q x.1 x.2) = _
  have h := hp l
  by_cases hm : l.length < m
  · rw [if_pos hm] at h
    rw [if_pos (by omega), Except.bind_of_error h]
  · rw [if_neg hm] at h
    obtain ⟨a, ha⟩ := h
    have hrest := hq a (l.drop m)
    rw [List.length_drop, List.drop_drop] at hrest
    simp only [Except.bind_of_ok ha]
    by_cases hn : l.length - m < n
    · rw [if_pos hn] at hrest
      rw [if_pos (by omega)]
      exact hrest
    · rw [if_neg hn] at hrest
      rw [if_neg (by omega)]
      exact hrest

theorem Takes.map {p : Reader α} {q : α → Reader β} (hp : Takes p n) (hq : ∀ a, Takes (q a) 0) :
    Takes (p >>= q) n := hp.bind hq

theorem takes_readByte : Takes readByte 1 := by
  intro l
  cases l with
  | nil => rfl
  | cons b l => exact ⟨b, rfl⟩

theorem takes_readBytes (n : Nat) : Takes (readBytes n) n := by
  induction n with
  | zero => exact Takes.pure []
  | succ n ih =>
    have h := takes_readByte.bind fun b => ih.map fun l => Takes.pure (b :: l)
    rwa [Nat.add_comm] at h

theorem takes_readBlock {p : Reader α} (hp : Takes p m) (n : Nat) :
    Takes (readBlock p n) (m * n) := by
  induction n with
  | zero => exact Takes.pure []
  | succ n ih =>
    have h := hp.bind fun a => ih.map fun l => Takes.pure (a :: l)
    rwa [Nat.add_comm, ← Nat.mul_succ] at h

theorem takes_read (o : ByteOrders) (r : Request) : Takes (read o r) r.size := by
  have hnumber (size : Nat) : Takes (readNumber o size) size :=
    (takes_readBytes size).map fun _ => Takes.pure _
  have hhalf : Takes (readHalfWord o) 2 := (hnumber 2).map fun _ => Takes.pure _
  have hword : Takes (readWord o) 4 := (hnumber 4).map fun _ => Takes.pure _
  cases r with
  | byte => exact takes_readByte.map fun _ => Takes.pure _
  | halfWord => exact hhalf.map fun _ => Takes.pure _
  | word => exact hword.map fun _ => Takes.pure _
  | byteBlock n =>
    have h := takes_readBlock takes_readByte n
    rw [Nat.one_mul] at h
    exact h.map fun _ => Takes.pure _
  | halfWordBlock n => exact (takes_readBlock hhalf n).map fun _ => Takes.pure _
  | wordBlock n => exact (takes_readBlock hword n).map fun _ => Takes.pure _

/-- The end of the file is noticed one byte late. -/
theorem run_read_iff (o : ByteOrders) (s : BinaryStream) (r : Request) :
    s.run (read o r) = .error (.exception .endOfFile) ↔ s.rest.length < r.size := by
  have h := takes_read o r s.rest
  rw [run]
  by_cases hlt : s.rest.length < r.size
  · rw [if_pos hlt] at h
    rw [h]
    exact ⟨fun _ => hlt, fun _ => rfl⟩
  · rw [if_neg hlt] at h
    obtain ⟨a, ha⟩ := h
    rw [ha]
    constructor
    · intro herror
      cases herror
    · exact fun hc => absurd hc hlt

end EndOfFile

section Files

/-- The bytes that a file has from the position on. -/
def remaining (s : BinaryStream) : Nat := s.file.length - s.position

/-- A read that needs more bytes throws. -/
def Refuses (o : ByteOrders) (s : BinaryStream) (r : Request) : Prop :=
  s.remaining < r.size → s.run (read o r) = .error (.exception .endOfFile)

theorem refuses_iff (o : ByteOrders) (s : BinaryStream) (r : Request) :
    Refuses o s r ↔ s.remaining + 1 ≠ r.size ∨ s.eof = true := by
  rw [Refuses, run_read_iff]
  cases heof : s.eof with
  | true =>
    have hrest : s.rest.length = 0 := by
      rw [rest, heof]
      rfl
    constructor
    · exact fun _ => .inr rfl
    · intro _ hlt
      omega
  | false =>
    rw [rest_length heof, remaining]
    constructor
    · intro h
      left
      omega
    · rintro (h | h) hlt
      · omega
      · cases h

/-- The file has the bytes of the items, and reading it gives the items. -/
def WritesAndReads (o : ByteOrders) (items : List Item) : Prop :=
  ∃ f, items.foldlM (write o) OutputFile.new = .ok f ∧
    f.content = items.flatMap (Item.bytes o.littleEndianStorage) ∧
    ∃ s, readAll o (items.map Item.request) ⟨f.content, 0, false⟩ = .ok (items, s)

theorem writesAndReads_iff (o : ByteOrders) (items : List Item) :
    WritesAndReads o items ↔ (o.needsSwap = true ∨ ∀ item ∈ items, item.OnlyBytes) ∧
      (items.flatMap (Item.bytes o.littleEndianStorage)).length ≤ 2 ^ 32 := by
  constructor
  · rintro ⟨f, hf, hcontent, _⟩
    constructor
    · cases ho : o.needsSwap with
      | true => exact .inl rfl
      | false =>
        right
        intro item hitem
        obtain ⟨f₁, f₂, hwrite⟩ := foldlM_ok_mem hf hitem
        exact onlyBytes_of_write ho hwrite
    · rw [← hcontent]
      have hstep (f : OutputFile) (item : Item) (f' : OutputFile) (hlen : f.content.length ≤ 2 ^ 32)
          (h : write o f item = .ok f') : f'.content.length ≤ 2 ^ 32 := length_write hlen h
      exact foldlM_invariant hstep (Nat.zero_le _) hf
  · rintro ⟨ho, hlen⟩
    have hwrite : items.foldlM (write o) OutputFile.new = .ok (OutputFile.new.append
        (items.flatMap (Item.bytes o.littleEndianStorage))) := by
      refine writeAll_ok (fun f item hitem hf hx => write_ok ?_ hf hx) rfl ?_
      · exact ho.imp_right fun hbytes => hbytes item hitem
      · rwa [OutputFile.new, List.length_nil, Nat.zero_add]
    have hrest : rest ⟨items.flatMap (Item.bytes o.littleEndianStorage), 0, false⟩ =
        items.flatMap (Item.bytes o.littleEndianStorage) ++ [0xff] := rfl
    obtain ⟨s, hs, _⟩ := readAll_ok o hrest
    exact ⟨_, hwrite, rfl, s, hs⟩

theorem streams_iff (o : ByteOrders) (items : List Item) (s : BinaryStream) (r : Request) :
    (WritesAndReads o items ↔ (o.needsSwap = true ∨ ∀ item ∈ items, item.OnlyBytes) ∧
      (items.flatMap (Item.bytes o.littleEndianStorage)).length ≤ 2 ^ 32) ∧
    (Refuses o s r ↔ s.remaining + 1 ≠ r.size ∨ s.eof = true) :=
  ⟨writesAndReads_iff o items, refuses_iff o s r⟩

/-- The buffer of the half word is written as it is, and the end of an empty file is a byte. -/
theorem not_writesAndReads_sameOrder : ¬ WritesAndReads ⟨false, true⟩ [.halfWord 1] ∧
    ¬ Refuses ⟨false, true⟩ ⟨[], 0, false⟩ .byte := by
  constructor
  · rintro ⟨f, hf, _⟩
    cases hf
  · intro h
    exact absurd (h (by decide)) (by decide)

end Files

end BinaryStream

end OpenAsip
