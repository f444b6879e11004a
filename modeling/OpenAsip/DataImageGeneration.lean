import OpenAsip.DataImagePlacement

namespace OpenAsip
set_option autoImplicit true

namespace DataImage

def Settings.inSpace (c : Settings) (sections : List DataSection) : List DataSection :=
  sections.filter fun s => s.aSpace = c.addressSpace

/-- The sections of the address space in the order in which they are written. -/
def Settings.sections (c : Settings) (b : Binary) : List DataSection :=
  c.inSpace b.dataSections ++ c.inSpace b.leDataSections

/-- The first address of the image. -/
def Settings.start (c : Settings) : Nat := c.dataStart.getD 0

/-- Sections whose relocations are known and whose lengths are `Word`s. -/
def Writable (c : Settings) (relocSections : List RelocSection) (s : DataSection) : Prop :=
  Relocatable c relocSections s ∧ s.data.length < 2 ^ 32

/-- What a section adds to an image of `n` bytes. -/
def added (c : Settings) (relocSections : List RelocSection) (n : Nat) (s : DataSection) :
    List UInt8 :=
  List.replicate (s.start - (c.start + n)) 0 ++ bytesFrom c relocSections s 0

/-- The start address is the default, or nothing is written before the last section. -/
def Startable (c : Settings) (n : Nat) (sections : List DataSection) : Prop :=
  c.start = 0 ∨ sections = [] ∨
    (n = 0 ∧ ∀ s ∈ sections.dropLast, s.start = c.start ∧ s.data = [])

section Sections
variable {c : Settings} {relocSections : List RelocSection} {image : List UInt8}

theorem length_added {s : DataSection} (hle : c.start + n ≤ s.start) :
    c.start + (n + (added c relocSections n s).length) = s.stop := by
  rw [added, List.length_append, List.length_replicate, length_bytesFrom, DataSection.stop]
  omega

theorem bitsOf_eq_nil : bitsOf image = [] ↔ image.length = 0 := by
  rw [← List.length_eq_zero_iff, length_bitsOf]
  omega

theorem Startable.zeroFillStart_eq (h : Startable c image.length (s :: sections))
    (hle : c.start + image.length ≤ s.start) :
    zeroFillStart c (bitsOf image) = c.start + image.length := by
  have hlt : s.start < 2 ^ 32 := s.startingAddress.toNat_lt
  have hdiv : 8 * image.length / 8 % 2 ^ 32 = image.length := by
    rw [Nat.mul_div_cancel_left _ (by decide), Nat.mod_eq_of_lt (by omega)]
  rw [zeroFillStart, length_bitsOf, hdiv, Settings.start]
  rw [Settings.start] at hle
  cases hd : c.dataStart with
  | none => rw [Option.getD_none, Nat.zero_add]
  | some start =>
    rw [hd, Option.getD_some] at hle
    dsimp only
    rw [Option.getD_some]
    split
    · rename_i hnil
      rw [bitsOf_eq_nil.1 hnil, Nat.add_zero, Nat.mod_eq_of_lt (by omega)]
    · rename_i hne
      rcases h with h | h | ⟨h, -⟩
      · rw [Settings.start, hd, Option.getD_some] at h
        rw [h, Nat.zero_add]
      · cases h
      · exact (hne (bitsOf_eq_nil.2 h)).elim

/-- After a section that is not the last one, the image is still empty, or the start address is the
default. -/
theorem Startable.next (h : Startable c n (s :: sections))
    (hn : c.start + n' = s.stop ∨ c.start + n' = c.start + lineEnd m (s.stop - c.start)) :
    Startable c n' sections := by
  rcases h with h | h | ⟨-, h⟩
  · exact .inl h
  · cases h
  · cases sections with
    | nil => exact .inr (.inl rfl)
    | cons t sections =>
      obtain ⟨hstart, hdata⟩ := h s List.mem_cons_self
      have hstop : s.stop = c.start := by
        rw [DataSection.stop, hstart, DataSection.length, hdata]
        rfl
      refine .inr (.inr ⟨?_, fun x hx => h x (List.mem_cons_of_mem s hx)⟩)
      have hend : lineEnd m 0 = 0 := by
        rw [lineEnd, Nat.zero_add]
        cases m with
        | zero => rfl
        | succ m => rw [Nat.div_eq_of_lt (by omega), Nat.zero_mul]
      rw [hstop, Nat.sub_self, hend] at hn
      omega

/-- A section of the address space is added to the image. -/
theorem writeDataSection_added {s : DataSection} (hstart : Startable c image.length (s :: sections))
    (hle : c.start + image.length ≤ s.start) (hspace : s.aSpace = c.addressSpace)
    (hs : Writable c relocSections s) :
    writeDataSection c relocSections (bitsOf image) s =
      .ok (bitsOf (image ++ added c relocSections image.length s)) := by
  have hfill := hstart.zeroFillStart_eq hle
  rw [writeDataSection_eq hspace hs.1 hs.2 (by rwa [hfill]), hfill]
  rfl

theorem inSpace_cons (s : DataSection) (l : List DataSection) : c.inSpace (s :: l) =
    if s.aSpace = c.addressSpace then s :: c.inSpace l else c.inSpace l := by
  rw [Settings.inSpace, List.filter_cons]
  simp only [decide_eq_true_eq]
  rfl

/-- The length of the image of the sections. -/
def imageEnd (c : Settings) (sections : List DataSection) : Nat :=
  match sections.getLast? with
  | some s => s.stop - c.start
  | none => 0

/-- The sections are written one after the other. -/
theorem foldlM_writeDataSection (l rest : List DataSection)
    (hplaced : Placed c relocSections c.start done image)
    (hlength : image.length = imageEnd c done)
    (hstart : Startable c image.length (c.inSpace l ++ rest))
    (hle : ∀ s ∈ c.inSpace l ++ rest, c.start + image.length ≤ s.start)
    (hsections : (c.inSpace l ++ rest).Pairwise fun s t => s.stop ≤ t.start)
    (hs : ∀ s ∈ c.inSpace l, Writable c relocSections s) :
    ∃ image', l.foldlM (writeDataSection c relocSections) (bitsOf image) = .ok (bitsOf image') ∧
      Placed c relocSections c.start (done ++ c.inSpace l) image' ∧
      image'.length = imageEnd c (done ++ c.inSpace l) ∧
      Startable c image'.length rest ∧ ∀ s ∈ rest, c.start + image'.length ≤ s.start := by
  induction l generalizing done image with
  | nil =>
    refine ⟨image, rfl, ?_, ?_, hstart, hle⟩
    · rwa [Settings.inSpace, List.filter_nil, List.append_nil]
    · rwa [Settings.inSpace, List.filter_nil, List.append_nil]
  | cons s l ih =>
    rw [inSpace_cons] at hstart hle hsections hs ⊢
    rw [List.foldlM_cons]
    split at hstart
    · rename_i hspace
      rw [if_pos hspace] at hle hsections hs ⊢
      rw [List.cons_append] at hstart hle hsections
      have hnext := hle s List.mem_cons_self
      have himage : c.start + (image ++ added c relocSections image.length s).length = s.stop := by
        rw [List.length_append]
        exact length_added hnext
      obtain ⟨hlater, hrest⟩ := List.pairwise_cons.1 hsections
      rw [writeDataSection_added hstart hnext hspace (hs s List.mem_cons_self)]
      obtain ⟨image', hwrite, hplaced', hend, hstart', hle'⟩ := @ih
        (image ++ added c relocSections image.length s) (done ++ [s]) (hplaced.add hnext)
        (by
          rw [imageEnd, List.getLast?_append, List.getLast?_singleton, Option.some_or]
          dsimp only
          omega)
        (hstart.next (m := 0) (.inl himage))
        (fun t ht => by
          rw [himage]
          exact hlater t ht)
        hrest (fun t ht => hs t (List.mem_cons_of_mem s ht))
      rw [List.append_assoc, List.singleton_append] at hplaced' hend
      exact ⟨image', hwrite, hplaced', hend, hstart', hle'⟩
    · rename_i hspace
      rw [if_neg hspace] at hle hsections hs ⊢
      rw [writeDataSection, if_neg hspace]
      exact ih hplaced hlength hstart hle hsections hs

/-- The image of the little-endian sections: there are whole lines of them after those of the other
sections, and the lines are reversed. -/
def LinesPlaced (c : Settings) (relocSections : List RelocSection) (m : Nat)
    (be : List UInt8) (done : List DataSection) (image : List UInt8) : Prop :=
  ∃ le le', image = be ++ le' ∧ m ∣ le.length ∧ Mirrored m le le' ∧
    Placed c relocSections c.start done (be ++ le)

theorem lineEnd_of_dvd (hpos : 0 < m) (h : m ∣ n) : lineEnd m n = n := by
  obtain ⟨q, rfl⟩ := h
  have hnil : lineEnd m 0 = 0 := (Mirrored.nil hpos).length_eq.symm
  have hend := lineEnd_mul_add hpos q 0
  rwa [hnil, Nat.add_zero] at hend

/-- A little-endian section adds whole lines. -/
theorem LinesPlaced.writeLEDataSection {be : List UInt8} {s : DataSection} (hpos : 0 < m)
    (hwidth : c.width = 8) (hm : c.mausPerLine.toNat = m) (hbe : m ∣ be.length)
    (h : LinesPlaced c relocSections m be done image)
    (hstart : Startable c image.length (s :: sections))
    (hle : c.start + image.length ≤ s.start) (hspace : s.aSpace = c.addressSpace)
    (hs : Writable c relocSections s)
    (hfirst : s.stop = c.start ∨ c.start + m ≤ s.stop)
    (hsize : 8 * lineEnd m (s.stop - c.start) < 2 ^ 32) :
    ∃ image', DataImage.writeLEDataSection c relocSections (bitsOf image) s = .ok (bitsOf image') ∧
      LinesPlaced c relocSections m be (done ++ [s]) image' ∧
      image'.length = lineEnd m (s.stop - c.start) := by
  obtain ⟨le, le', rfl, hdvd, hmirrored, hplaced⟩ := h
  have hlength : le'.length = le.length := by
    rw [hmirrored.length_eq, lineEnd_of_dvd hpos hdvd]
  have himage : m ∣ (be ++ le').length := by
    rw [List.length_append, hlength]
    exact Nat.dvd_add hbe hdvd
  have hend : c.start + ((be ++ le').length + (added c relocSections (be ++ le').length s).length) =
      s.stop := length_added hle
  have hlines : lineEnd m (s.stop - c.start) =
      (be ++ le').length + lineEnd m (added c relocSections (be ++ le').length s).length := by
    obtain ⟨q, hq⟩ := himage
    rw [← hend, Nat.add_sub_cancel_left]
    conv_lhs => rw [hq, lineEnd_mul_add hpos]
    rw [← hq]
  have hadded := le_lineEnd hpos (added c relocSections (be ++ le').length s).length
  rw [hlines] at hsize
  obtain ⟨new, hreverse, hnew⟩ := reverseLines_eq (2 ^ 33) hpos
    (l := added c relocSections (be ++ le').length s) (by omega) himage
    (by
      rcases hfirst with hfirst | hfirst
      · left
        apply List.eq_nil_of_length_eq_zero
        omega
      · right
        omega)
    hsize
  refine ⟨(be ++ le') ++ new, ?_, ?_, ?_⟩
  · rw [DataImage.writeLEDataSection, writeDataSection_added hstart hle hspace hs]
    change reverseLines c.width c.mausPerLine.toNat (2 ^ 33) ((bitsOf (be ++ le')).length % 2 ^ 32) _ = _
    rw [length_bitsOf, Nat.mod_eq_of_lt (by omega), hwidth, hm]
    exact hreverse
  · have hpadded : ∃ k, (added c relocSections (be ++ le').length s ++ List.replicate k 0).length =
        lineEnd m (added c relocSections (be ++ le').length s).length := by
      refine ⟨lineEnd m (added c relocSections (be ++ le').length s).length -
        (added c relocSections (be ++ le').length s).length, ?_⟩
      rw [List.length_append, List.length_replicate]
      omega
    obtain ⟨k, hk⟩ := hpadded
    refine ⟨le ++ (added c relocSections (be ++ le').length s ++ List.replicate k 0), le' ++ new,
      List.append_assoc _ _ _, ?_, ?_, ?_⟩
    · rw [List.length_append, hk]
      exact Nat.dvd_add hdvd (dvd_lineEnd m _)
    · exact hmirrored.append hpos hdvd ((Mirrored.padded_iff hk hpos).2 hnew)
    · have hsame : (be ++ le').length = (be ++ le).length := by
        rw [List.length_append, List.length_append, hlength]
      rw [hsame] at hle ⊢
      rw [← List.append_assoc, ← List.append_assoc]
      exact (hplaced.add hle).pad k
  · rw [List.length_append, hnew.length_eq, hlines]

/-- A section of another address space changes nothing. -/
theorem writeLEDataSection_foreign {s : DataSection} (hspace : ¬ s.aSpace = c.addressSpace)
    (hsize : 8 * image.length < 2 ^ 32) :
    writeLEDataSection c relocSections (bitsOf image) s = .ok (bitsOf image) := by
  rw [writeLEDataSection, writeDataSection, if_neg hspace]
  change reverseLines _ _ (2 ^ 33) ((bitsOf image).length % 2 ^ 32) _ = _
  rw [length_bitsOf, Nat.mod_eq_of_lt hsize]
  change (if _ then _ else _) = _
  rw [if_neg]
  rw [length_bitsOf]
  exact Nat.lt_irrefl _

theorem foldlM_writeLEDataSection {be : List UInt8} (l : List DataSection) (hpos : 0 < m)
    (hwidth : c.width = 8) (hm : c.mausPerLine.toNat = m)
    (hbe : c.inSpace l = [] ∨ m ∣ be.length) (h : LinesPlaced c relocSections m be done image)
    (hstart : Startable c image.length (c.inSpace l))
    (hle : ∀ s ∈ c.inSpace l, c.start + image.length ≤ s.start)
    (hlines : (c.inSpace l).Pairwise fun s t =>
      c.start + lineEnd m (s.stop - c.start) ≤ t.start)
    (hs : ∀ s ∈ c.inSpace l, Writable c relocSections s)
    (hfirst : ∀ s ∈ c.inSpace l, s.stop = c.start ∨ c.start + m ≤ s.stop)
    (hsize : 8 * image.length < 2 ^ 32)
    (hsizes : ∀ s ∈ c.inSpace l, 8 * lineEnd m (s.stop - c.start) < 2 ^ 32) :
    ∃ image', l.foldlM (writeLEDataSection c relocSections) (bitsOf image) = .ok (bitsOf image') ∧
      LinesPlaced c relocSections m be (done ++ c.inSpace l) image' := by
  induction l generalizing done image with
  | nil =>
    refine ⟨image, rfl, ?_⟩
    rwa [Settings.inSpace, List.filter_nil, List.append_nil]
  | cons s l ih =>
    rw [inSpace_cons] at hstart hle hlines hs hfirst hsizes hbe ⊢
    rw [List.foldlM_cons]
    split at hstart
    · rename_i hspace
      rw [if_pos hspace] at hle hlines hs hfirst hsizes hbe ⊢
      have hbe := hbe.resolve_left (List.cons_ne_nil _ _)
      obtain ⟨hlater, hrest⟩ := List.pairwise_cons.1 hlines
      obtain ⟨image', hwrite, h', hlength⟩ := h.writeLEDataSection hpos hwidth hm hbe hstart
        (hle s List.mem_cons_self) hspace (hs s List.mem_cons_self) (hfirst s List.mem_cons_self)
        (hsizes s List.mem_cons_self)
      rw [hwrite]
      obtain ⟨image'', hwrites, h''⟩ := @ih image' (done ++ [s]) (.inr hbe) h'
        (hstart.next (.inr (by rw [hlength])))
        (fun t ht => by
          rw [hlength]
          exact hlater t ht)
        hrest (fun t ht => hs t (List.mem_cons_of_mem s ht))
        (fun t ht => hfirst t (List.mem_cons_of_mem s ht))
        (by
          rw [hlength]
          exact hsizes s List.mem_cons_self)
        (fun t ht => hsizes t (List.mem_cons_of_mem s ht))
      rw [List.append_assoc, List.singleton_append] at h''
      exact ⟨image'', hwrites, h''⟩
    · rename_i hspace
      rw [if_neg hspace] at hle hlines hs hfirst hsizes hbe ⊢
      rw [writeLEDataSection_foreign hspace hsize]
      exact ih hbe h hstart hle hlines hs hfirst hsize hsizes

end Sections

/-- The domain: MAUs of eight bits, at least one of them in a line, and sections whose address ranges
ascend from the start address on. -/
structure Ascending (c : Settings) (b : Binary) : Prop where
  width : c.width = 8
  lines : 1 ≤ c.mausPerLine
  start_le : ∀ s ∈ c.sections b, c.start ≤ s.start
  sections : (c.sections b).Pairwise fun s t => s.stop ≤ t.start
  writable : ∀ s ∈ c.sections b, Writable c b.relocSections s

/-- The conditions under which the sections get to their places: the start address is the default, or
at most one section is not empty; the little-endian sections begin at a line, none of them begins
in the line in which another one ends, and the first one does not end in the first line; and the
positions fit into 32 bits. -/
structure Regular (c : Settings) (b : Binary) : Prop where
  lineWidth : c.mausPerLine * 8 < 2 ^ 31
  start : c.start = 0 ∨ ∀ s ∈ (c.sections b).dropLast, s.start = c.start ∧ s.data = []
  size : b.leDataSections = [] ∨
    ∀ s ∈ c.sections b, 8 * lineEnd c.mausPerLine.toNat (s.stop - c.start) < 2 ^ 32
  aligned : c.inSpace b.leDataSections = [] ∨
    c.mausPerLine.toNat ∣ imageEnd c (c.inSpace b.dataSections)
  first : ∀ s ∈ c.inSpace b.leDataSections,
    s.stop = c.start ∨ c.start + c.mausPerLine.toNat ≤ s.stop
  lines : (c.inSpace b.leDataSections).Pairwise fun s t =>
    c.start + lineEnd c.mausPerLine.toNat (s.stop - c.start) ≤ t.start

/-- The image of the big-endian sections comes first. -/
theorem generateDataImage_eq (h : Ascending c b) (hr : Regular c b) :
    ∃ be image, generateDataImage c b = .ok (bitsOf image) ∧
      Placed c b.relocSections c.start (c.inSpace b.dataSections) be ∧
      (c.inSpace b.leDataSections = [] ∨ c.mausPerLine.toNat ∣ be.length) ∧
      (∀ s ∈ c.inSpace b.leDataSections, c.start + be.length ≤ s.start) ∧
      LinesPlaced c b.relocSections c.mausPerLine.toNat be (c.sections b) image := by
  have hlines := h.lines
  have hpos : 0 < c.mausPerLine.toNat := by omega
  have hstart : Startable c 0 (c.sections b) := by
    rcases hr.start with hstart | hstart
    · exact .inl hstart
    · exact .inr (.inr ⟨rfl, hstart⟩)
  obtain ⟨be, hwrite, hplaced, hlength, hstart, hle⟩ := foldlM_writeDataSection b.dataSections
    (c.inSpace b.leDataSections) (Placed.nil c.start) rfl hstart
    (fun s hs => h.start_le s hs) h.sections
    (fun s hs => h.writable s (List.mem_append_left _ hs))
  rw [List.nil_append] at hplaced hlength
  have haligned : c.inSpace b.leDataSections = [] ∨ c.mausPerLine.toNat ∣ be.length := by
    rw [hlength]
    exact hr.aligned
  have hempty : LinesPlaced c b.relocSections c.mausPerLine.toNat be
      (c.inSpace b.dataSections) be :=
    ⟨[], [], (List.append_nil be).symm, Nat.dvd_zero _, Mirrored.nil hpos,
      by rwa [List.append_nil]⟩
  have hrun : ∃ image, b.leDataSections.foldlM (writeLEDataSection c b.relocSections) (bitsOf be) =
      .ok (bitsOf image) ∧
      LinesPlaced c b.relocSections c.mausPerLine.toNat be (c.sections b) image := by
    rcases hr.size with hnone | hsize
    · rw [Settings.sections, hnone]
      refine ⟨be, rfl, ?_⟩
      change LinesPlaced _ _ _ _ (c.inSpace b.dataSections ++ []) be
      rwa [List.append_nil]
    · refine foldlM_writeLEDataSection b.leDataSections hpos h.width rfl haligned hempty hstart hle
        hr.lines (fun s hs => h.writable s (List.mem_append_right _ hs)) hr.first ?_
        (fun s hs => hsize s (List.mem_append_right _ hs))
      rw [hlength, imageEnd]
      split
      · rename_i s hs
        have hbound := hsize s (List.mem_append_left _ (List.mem_of_getLast? hs))
        have hend := le_lineEnd hpos (s.stop - c.start)
        omega
      · decide
  obtain ⟨image, hwrites, himage⟩ := hrun
  refine ⟨be, image, ?_, hplaced, haligned, hle, himage⟩
  have hwidth := hr.lineWidth
  rw [generateDataImage, if_neg (by omega), if_neg (by rw [h.width]; omega)]
  change (b.dataSections.foldlM (writeDataSection c b.relocSections) (bitsOf []) >>= _) = _
  rw [hwrite]
  exact hwrites

/-- The eight bits at a byte offset of the image. -/
def byteIn (dataBits : List Bool) (p : Nat) : List Bool := (dataBits.drop (8 * p)).take 8

theorem byteIn_bitsOf {image : List UInt8} (h : image[p]? = some x) :
    byteIn (bitsOf image) p = byteBits x := by
  obtain ⟨hp, hx⟩ := List.getElem?_eq_some_iff.1 h
  have hsplit : bitsOf image = bitsOf (image.take p) ++ (byteBits x ++ bitsOf (image.drop (p + 1))) := by
    rw [← bitsOf_cons, ← bitsOf_append, ← hx, List.cons_getElem_drop_succ, List.take_append_drop]
  have hlength : (bitsOf (image.take p)).length = 8 * p := by
    rw [length_bitsOf, List.length_take_of_le (Nat.le_of_lt hp)]
  rw [byteIn, hsplit, List.drop_left' hlength, List.take_left' (length_byteBits x)]

theorem memoryByte_eq_zero (h : ∀ s ∈ sections, ∀ o < s.length, s.start + o ≠ address) :
    memoryByte c relocSections sections address = 0 := by
  have hnone : (sections.find? fun s => s.start ≤ address ∧ address < s.stop) = none := by
    rw [List.find?_eq_none]
    intro s hs hcovers
    rw [decide_eq_true_iff, DataSection.stop] at hcovers
    exact h s hs (address - s.start) (by omega) (by omega)
  rw [memoryByte, hnone]

/-- Where the bytes of an image with reversed lines are. -/
theorem LinesPlaced.getElem?_mirror {be image : List UInt8} (hpos : 0 < m)
    (h : LinesPlaced c relocSections m be sections image) :
    (∀ p < be.length, image[p]? = be[p]?) ∧
    (∀ r, be.length + r < image.length → image[be.length + mirror m r]? =
      some (memoryByte c relocSections sections (c.start + (be.length + r)))) ∧
    (∀ s ∈ sections, s.stop ≤ c.start + image.length) ∧ ∃ q, image.length = be.length + m * q := by
  obtain ⟨le, le', rfl, hdvd, hmirrored, hplaced⟩ := h
  have hlength : le'.length = le.length := by
    rw [hmirrored.length_eq, lineEnd_of_dvd hpos hdvd]
  refine ⟨fun p hp => List.getElem?_append_left hp, fun r hr => ?_, fun s hs => ?_, ?_⟩
  · rw [List.length_append, hlength] at hr
    have hbyte := hplaced.getElem?_eq (be.length + r) (by rw [List.length_append]; exact hr)
    rw [List.getElem?_append_right (Nat.le_add_right _ _), Nat.add_sub_cancel_left] at hbyte
    rw [List.getElem?_append_right (Nat.le_add_right _ _), Nat.add_sub_cancel_left,
      hmirrored.getElem?_eq r (by omega), List.getD_eq_getElem?_getD, hbyte, Option.getD_some]
  · have hstop := hplaced.stop_le s hs
    rw [List.length_append] at hstop ⊢
    omega
  · obtain ⟨q, hq⟩ := hdvd
    exact ⟨q, by rw [List.length_append, hlength, hq]⟩

/-- Lines of four MAUs on a little-endian machine whose first instruction is at an address. -/
def wordLines (dataStart : Option Nat) : Settings :=
  ⟨"data", 8, 4, dataStart, true, fun _ => some 0x11223344⟩

/-- A section that begins in the middle of a line, with a relocated word. -/
def relocatedSection : Binary :=
  ⟨[], [⟨0, "data", 1, [1, 2, 3, 4, 5, 6, 7, 8]⟩], [⟨0, [⟨some 3, some 0⟩]⟩]⟩

theorem relocatedSection_ascending : Ascending (wordLines none) relocatedSection := by
  have hsections : (wordLines none).sections relocatedSection =
      [⟨0, "data", 1, [1, 2, 3, 4, 5, 6, 7, 8]⟩] := by decide
  refine ⟨rfl, by decide, by decide, ?_, ?_⟩
  · rw [hsections]
    exact List.pairwise_singleton _ _
  · rw [hsections]
    intro s hs
    rw [List.mem_singleton.1 hs]
    refine ⟨fun offset hlt => ?_, by decide⟩
    by_cases ho : offset = 3
    · subst ho
      refine ⟨some 0, rfl, fun t _ => ⟨⟨_, rfl⟩, by decide, ?_⟩⟩
      intro i hi hi'
      simp [relocTarget, relocatedSection, locate, Nat.ne_of_gt hi]
      rfl
    · refine ⟨none, ?_, fun t ht => by cases ht⟩
      simp [relocTarget, relocatedSection, locate, Ne.symm ho]
      rfl

theorem relocatedSection_regular : Regular (wordLines none) relocatedSection := by
  have hsections : (wordLines none).sections relocatedSection =
      [⟨0, "data", 1, [1, 2, 3, 4, 5, 6, 7, 8]⟩] := by decide
  refine ⟨by decide, .inl rfl, .inr ?_, .inr (by decide), by decide, by decide⟩
  rw [hsections]
  decide

theorem ascending_of_unrelocated {c : Settings} {b : Binary} (hwidth : c.width = 8)
    (hlines : 1 ≤ c.mausPerLine) (hstart : ∀ s ∈ c.sections b, c.start ≤ s.start)
    (hsections : (c.sections b).Pairwise fun s t => s.stop ≤ t.start)
    (hdata : ∀ s ∈ c.sections b, s.data.length < 2 ^ 32) (hrelocs : b.relocSections = []) :
    Ascending c b := by
  refine ⟨hwidth, hlines, hstart, hsections, fun s hs => ⟨fun offset _ => ?_, hdata s hs⟩⟩
  rw [hrelocs]
  exact ⟨none, rfl, fun t ht => by cases ht⟩

end DataImage

end OpenAsip
