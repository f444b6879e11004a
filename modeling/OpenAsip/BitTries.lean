import OpenAsip.CountedTries
import OpenAsip.MathTools

namespace OpenAsip
set_option autoImplicit true

namespace BitTrie

/-- A value of which the low bits are the pattern. -/
structure BitVector where
  value : BitVec 64
  width : Nat
deriving DecidableEq, Repr

/-- `MathTools::setBit` for 64 bits. -/
def setBit (bits : BitVec 64) (index : Nat) (bitState : Bool) : Outcome (BitVec 64) :=
  if index < 64 then
    .ok (if bitState then bits ||| 1#64 <<< index else bits &&& ~~~(1#64 <<< index))
  else .error .undefined

section Model
variable (bitReadLeftToRight : Bool)

def nextBit (bits : BitVector) : Outcome Bool :=
  if 0 < bits.width then
    MathTools.bit bits.value.toNat (if bitReadLeftToRight then bits.width - 1 else 0)
  else .error .assertion

def stripBit (bits : BitVector) : BitVector :=
  ⟨if bitReadLeftToRight then bits.value else bits.value >>> 1, bits.width - 1⟩

/-- The counters are 32 bits wide. -/
def nodeTerminatesPattern (node : CountedTrie) : Outcome Bool :=
  let subFreq := ((node.child false).count + (node.child true).count) % 2 ^ 32
  if node.count < subFreq then .error .assertion
  else if node.count - subFreq < 2 then .ok (node.count - subFreq = 1)
  else .error .assertion

/-- The calls for the nodes on the way down. The number is the width that is left. -/
def frequencyLoop : Nat → BitVec 64 → CountedTrie → Outcome Nat
  | 0, _, node => .ok node.count
  | width + 1, value, node => do
    let b ← nextBit bitReadLeftToRight ⟨value, width + 1⟩
    match node.child b with
    | .null => .ok 0
    | nextNode =>
      frequencyLoop width (stripBit bitReadLeftToRight ⟨value, width + 1⟩).value nextNode

def frequency (trie : CountedTrie) (bits : BitVector) : Outcome Nat :=
  frequencyLoop bitReadLeftToRight bits.width bits.value trie

def findNodeLoop : Nat → BitVec 64 → CountedTrie → Outcome CountedTrie
  | 0, _, node => .ok node
  | width + 1, value, node => do
    let b ← nextBit bitReadLeftToRight ⟨value, width + 1⟩
    match node.child b with
    | .null => .ok .null
    | nextNode =>
      findNodeLoop width (stripBit bitReadLeftToRight ⟨value, width + 1⟩).value nextNode

/-- Only the empty pattern leads to the root node. -/
def check (trie : CountedTrie) (bits : BitVector) : Outcome Bool := do
  let found ← findNodeLoop bitReadLeftToRight bits.width bits.value trie
  match found with
  | .null => .ok false
  | found => if bits.width = 0 then .ok false else nodeTerminatesPattern found

def withChild (node : CountedTrie) (count : Nat) (b : Bool) (child : CountedTrie) : CountedTrie :=
  if b then .node count (node.child false) child else .node count child (node.child true)

def insertLoop : Nat → BitVec 64 → CountedTrie → Outcome CountedTrie
  | 0, _, node => do
    let node := .node ((node.count + 1) % 2 ^ 32) (node.child false) (node.child true)
    let terminates ← nodeTerminatesPattern node
    if terminates then .ok node else .error .assertion
  | width + 1, value, node => do
    let b ← nextBit bitReadLeftToRight ⟨value, width + 1⟩
    let child := match node.child b with
      | .null => .node 0 .null .null
      | child => child
    let child ← insertLoop width (stripBit bitReadLeftToRight ⟨value, width + 1⟩).value child
    .ok (withChild node ((node.count + 1) % 2 ^ 32) b child)

def insert (trie : CountedTrie) (bits : BitVector) : Outcome (Bool × CountedTrie) := do
  let present ← check bitReadLeftToRight trie bits
  if present then .ok (false, trie)
  else if bits.width = 0 then .ok (false, trie)
  else
    let trie ← insertLoop bitReadLeftToRight bits.width bits.value trie
    .ok (true, trie)

def eraseLoop : Nat → BitVec 64 → CountedTrie → Outcome (Bool × CountedTrie)
  | 0, _, node =>
    let count := if node.count ≠ 0 then node.count - 1 else node.count
    .ok (true, .node count (node.child false) (node.child true))
  | width + 1, value, node => do
    let b ← nextBit bitReadLeftToRight ⟨value, width + 1⟩
    match node.child b with
    | .null => .ok (false, node)
    | child =>
      let (erased, child) ←
        eraseLoop width (stripBit bitReadLeftToRight ⟨value, width + 1⟩).value child
      if erased then
        let child := if child.count = 0 then .null else child
        .ok (true, withChild node ((node.count + 2 ^ 32 - 1) % 2 ^ 32) b child)
      else .ok (true, withChild node node.count b child)

def erase (trie : CountedTrie) (bits : BitVector) : Outcome (Bool × CountedTrie) := do
  let present ← check bitReadLeftToRight trie bits
  if present then
    if bits.width = 0 then .ok (false, trie)
    else eraseLoop bitReadLeftToRight bits.width bits.value trie
  else .ok (false, trie)

def clear (_ : CountedTrie) : CountedTrie := .node 0 .null .null

def size (trie : CountedTrie) : Nat := trie.count

/-- The bits from a node up to the root are set one after the other. -/
def patternAtNode (parents : List (Bool × CountedTrie)) : Outcome BitVector := do
  let width := parents.length
  let value ← (parents.map Prod.fst).zipIdx.foldlM (fun value (b, i) =>
    setBit value (if bitReadLeftToRight then i else width - 1 - i) b) 0#64
  .ok ⟨value, width⟩

/-- The way up from a node. The parents are listed from the nearest one on, each with the bit that
leads down from it. -/
def longestCompletePatternUp (node : CountedTrie) :
    List (Bool × CountedTrie) → Outcome BitVector
  | [] => do
    let terminates ← nodeTerminatesPattern node
    if terminates then patternAtNode bitReadLeftToRight [] else .ok ⟨0#64, 0⟩
  | (b, parent) :: parents => do
    let terminates ← nodeTerminatesPattern node
    if terminates then patternAtNode bitReadLeftToRight ((b, parent) :: parents)
    else longestCompletePatternUp parent parents

def longestCompletePatternLoop : Nat → BitVec 64 → CountedTrie → List (Bool × CountedTrie) →
    Outcome BitVector
  | 0, _, node, parents => longestCompletePatternUp bitReadLeftToRight node parents
  | width + 1, value, node, parents => do
    let b ← nextBit bitReadLeftToRight ⟨value, width + 1⟩
    match node.child b with
    | .null => longestCompletePatternUp bitReadLeftToRight node parents
    | nextNode =>
      longestCompletePatternLoop width (stripBit bitReadLeftToRight ⟨value, width + 1⟩).value
        nextNode ((b, node) :: parents)

def longestCompletePattern (trie : CountedTrie) (bits : BitVector) : Outcome BitVector :=
  longestCompletePatternLoop bitReadLeftToRight bits.width bits.value trie []

end Model

/-- The bits of a pattern in the order in which the trie reads them. -/
def reading (bitReadLeftToRight : Bool) : Nat → BitVec 64 → List Bool
  | 0, _ => []
  | width + 1, value =>
    (if bitReadLeftToRight then value.getLsbD width else value.getLsbD 0) ::
      reading bitReadLeftToRight width (stripBit bitReadLeftToRight ⟨value, width + 1⟩).value

/-- From the left, `MathTools::bit` reads patterns of at most 32 bits only. -/
def Readable (bitReadLeftToRight : Bool) (width : Nat) (value : BitVec 64) : Prop :=
  bitReadLeftToRight = true → width ≤ 32 ∧ value.toNat < 2 ^ 32

section Reading
variable {ltr : Bool} {width : Nat} {value : BitVec 64}

theorem Readable.strip (h : Readable ltr (width + 1) value) :
    Readable ltr width (stripBit ltr ⟨value, width + 1⟩).value := by
  intro hltr
  obtain ⟨hwidth, hvalue⟩ := h hltr
  rw [stripBit, hltr, if_pos rfl]
  exact ⟨Nat.le_of_succ_le hwidth, hvalue⟩

theorem Readable.nextBit (h : Readable ltr (width + 1) value) :
    nextBit ltr ⟨value, width + 1⟩ =
      .ok (if ltr then value.getLsbD width else value.getLsbD 0) := by
  rw [BitTrie.nextBit, if_pos (Nat.succ_pos width)]
  cases ltr with
  | false => exact MathTools.bit_zero value.toNat
  | true =>
    obtain ⟨hwidth, hvalue⟩ := h rfl
    exact MathTools.bit_eq hvalue (Nat.lt_of_succ_le hwidth)

theorem length_reading (ltr : Bool) (width : Nat) (value : BitVec 64) :
    (reading ltr width value).length = width := by
  induction width generalizing value with
  | zero => rfl
  | succ width ih => rw [reading, List.length_cons, ih]

theorem getElem?_reading (ltr : Bool) (value : BitVec 64) {k : Nat} (hk : k < width) :
    (reading ltr width value)[k]? = some (value.getLsbD (if ltr then width - 1 - k else k)) := by
  induction width generalizing value k with
  | zero => cases hk
  | succ width ih =>
    rw [reading]
    cases k with
    | zero =>
      rw [List.getElem?_cons_zero]
      cases ltr with
      | false => rfl
      | true => rfl
    | succ k =>
      rw [List.getElem?_cons_succ, ih _ (Nat.lt_of_succ_lt_succ hk), stripBit]
      cases ltr with
      | false => simp [Nat.add_comm]
      | true => simp [Nat.sub_sub, Nat.add_comm]

/-- The reading of a value within the width says which value it is. -/
theorem reading_inj {value' : BitVec 64} (hvalue : value.toNat < 2 ^ width)
    (hvalue' : value'.toNat < 2 ^ width) (h : reading ltr width value = reading ltr width value') :
    value = value' := by
  apply BitVec.eq_of_getLsbD_eq
  intro j _
  by_cases hj : j < width
  · have hk : (if ltr then width - 1 - j else j) < width := by
      split <;> omega
    have hbit := (getElem?_reading ltr value hk).symm.trans
      ((congrArg (·[if ltr then width - 1 - j else j]?) h).trans (getElem?_reading ltr value' hk))
    have hback : (if ltr then width - 1 - (if ltr then width - 1 - j else j)
        else if ltr then width - 1 - j else j) = j := by
      split <;> omega
    rw [hback] at hbit
    exact Option.some.inj hbit
  · have hhigh : ∀ v : BitVec 64, v.toNat < 2 ^ width → v.getLsbD j = false := by
      intro v hv
      exact Nat.testBit_lt_two_pow
        (Nat.lt_of_lt_of_le hv (Nat.pow_le_pow_right Nat.two_pos (Nat.le_of_not_lt hj)))
    rw [hhigh value hvalue, hhigh value' hvalue']

end Reading

section Nodes
variable {ltr : Bool} {width : Nat} {value : BitVec 64} {t : CountedTrie}

theorem findNodeLoop_eq (h : Readable ltr width value) :
    findNodeLoop ltr width value t = .ok (t.find (reading ltr width value)) := by
  induction width generalizing value t with
  | zero => rfl
  | succ width ih =>
    rw [findNodeLoop, h.nextBit, reading, CountedTrie.find]
    change (match t.child _ with
      | .null => .ok .null
      | nextNode => findNodeLoop ltr width _ nextNode : Outcome CountedTrie) = _
    split
    · rename_i hnull
      rw [hnull, CountedTrie.find_null]
    · exact ih h.strip

theorem frequencyLoop_eq (h : Readable ltr width value) :
    frequencyLoop ltr width value t = .ok (t.find (reading ltr width value)).count := by
  induction width generalizing value t with
  | zero => rfl
  | succ width ih =>
    rw [frequencyLoop, h.nextBit, reading, CountedTrie.find]
    change (match t.child _ with
      | .null => .ok 0
      | nextNode => frequencyLoop ltr width _ nextNode : Outcome Nat) = _
    split
    · rename_i hnull
      rw [hnull, CountedTrie.find_null]
      rfl
    · exact ih h.strip

theorem nodeTerminatesPattern_eq (h : t.WellFormed) (hcount : t.count < 2 ^ 32) :
    nodeTerminatesPattern t = .ok (decide t.Terminates) := by
  have hle := h.le_count
  have hlt := h.count_le
  rw [nodeTerminatesPattern, Nat.mod_eq_of_lt (by omega), if_neg (by omega), if_pos (by omega)]
  apply congrArg Except.ok
  rw [decide_eq_decide, CountedTrie.Terminates]
  omega

/-- The empty pattern, which cannot be inserted, does not end at the root. -/
theorem check_eq (hwf : t.WellFormed) (hcount : t.count < 2 ^ 32) (hroot : ¬ t.Terminates)
    (h : Readable ltr width value) :
    check ltr t ⟨value, width⟩ = .ok (decide (reading ltr width value ∈ t.patterns)) := by
  rw [check, findNodeLoop_eq h]
  change (match t.find (reading ltr width value) with
    | .null => .ok false
    | found => if width = 0 then .ok false else nodeTerminatesPattern found : Outcome Bool) = _
  simp only [CountedTrie.mem_patterns]
  split
  · rename_i hnull
    rw [hnull]
    rfl
  · cases width with
    | zero =>
      rw [if_pos rfl]
      exact congrArg _ (decide_eq_false hroot).symm
    | succ width =>
      rw [if_neg (Nat.succ_ne_zero width), nodeTerminatesPattern_eq (hwf.find _)
        (Nat.lt_of_le_of_lt (hwf.count_find_le _) hcount)]

theorem add_new (l : List Bool) :
    (CountedTrie.node 0 .null .null).add l = CountedTrie.null.add l := by
  cases l with
  | nil => rfl
  | cons b l =>
    cases b with
    | false => rfl
    | true => rfl

theorem insertLoop_eq (hwf : t.WellFormed) (hcount : t.count + 1 < 2 ^ 32)
    (h : Readable ltr width value) (hmem : reading ltr width value ∉ t.patterns) :
    insertLoop ltr width value t = .ok (t.add (reading ltr width value)) := by
  induction width generalizing value t with
  | zero =>
    have hadd := hwf.add hmem
    have hend : (t.add []).Terminates := by
      rw [← CountedTrie.nil_mem_patterns]
      exact (hwf.mem_add hmem).2 (.inl rfl)
    have hterm := nodeTerminatesPattern_eq hadd (by rw [CountedTrie.count_add]; exact hcount)
    rw [insertLoop, Nat.mod_eq_of_lt hcount]
    change nodeTerminatesPattern (t.add []) >>= _ = _
    rw [reading] at hterm
    rw [hterm, decide_eq_true hend]
    rfl
  | succ width ih =>
    rw [reading] at hmem ⊢
    rw [CountedTrie.cons_mem_patterns] at hmem
    generalize hb : (if ltr then value.getLsbD width else value.getLsbD 0) = b at hmem ⊢
    have hchild := hwf.count_child_le b
    have hnew : insertLoop ltr width (stripBit ltr ⟨value, width + 1⟩).value
        (match t.child b with
          | .null => .node 0 .null .null
          | child => child) =
        .ok ((t.child b).add (reading ltr width (stripBit ltr ⟨value, width + 1⟩).value)) := by
      split
      · rename_i hnull
        rw [hnull, ← add_new]
        exact ih ⟨by simp, by simp, nofun, nofun, trivial, trivial⟩ (by simp) h.strip
          (by simp [CountedTrie.patterns, CountedTrie.Terminates])
      · exact ih (hwf.child b) (by omega) h.strip hmem
    rw [insertLoop, h.nextBit, hb]
    change insertLoop ltr width _ _ >>= _ = _
    rw [hnew, Nat.mod_eq_of_lt hcount]
    cases b with
    | false => rfl
    | true => rfl

theorem eraseLoop_eq (hwf : t.WellFormed) (hcount : t.count < 2 ^ 32)
    (h : Readable ltr width value) (hmem : reading ltr width value ∈ t.patterns) :
    eraseLoop ltr width value t = .ok (true, t.remove (reading ltr width value)) := by
  induction width generalizing value t with
  | zero =>
    have hpos := hwf.count_pos hmem
    rw [eraseLoop, if_pos (by omega)]
    rfl
  | succ width ih =>
    have hpos := hwf.count_pos hmem
    rw [reading] at hmem ⊢
    rw [CountedTrie.cons_mem_patterns] at hmem
    generalize hb : (if ltr then value.getLsbD width else value.getLsbD 0) = b at hmem ⊢
    have hchild := hwf.count_child_le b
    have hold := ih (hwf.child b) (by omega) h.strip hmem
    rw [eraseLoop, h.nextBit, hb]
    change (match t.child b with
      | .null => .ok (false, t)
      | child => eraseLoop ltr width _ child >>= _ : Outcome (Bool × CountedTrie)) = _
    split
    · rename_i hnull
      rw [hnull] at hmem
      exact (Finset.notMem_empty _ hmem).elim
    · rw [hold, show (t.count + 2 ^ 32 - 1) % 2 ^ 32 = t.count - 1 by omega]
      cases b with
      | false => rfl
      | true => rfl

theorem longestCompletePatternLoop_null (h : Readable ltr (width + 1) value)
    (parents : List (Bool × CountedTrie))
    (hnull : t.child (if ltr then value.getLsbD width else value.getLsbD 0) = .null) :
    longestCompletePatternLoop ltr (width + 1) value t parents =
      longestCompletePatternUp ltr t parents := by
  rw [longestCompletePatternLoop, h.nextBit]
  change (match t.child _ with
    | .null => longestCompletePatternUp ltr t parents
    | nextNode => longestCompletePatternLoop ltr width _ nextNode ((_, t) :: parents) :
      Outcome BitVector) = _
  rw [hnull]

theorem longestCompletePatternLoop_child (h : Readable ltr (width + 1) value)
    (parents : List (Bool × CountedTrie)) {b : Bool}
    (hb : (if ltr then value.getLsbD width else value.getLsbD 0) = b) (hne : t.child b ≠ .null) :
    longestCompletePatternLoop ltr (width + 1) value t parents =
      longestCompletePatternLoop ltr width (stripBit ltr ⟨value, width + 1⟩).value (t.child b)
        ((b, t) :: parents) := by
  rw [longestCompletePatternLoop, h.nextBit, hb]
  change (match t.child b with
    | .null => longestCompletePatternUp ltr t parents
    | nextNode => longestCompletePatternLoop ltr width _ nextNode ((b, t) :: parents) :
      Outcome BitVector) = _
  split
  · rename_i hnull
    exact (hne hnull).elim
  · rfl

end Nodes

end BitTrie
end OpenAsip
