import Mathlib.Algebra.Order.Ring.Int
import OpenAsip.Outcomes

namespace OpenAsip
set_option autoImplicit true

namespace Scheduler

/-- What is read of the other resources that a unit is related to. -/
structure RelatedResource where
  isOutputPSocketResource : Bool
  isInUse : Int → Bool

inductive Source (ν : Type) where
  | immediate (value : ν)
  | immediateRegister (index : Nat)
  | register
deriving DecidableEq

structure MoveNode (ν : Type) where
  source : Source ν
  cycle : Int
deriving DecidableEq

/-- `ResourceRecordType`. -/
structure ResourceRecord (ν : Type) where
  definition : Int
  use : Int
  immediateValue : Option ν
deriving DecidableEq

structure IUResource (ν : Type) (registerCount : Nat) where
  width : Int
  latency : Nat
  signExtension : Bool
  initiationInterval : Nat
  resourceRecord : Vector (List (ResourceRecord ν)) registerCount
deriving DecidableEq

namespace IUResource
variable {ν : Type} {registerCount : Nat}

def create (registerCount : Nat) (width : Int) (latency : Nat) (signExtension : Bool)
    (initiationInterval : Nat) : IUResource ν registerCount :=
  ⟨width, latency, signExtension, initiationInterval, Vector.replicate _ []⟩

/-- The remainder is that of C++, and -1 and `INT_MAX` are not cycles. -/
def instructionIndex (r : IUResource ν registerCount) (cycle : Int) : Int :=
  if r.initiationInterval ≠ 0 ∧ cycle ≠ -1 ∧ cycle ≠ 2 ^ 31 - 1 then
    cycle.tmod r.initiationInterval
  else cycle

/-- Whether the inner loop of `findAvailable` sets the marker for a record. -/
def marked (r : IUResource ν registerCount) (modDef modUse : Int) (other : ResourceRecord ν) :
    Bool :=
  let modOtherDef := r.instructionIndex (other.definition + r.latency)
  let modOtherUse := r.instructionIndex other.use
  (if modOtherUse ≥ modOtherDef then
    (modUse ≥ modOtherDef && modUse ≤ modOtherUse) ||
      (modDef ≥ modOtherDef && modDef ≤ modOtherUse)
  else
    (modUse ≥ modOtherDef || modUse ≤ modOtherUse) ||
      (modDef ≥ modOtherDef || modDef ≤ modOtherUse)) ||
  (if modDef ≤ modUse then modOtherDef ≥ modDef && modOtherDef ≤ modUse
  else modOtherDef ≥ modDef || modOtherDef ≤ modUse)

/-- The first register that is free, of which -1 is not a number. -/
def findAvailable (r : IUResource ν registerCount) (defCycle useCycle immRegIndex : Int) :
    Option (Fin registerCount) :=
  let modDef := r.instructionIndex (defCycle + r.latency)
  let modUse := r.instructionIndex useCycle
  (List.finRange registerCount).find? fun i =>
    (immRegIndex = -1 || (i : Nat) = immRegIndex) &&
      !(r.resourceRecord[i]).any (r.marked modDef modUse)

/-- The widths that the immediates need are those that `MachineConnectivityCheck` computes. The
cycles and their difference are of the type `int`. -/
def canAssign (requiredImmediateWidth : Bool → ν → Int) (r : IUResource ν registerCount)
    (relatedResources : List RelatedResource) (defCycle useCycle : Int) (node : MoveNode ν)
    (immRegIndex : Int) : Outcome Bool :=
  if defCycle > useCycle then .ok false
  else if 2 ^ 31 ≤ useCycle - defCycle then .error .undefined
  else if useCycle - defCycle < r.latency then .ok false
  else
    match node.source with
    | .immediate value =>
      if (r.findAvailable defCycle useCycle immRegIndex).isSome then
        if requiredImmediateWidth r.signExtension value > r.width then .ok false
        else .ok (relatedResources.any fun relRes =>
          relRes.isOutputPSocketResource && !relRes.isInUse (r.instructionIndex useCycle))
      else .ok false
    | _ => .ok false

/-- The record gets the source as an immediate, which is a cast without a check. -/
def assign (r : IUResource ν registerCount) (defCycle useCycle : Int) (node : MoveNode ν)
    (index : Int) : Outcome (IUResource ν registerCount × Nat) :=
  if defCycle > useCycle then .error (.exception .general)
  else if 2 ^ 31 ≤ useCycle - defCycle then .error .undefined
  else if useCycle - defCycle < r.latency then .error (.exception .general)
  else
    match r.findAvailable defCycle useCycle index with
    | none => .error (.exception .general)
    | some i =>
      match node.source with
      | .immediate value =>
        let records := r.resourceRecord[i] ++ [⟨defCycle, useCycle, some value⟩]
        .ok ({ r with resourceRecord := r.resourceRecord.set i records }, i)
      | _ => .error .undefined

/-- The record of the register of the node is removed, and the node gets back the immediate. -/
def unassign (r : IUResource ν registerCount) (node : MoveNode ν) :
    Outcome (IUResource ν registerCount × MoveNode ν) :=
  match node.source with
  | .immediateRegister regIndex =>
    if h : regIndex < registerCount then
      let records := r.resourceRecord[regIndex]
      match records.find? fun record => node.cycle = record.use with
      | none => .error (.exception .general)
      | some record =>
        let source := match record.immediateValue with
          | some value => .immediate value
          | none => node.source
        let rest := records.eraseP fun record => node.cycle = record.use
        .ok ({ r with resourceRecord := r.resourceRecord.set regIndex rest },
          { node with source := source })
    else .error (.exception .outOfRange)
  | _ => .error (.exception .general)

inductive Call (ν : Type) where
  | assign (relatedResources : List RelatedResource) (defCycle useCycle : Int) (node : MoveNode ν)
      (immRegIndex : Int)
  | unassign (node : MoveNode ν)

section Runs
variable (requiredImmediateWidth : Bool → ν → Int)

/-- Only what `canAssign` accepts is assigned. The registers that the calls have returned are
kept. -/
def step (s : IUResource ν registerCount × List Nat) :
    Call ν → Outcome (IUResource ν registerCount × List Nat)
  | .assign relatedResources defCycle useCycle node immRegIndex => do
    let accepted ← s.1.canAssign requiredImmediateWidth relatedResources defCycle useCycle node
      immRegIndex
    if accepted then
      let (r, index) ← s.1.assign defCycle useCycle node immRegIndex
      .ok (r, s.2 ++ [index])
    else .ok s
  | .unassign node => attempt s do
    let (r, _) ← s.1.unassign node
    .ok (r, s.2)

/-- The immediate is in its register. -/
def Live (latency : Nat) (record : ResourceRecord ν) (cycle : Int) : Prop :=
  record.definition + latency ≤ cycle ∧ cycle ≤ record.use

/-- With an initiation interval of 0 the remainder is the cycle. -/
def Apart (latency initiationInterval : Nat) (record other : ResourceRecord ν) : Prop :=
  ∀ cycle cycle', Live latency record cycle → Live latency other cycle' →
    cycle % initiationInterval ≠ cycle' % initiationInterval

/-- The immediates in a register are there at different times, and the registers returned exist. -/
structure Separate (s : IUResource ν registerCount × List Nat) : Prop where
  apart : ∀ i : Fin registerCount,
    s.1.resourceRecord[i].Pairwise (Apart s.1.latency s.1.initiationInterval)
  index_lt : ∀ index ∈ s.2, index < registerCount

/-- A range of cycles is not longer than the initiation interval. -/
def InInterval (latency initiationInterval : Nat) (defCycle useCycle : Int) : Prop :=
  initiationInterval ≠ 0 → 0 ≤ defCycle + latency ∧
    useCycle - (defCycle + latency) < initiationInterval ∧ useCycle < 2 ^ 31 - 1

/-- What the callers of the unit keep to. -/
def Kept (s : IUResource ν registerCount × List Nat) : Call ν → Prop
  | .assign relatedResources defCycle useCycle node immRegIndex =>
    useCycle - defCycle < 2 ^ 31 ∧
      (s.1.canAssign requiredImmediateWidth relatedResources defCycle useCycle node immRegIndex =
        .ok true → InInterval s.1.latency s.1.initiationInterval defCycle useCycle)
  | .unassign _ => True

instance (latency initiationInterval : Nat) (defCycle useCycle : Int) :
    Decidable (InInterval latency initiationInterval defCycle useCycle) :=
  inferInstanceAs (Decidable (_ → _))

instance (s : IUResource ν registerCount × List Nat) :
    ∀ call, Decidable (Kept requiredImmediateWidth s call)
  | .assign _ _ _ _ _ => inferInstanceAs (Decidable (_ ∧ (_ → _)))
  | .unassign _ => isTrue trivial

end Runs

/-- A position in the interval is in a range, of which the ends are wrapped. -/
def Between (first last x : Int) : Prop :=
  if first ≤ last then first ≤ x ∧ x ≤ last else first ≤ x ∨ x ≤ last

theorem instructionIndex_eq (r : IUResource ν registerCount)
    {cycle : Int}
    (h : r.initiationInterval ≠ 0 → 0 ≤ cycle ∧ cycle < 2 ^ 31 - 1) :
    r.instructionIndex cycle = cycle % r.initiationInterval := by
  rw [instructionIndex]
  by_cases hii : r.initiationInterval = 0
  · rw [if_neg (by omega), hii]
    exact (Int.emod_zero cycle).symm
  · obtain ⟨hnonneg, hlt⟩ := h hii
    rw [if_pos (by omega), Int.tmod_eq_emod_of_nonneg hnonneg]

/-- A range that is not longer than the interval is the one between its wrapped ends. -/
theorem between_emod {first last x : Int} {interval : Nat} (hfirst : first ≤ x) (hlast : x ≤ last)
    (hlen : interval ≠ 0 → last - first < interval) :
    Between (first % interval) (last % interval) (x % interval) := by
  by_cases hzero : interval = 0
  · subst hzero
    rw [Between]
    simp only [Int.natCast_zero, Int.emod_zero]
    rw [if_pos (by omega)]
    exact ⟨hfirst, hlast⟩
  · replace hlen := hlen hzero
    have hpos : (0 : Int) < interval := by omega
    have hdiv := Int.emod_add_mul_ediv first interval
    have hlow := Int.emod_nonneg first (by omega : (interval : Int) ≠ 0)
    have hhigh := Int.emod_lt_of_pos first hpos
    -- Both are seen from the first multiple of the interval that is not after the range.
    have hwrap : ∀ y, first ≤ y → y ≤ last → y % interval =
        if y - interval * (first / interval) < interval then y - interval * (first / interval)
        else y - interval * (first / interval) - interval := by
      intro y hge hle
      have hmod : y % interval = (y - interval * (first / interval)) % interval :=
        (Int.sub_mul_emod_self_left ..).symm
      rw [hmod]
      split
      · exact Int.emod_eq_of_lt (by omega) (by assumption)
      · rw [← Int.sub_emod_right]
        exact Int.emod_eq_of_lt (by omega) (by omega)
    rw [hwrap x hfirst hlast, hwrap last (by omega) (by omega), Between]
    split <;> split <;> split <;> omega

theorem InInterval.index {latency interval : Nat} {defCycle useCycle cycle : Int}
    (h : InInterval latency interval defCycle useCycle) (hfirst : defCycle + latency ≤ cycle)
    (hlast : cycle ≤ useCycle) : interval ≠ 0 → 0 ≤ cycle ∧ cycle < 2 ^ 31 - 1 := by
  intro hii
  obtain ⟨hnonneg, _, hlt⟩ := h hii
  omega

/-- A record that is not marked has a range apart from the given one. -/
theorem apart_of_not_marked (r : IUResource ν registerCount) {record : ResourceRecord ν}
    {defCycle useCycle : Int} (value : Option ν)
    (hother : InInterval r.latency r.initiationInterval record.definition record.use)
    (hnew : InInterval r.latency r.initiationInterval defCycle useCycle)
    (h : r.marked (r.instructionIndex (defCycle + r.latency)) (r.instructionIndex useCycle)
      record = false) :
    Apart r.latency r.initiationInterval record ⟨defCycle, useCycle, value⟩ := by
  rintro cycle cycle' ⟨hfirst, hlast⟩ ⟨hfirst', hlast'⟩ heq
  dsimp only at hfirst' hlast'
  have hin := between_emod hfirst hlast fun hii => (hother hii).2.1
  have hin' := between_emod hfirst' hlast' fun hii => (hnew hii).2.1
  rw [heq] at hin
  have hod := r.instructionIndex_eq (hother.index (Int.le_refl _) (Int.le_trans hfirst hlast))
  have hou := r.instructionIndex_eq (hother.index (Int.le_trans hfirst hlast) (Int.le_refl _))
  have hd := r.instructionIndex_eq (hnew.index (Int.le_refl _) (Int.le_trans hfirst' hlast'))
  have hu := r.instructionIndex_eq (hnew.index (Int.le_trans hfirst' hlast') (Int.le_refl _))
  simp only [marked, hod, hou, hd, hu, Bool.or_eq_false_iff] at h
  obtain ⟨hends, hinside⟩ := h
  rw [Between] at hin hin'
  split at hends
  · rename_i hordered
    rw [if_pos hordered] at hin
    simp only [Bool.or_eq_false_iff, Bool.and_eq_false_iff, decide_eq_false_iff_not] at hends
    split at hin'
    · rename_i hordered'
      rw [if_pos hordered', Bool.and_eq_false_iff, decide_eq_false_iff_not,
        decide_eq_false_iff_not] at hinside
      omega
    · rename_i hwrapped
      rw [if_neg hwrapped, Bool.or_eq_false_iff, decide_eq_false_iff_not,
        decide_eq_false_iff_not] at hinside
      omega
  · rename_i hwrapped
    rw [if_neg hwrapped] at hin
    simp only [Bool.or_eq_false_iff, decide_eq_false_iff_not] at hends
    split at hin'
    · rename_i hordered'
      rw [if_pos hordered', Bool.and_eq_false_iff, decide_eq_false_iff_not,
        decide_eq_false_iff_not] at hinside
      omega
    · rename_i hwrapped'
      rw [if_neg hwrapped', Bool.or_eq_false_iff, decide_eq_false_iff_not,
        decide_eq_false_iff_not] at hinside
      omega

theorem find?_spec (r : IUResource ν registerCount) {defCycle useCycle immRegIndex : Int}
    (h : r.findAvailable defCycle useCycle immRegIndex = some i) :
    ∀ record ∈ r.resourceRecord[i], r.marked (r.instructionIndex (defCycle + r.latency))
      (r.instructionIndex useCycle) record = false := by
  have hfound := List.find?_some h
  rw [Bool.and_eq_true, Bool.not_eq_true', List.any_eq_false] at hfound
  intro record hrecord
  exact Bool.eq_false_iff.2 (hfound.2 record hrecord)

/-- An immediate is accepted only when a register is free. -/
theorem canAssign_true {requiredImmediateWidth : Bool → ν → Int} (r : IUResource ν registerCount)
    {defCycle useCycle immRegIndex : Int}
    (h : r.canAssign requiredImmediateWidth relatedResources defCycle useCycle node immRegIndex =
      .ok true) : ∃ i value, r.findAvailable defCycle useCycle immRegIndex = some i ∧
      node.source = .immediate value ∧ r.assign defCycle useCycle node immRegIndex =
        .ok ({ r with resourceRecord := (r.resourceRecord.set i.1
          (r.resourceRecord[i] ++ [⟨defCycle, useCycle, some value⟩]) i.2) }, i.1) := by
  rw [canAssign] at h
  split at h
  · cases h
  · rename_i horder
    split at h
    · cases h
    · rename_i hsize
      split at h
      · cases h
      · rename_i hclose
        split at h
        · rename_i value hsource
          split at h
          · rename_i hsome
            obtain ⟨i, hi⟩ := Option.isSome_iff_exists.1 hsome
            refine ⟨i, value, hi, hsource, ?_⟩
            rw [assign, if_neg horder, if_neg hsize, if_neg hclose, hi, hsource]
          · cases h
        · cases h

/-- What holds in all states of a run. -/
structure Inv (s : IUResource ν registerCount × List Nat) : Prop where
  separate : Separate s
  inInterval : ∀ i : Fin registerCount, ∀ record ∈ s.1.resourceRecord[i],
    InInterval s.1.latency s.1.initiationInterval record.definition record.use

theorem create_inv (width : Int) (latency : Nat) (signExtension : Bool)
    (initiationInterval : Nat) : Inv ((create registerCount width latency signExtension
      initiationInterval : IUResource ν registerCount), []) := by
  have hempty : ∀ i : Fin registerCount, (create registerCount width latency signExtension
      initiationInterval : IUResource ν registerCount).resourceRecord[i] = [] := by
    intro i
    exact Vector.getElem_replicate i.2
  constructor
  · constructor
    · intro i
      dsimp only
      rw [hempty]
      exact .nil
    · intro index hindex
      cases hindex
  · intro i record hrecord
    dsimp only at hrecord
    rw [hempty] at hrecord
    cases hrecord

/-- The records of one register are replaced. -/
theorem Inv.set {r : IUResource ν registerCount} (h : Inv (r, assigned)) {k : Nat}
    (hk : k < registerCount) {records : List (ResourceRecord ν)}
    (hapart : records.Pairwise (Apart r.latency r.initiationInterval))
    (hin : ∀ record ∈ records,
      InInterval r.latency r.initiationInterval record.definition record.use)
    (hassigned : ∀ index ∈ assigned', index < registerCount) :
    Inv ({ r with resourceRecord := r.resourceRecord.set k records hk }, assigned') := by
  have hget : ∀ i : Fin registerCount, (r.resourceRecord.set k records hk)[i] =
      if k = i then records else r.resourceRecord[i] := by
    intro i
    exact Vector.getElem_set ..
  constructor
  · constructor
    · intro i
      dsimp only
      rw [hget]
      split
      · exact hapart
      · exact h.separate.apart i
    · exact hassigned
  · intro i
    dsimp only
    rw [hget]
    split
    · exact hin
    · exact h.inInterval i

/-- What is assigned is put behind records it is apart from. -/
theorem Inv.assign {r : IUResource ν registerCount} (h : Inv (r, assigned))
    {defCycle useCycle immRegIndex : Int}
    (hi : r.findAvailable defCycle useCycle immRegIndex = some i)
    (hin : InInterval r.latency r.initiationInterval defCycle useCycle) (value : Option ν) :
    Inv ({ r with resourceRecord := (r.resourceRecord.set i.1
      (r.resourceRecord[i] ++ [⟨defCycle, useCycle, value⟩]) i.2) }, assigned ++ [i.1]) := by
  apply h.set i.2
  · rw [List.pairwise_append]
    refine ⟨h.separate.apart i, List.pairwise_singleton _ _, ?_⟩
    intro record hrecord new hnew
    rw [List.mem_singleton.1 hnew]
    exact apart_of_not_marked r value (h.inInterval i record hrecord) hin
      (find?_spec r hi record hrecord)
  · intro record hrecord
    rcases List.mem_append.1 hrecord with hold | hnew
    · exact h.inInterval i record hold
    · rw [List.mem_singleton.1 hnew]
      exact hin
  · intro index hindex
    rcases List.mem_append.1 hindex with hold | hnew
    · exact h.separate.index_lt index hold
    · rw [List.mem_singleton.1 hnew]
      exact i.2

/-- A removed record leaves the others apart. -/
theorem Inv.unassign {r r' : IUResource ν registerCount} (h : Inv (r, assigned))
    (hr : r.unassign node = .ok (r', node')) : Inv (r', assigned) := by
  rw [IUResource.unassign] at hr
  split at hr
  · split at hr
    · rename_i hlt
      dsimp only at hr
      split at hr
      · cases hr
      · cases hr
        apply h.set hlt
        · exact (h.separate.apart ⟨_, hlt⟩).sublist List.eraseP_sublist
        · intro record hrecord
          exact h.inInterval ⟨_, hlt⟩ record (List.mem_of_mem_eraseP hrecord)
        · exact h.separate.index_lt
    · cases hr
  · cases hr

theorem unassign_defined (r : IUResource ν registerCount) (node : MoveNode ν) :
    (r.unassign node).Defined := by
  rw [IUResource.unassign]
  split
  · split
    · dsimp only
      split
      · exact Outcome.defined_exception _
      · exact Outcome.defined_ok _
    · exact Outcome.defined_exception _
  · exact Outcome.defined_exception _

variable (requiredImmediateWidth : Bool → ν → Int)

theorem canAssign_ok (r : IUResource ν registerCount) {defCycle useCycle : Int}
    (h : useCycle - defCycle < 2 ^ 31) : ∃ accepted, r.canAssign requiredImmediateWidth
      relatedResources defCycle useCycle node immRegIndex = .ok accepted := by
  rw [canAssign, if_neg (Int.not_le.2 h)]
  split
  · exact ⟨false, rfl⟩
  · split
    · exact ⟨false, rfl⟩
    · split
      · split
        · split
          · exact ⟨false, rfl⟩
          · exact ⟨_, rfl⟩
        · exact ⟨false, rfl⟩
      · exact ⟨false, rfl⟩

/-- A call goes through and keeps the immediates apart. -/
theorem step_inv (s : IUResource ν registerCount × List Nat) (call : Call ν) (h : Inv s)
    (hkept : Kept requiredImmediateWidth s call) :
    ∃ s', step requiredImmediateWidth s call = .ok s' ∧ Inv s' := by
  obtain ⟨r, assigned⟩ := s
  cases call with
  | assign relatedResources defCycle useCycle node immRegIndex =>
    obtain ⟨accepted, haccepted⟩ := canAssign_ok requiredImmediateWidth r hkept.1
    rw [step]
    dsimp only
    rw [haccepted]
    cases accepted with
    | false => exact ⟨(r, assigned), rfl, h⟩
    | true =>
      obtain ⟨i, value, hi, _, hassign⟩ := r.canAssign_true haccepted
      refine ⟨_, ?_, h.assign hi (hkept.2 haccepted) (some value)⟩
      change (r.assign defCycle useCycle node immRegIndex >>= fun x => _) = _
      rw [hassign]
      rfl
  | unassign node =>
    rw [step]
    dsimp only
    cases hr : r.unassign node with
    | ok x => exact ⟨_, rfl, h.unassign hr⟩
    | error f =>
      obtain ⟨e, rfl⟩ := unassign_defined r node f hr
      exact ⟨(r, assigned), rfl, h⟩

/-- In every run in which the ranges assigned are not longer than the initiation interval, the
immediates in a register are there at different times. -/
theorem run_separate (width : Int) (latency : Nat) (signExtension : Bool)
    (initiationInterval : Nat) (calls : List (Call ν))
    (h : Along (step requiredImmediateWidth) (Kept requiredImmediateWidth)
      (create registerCount width latency signExtension initiationInterval, []) calls) :
    ∃ s, calls.foldlM (step requiredImmediateWidth)
      ((create registerCount width latency signExtension initiationInterval, []) :
        IUResource ν registerCount × List Nat) = .ok s ∧ Separate s := by
  obtain ⟨s, hrun, hinv⟩ := Along.run Inv (fun s call _ => step_inv requiredImmediateWidth s call)
    (create_inv width latency signExtension initiationInterval) h
  exact ⟨s, hrun, hinv.separate⟩

/-- An output socket that is always free. -/
def freeSocket : RelatedResource := ⟨true, fun _ => false⟩

/-- The first immediate is in the only register during the cycles 1 to 6, all positions of the
interval of 4, of which only 1 and 2 lie between its ends. -/
def longRange : List (Call Nat) :=
  [.assign [freeSocket] 0 6 ⟨.immediate 7, 6⟩ (-1), .assign [freeSocket] 2 3 ⟨.immediate 8, 3⟩ (-1)]

theorem longRange_not_separate : ∃ s, longRange.foldlM (step fun _ _ => 32)
    ((create 1 32 1 false 4, []) : IUResource Nat 1 × List Nat) = .ok s ∧ ¬ Separate s := by
  refine ⟨(⟨32, 1, false, 4, #v[[⟨0, 6, some 7⟩, ⟨2, 3, some 8⟩]]⟩, [0, 0]), ?_, ?_⟩
  · decide +kernel
  · intro h
    have hapart := List.rel_of_pairwise_cons (h.apart 0) List.mem_cons_self
    exact hapart 3 3 ⟨by decide, by decide⟩ ⟨by decide, by decide⟩ rfl

/-- Two short ranges one after the other, and one that is refused. -/
theorem shortRanges_separate : ∃ s, [Call.assign [freeSocket] 0 2 ⟨.immediate 7, 2⟩ (-1),
      .assign [freeSocket] 1 2 ⟨.immediate 8, 2⟩ (-1),
      .assign [freeSocket] 2 3 ⟨.immediate 8, 3⟩ (-1)].foldlM (step fun _ _ => 32)
    ((create 1 32 1 false 4, []) : IUResource Nat 1 × List Nat) = .ok s ∧ Separate s := by
  apply run_separate
  decide +kernel

end IUResource

end Scheduler

end OpenAsip
