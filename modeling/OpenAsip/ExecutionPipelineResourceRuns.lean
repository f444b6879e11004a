import Mathlib.Data.Nat.ModEq
import OpenAsip.ExecutionPipelineResources

namespace OpenAsip
set_option autoImplicit true

namespace Scheduler
namespace OperandMoves
variable {ν : Type} [DecidableEq ν] {moves : OperandMoves ν}

theorem exclusive_self (moves : OperandMoves ν) (node : ν) :
    moves.exclusive node node = false := by
  rw [exclusive]
  cases moves.guard node with
  | none => simp
  | some guard =>
    cases moves.guardRawPredecessors with
    | none => cases guard <;> simp [Guard.isOpposite]
    | some predecessors => simp

theorem exclusive_comm (mn1 mn2 : ν) : moves.exclusive mn1 mn2 = moves.exclusive mn2 mn1 := by
  rw [exclusive, exclusive, Bool.and_comm (moves.isMove mn1)]
  congr 1
  cases moves.guard mn1 with
  | none => cases moves.guard mn2 <;> rfl
  | some guard1 =>
    cases moves.guard mn2 with
    | none => rfl
    | some guard2 =>
      cases moves.guardRawPredecessors with
      | none => exact guard1.isOpposite_comm guard2
      | some predecessors =>
        by_cases heq : predecessors mn1 = predecessors mn2
        · simp [heq, eq_comm]
        · simp [heq, Ne.symm heq]

theorem exclusiveMoves_self (placed : ν → Option Nat) (node : ν) (cycle : Nat) :
    moves.exclusiveMoves placed node node cycle = false := by
  rw [exclusiveMoves, exclusive_self]
  rfl

theorem exclusive_of_exclusiveMoves {placed : ν → Option Nat} {mn1 mn2 : ν} {cycle : Nat}
    (h : moves.exclusiveMoves placed mn1 mn2 cycle = true) : moves.exclusive mn1 mn2 = true :=
  (Bool.and_eq_true_iff.1 h).1

end OperandMoves

namespace ExecutionPipelineResource
variable {ν : Type} [DecidableEq ν]

/-- An operation does not use a resource in two cycles with one index, which the test finds only
where there is a row, and no cycle before such a use has its index, which `unassignDestination`
asserts. -/
def Fits (r : ExecutionPipelineResource ν) (uses : Nat → Nat → Bool) : Prop :=
  ∀ i < r.resources.maximalLatency, ∀ j < r.resources.numberOfResources, uses i j = true →
    ∀ i' < r.resources.maximalLatency, i' % r.initiationInterval = i % r.initiationInterval →
      i' = i ∨ i < i' ∧ uses i' j = false

/-- What a node that is assigned at a cycle uses. -/
def Occupies (moves : OperandMoves ν) (r : ExecutionPipelineResource ν) (cycle : Nat) (node : ν)
    (index resource : Nat) : Prop :=
  moves.isDestinationOperation node = true ∧ moves.isTriggering node = true ∧
    ∃ uses, r.resources.operationPipelines (moves.opName node) = some uses ∧
      ∃ p ∈ places r.resources, uses p.1 p.2 = true ∧ r.instructionIndex (cycle + p.1) = index ∧
        p.2 = resource

/-- What the scheduler sees to when it triggers an operation. -/
structure Proper (moves : OperandMoves ν) (r : ExecutionPipelineResource ν) (cycle : Nat)
    (node : ν) : Prop where
  operation : (moves.operation node).isSome
  fits : ∀ uses, r.resources.operationPipelines (moves.opName node) = some uses → r.Fits uses
  inRange : cycle + r.resources.maximalLatency ≤ 2147483647

omit [DecidableEq ν] in
/-- It is about the operations and the initiation interval alone. -/
theorem Proper.congr {moves : OperandMoves ν} {r r' : ExecutionPipelineResource ν} {cycle : Nat}
    {node : ν} (h : r.Proper moves cycle node) (hresources : r'.resources = r.resources)
    (hinterval : r'.initiationInterval = r.initiationInterval) : r'.Proper moves cycle node := by
  constructor
  · exact h.operation
  · intro uses huses
    rw [hresources] at huses
    rw [Fits, hresources, hinterval]
    exact h.fits uses huses
  · rw [hresources]
    exact h.inRange

def Contains (rr : ResourceReservation ν) (node : ν) : Prop := rr.1 = some node ∨ rr.2 = some node

/-- The table has the nodes that are assigned, each where it uses a resource. -/
structure Books (moves : OperandMoves ν) (r : ExecutionPipelineResource ν)
    (placed : ν → Option Nat) : Prop where
  shaped : r.fuExecutionPipeline.Shaped r.resources.numberOfResources
  filled : ∀ index resource, Filled (r.fuExecutionPipeline.slot index resource)
  contains_iff : ∀ index resource node, Contains (r.fuExecutionPipeline.slot index resource) node ↔
    ∃ cycle, (cycle, node) ∈ r.assignedDestinationNodes ∧
      r.Occupies moves cycle node index resource
  exclusive : ∀ index resource first second,
    r.fuExecutionPipeline.slot index resource = (some first, some second) →
      moves.exclusive first second = true
  assigned_iff : ∀ cycle node, (cycle, node) ∈ r.assignedDestinationNodes ↔
    placed node = some cycle ∧ moves.isDestinationOperation node = true
  proper : ∀ a ∈ r.assignedDestinationNodes, moves.isTriggering a.2 = true →
    r.Proper moves a.1 a.2
  supported : ∀ a ∈ r.assignedDestinationNodes, moves.isTriggering a.2 = true →
    (r.resources.operationPipelines (moves.opName a.2)).isSome
  rows : ∀ a ∈ r.assignedDestinationNodes, moves.isTriggering a.2 = true →
    ∀ i < r.resources.maximalLatency, r.fuExecutionPipeline.row (r.instructionIndex (a.1 + i)) ≠ []

variable {moves : OperandMoves ν} {r : ExecutionPipelineResource ν} {placed : ν → Option Nat}
  {cycle : Nat} {node : ν} {uses : Nat → Nat → Bool}

omit [DecidableEq ν] in
theorem instructionIndex_eq (h : cycle < 2147483647) :
    r.instructionIndex cycle = cycle % r.initiationInterval := by
  rw [instructionIndex, Scheduler.instructionIndex]
  split
  · rfl
  · next hnot =>
    have hzero : r.initiationInterval = 0 := by
      by_contra hne
      exact hnot ⟨hne, h.ne⟩
    rw [hzero, Nat.mod_zero]

omit [DecidableEq ν] in
theorem instructionIndex_of_plain (hplain : r.plain = true) (h : cycle < 2147483647) :
    r.instructionIndex cycle = cycle := by
  rw [instructionIndex_eq h]
  rcases of_decide_eq_true hplain with hzero | hmax
  · rw [hzero, Nat.mod_zero]
  · rw [hmax, Nat.mod_eq_of_lt h]

omit [DecidableEq ν] in
theorem Fits.eq_or_lt (h : r.Fits uses) (hrange : cycle + r.resources.maximalLatency ≤ 2147483647)
    {p q : Nat × Nat} (hp : p ∈ places r.resources) (hq : q ∈ places r.resources)
    (huse : uses p.1 p.2 = true)
    (hindex : r.instructionIndex (cycle + q.1) = r.instructionIndex (cycle + p.1))
    (hresource : q.2 = p.2) : q = p ∨ p.1 < q.1 ∧ uses q.1 q.2 = false := by
  obtain ⟨hp₁, hp₂⟩ := mem_places.1 hp
  have hq₁ := (mem_places.1 hq).1
  rw [instructionIndex_eq (by omega), instructionIndex_eq (by omega)] at hindex
  rw [hresource]
  apply (h p.1 hp₁ p.2 hp₂ huse q.1 hq₁ (Nat.ModEq.add_left_cancel' cycle hindex)).imp_left
  exact fun heq => Prod.ext heq hresource

omit [DecidableEq ν] in
theorem Fits.eq (h : r.Fits uses) (hrange : cycle + r.resources.maximalLatency ≤ 2147483647)
    {p q : Nat × Nat} (hp : p ∈ places r.resources) (hq : q ∈ places r.resources)
    (huse : uses p.1 p.2 = true) (huse' : uses q.1 q.2 = true)
    (hindex : r.instructionIndex (cycle + q.1) = r.instructionIndex (cycle + p.1))
    (hresource : q.2 = p.2) : q = p := by
  apply (h.eq_or_lt hrange hp hq huse hindex hresource).resolve_right
  rintro ⟨_, hunused⟩
  cases huse'.symm.trans hunused

/-- The tests of a search for a conflict find nothing where no resource is used. -/
theorem Books.free_of_size_le (h : Books moves r placed) (hplain : r.plain = true) {index : Nat}
    (hle : r.size ≤ index) (resource : Nat) :
    (r.fuExecutionPipeline.slot index resource).1 = none := by
  cases hslot : (r.fuExecutionPipeline.slot index resource).1 with
  | none => rfl
  | some node =>
    exfalso
    obtain ⟨cycle, hmem, hoccupies⟩ := (h.contains_iff index resource node).1 (.inl hslot)
    obtain ⟨_, htrigger, uses, _, p, hp, _, hindex, hresource⟩ := hoccupies
    obtain ⟨hi, hj⟩ := mem_places.1 hp
    have hrange := (h.proper _ hmem htrigger).inRange
    rw [instructionIndex_of_plain hplain (by dsimp only at hrange; omega)] at hindex
    have hrow : r.fuExecutionPipeline.row index ≠ [] := by
      intro hnil
      rw [ResourceReservationTable.slot_of_row_nil hnil] at hslot
      cases hslot
    have hlt := h.shaped.lt_size hrow
    apply absurd hle (not_le.2 _)
    rw [size, if_neg]
    · apply lt_lastUsed ?_ hlt
      rw [Bool.and_eq_true, Bool.and_eq_true, decide_eq_true_iff, decide_eq_true_iff,
        List.any_eq_true]
      refine ⟨⟨?_, hrow⟩, resource, List.mem_range.2 (hresource ▸ hj), ?_⟩
      · have hfold := (foldl_min_le (r.assignedDestinationNodes ++ r.assignedSourceNodes)
          (r.fuExecutionPipeline.size - 1)).2 _ (List.mem_append_left _ hmem)
        exact hfold.trans (hindex ▸ Nat.le_add_right _ _)
      · rw [hslot]
        rfl
    · rintro (hzero | ⟨hnil, _⟩)
      · rw [hzero] at hlt
        exact absurd hlt (Nat.not_lt_zero _)
      · rw [hnil] at hmem
        cases hmem

/-- The unit has the operation, it does not use a resource too late, and every resource that it uses
is free when it is used. -/
def Allows (moves : OperandMoves ν) (placed : ν → Option Nat) (r : ExecutionPipelineResource ν)
    (cycle : Nat) (node : ν) : Prop :=
  ∃ uses, r.resources.operationPipelines (moves.opName node) = some uses ∧
    ∀ p ∈ places r.resources, uses p.1 p.2 = true →
      (r.maxCycle ≠ 2147483647 → cycle + p.1 ≤ r.maxCycle) ∧
      Free (fun other => moves.exclusiveMoves placed other node (r.instructionIndex cycle))
        (r.fuExecutionPipeline.slot (r.instructionIndex (cycle + p.1)) p.2)

/-- The table is as it was after the test, whatever the answer is. -/
theorem Books.resourcesAllowTrigger (h : Books moves r placed)
    (hproper : r.Proper moves cycle node) (placed' : ν → Option Nat) :
    ∃ allowed, r.resourcesAllowTrigger moves placed' cycle node =
        .ok (allowed, r.fuExecutionPipeline) ∧
      (allowed = true ↔ r.Allows moves placed' cycle node) := by
  rw [ExecutionPipelineResource.resourcesAllowTrigger]
  cases huses : r.resources.operationPipelines (moves.opName node) with
  | none =>
    refine ⟨false, rfl, ⟨fun hf => absurd hf Bool.false_ne_true, ?_⟩⟩
    rintro ⟨uses, huses', _⟩
    cases huses.symm.trans huses'
  | some uses =>
    dsimp only
    by_cases hlate : r.maxCycle ≠ 2147483647 ∧ (places r.resources).any fun place =>
        uses place.1 place.2 && r.maxCycle < cycle + place.1
    · refine ⟨false, if_pos hlate, ⟨fun hf => absurd hf Bool.false_ne_true, ?_⟩⟩
      rintro ⟨uses', huses', hall⟩
      cases huses.symm.trans huses'
      obtain ⟨p, hp, hp'⟩ := List.any_eq_true.1 hlate.2
      obtain ⟨huse, hlt⟩ := Bool.and_eq_true_iff.1 hp'
      exact absurd ((hall p hp huse).1 hlate.1) (not_le.2 (of_decide_eq_true hlt))
    · rw [if_neg hlate]
      have hself : (fun other => moves.exclusiveMoves placed' other node
          (r.instructionIndex cycle)) node = false :=
        OperandMoves.exclusiveMoves_self placed' node _
      have htrial : Trial
          (fun other => moves.exclusiveMoves placed' other node (r.instructionIndex cycle)) node
          (fun i => r.instructionIndex (cycle + i)) uses r.resources.numberOfResources
          r.fuExecutionPipeline r.fuExecutionPipeline [] := by
        constructor
        · exact .refl _ fun p hp => List.not_mem_nil hp
        · exact fun p hp => absurd hp List.not_mem_nil
      have hrange := hproper.inRange
      obtain ⟨success, t', assigned', heq, htrial', hlat, htrue, hfalse⟩ :=
        htrial.reserveRows rfl rfl hself h.filled h.shaped rfl
          (fun hplain m hm j => h.free_of_size_le hplain hm j)
          (fun hplain i i' hle hlt => by
            rw [instructionIndex_of_plain hplain (by omega),
              instructionIndex_of_plain hplain (by omega)]
            omega)
          (List.range r.resources.maximalLatency) List.pairwise_lt_range
          (fun i hi => List.mem_range.1 hi) (fun p hp => absurd hp List.not_mem_nil)
      rw [heq]
      have hundo := htrial'.undoReserves rfl rfl hself h.filled h.shaped hlat
      dsimp only
      rw [hundo]
      refine ⟨success, rfl, ?_⟩
      constructor
      · intro hsuccess
        refine ⟨uses, huses, fun p hp huse => ?_⟩
        obtain ⟨hi, hj⟩ := mem_places.1 hp
        refine ⟨fun hmax => ?_, htrue hsuccess p.1 (List.mem_range.2 hi) p.2 hj huse⟩
        by_contra hle
        apply hlate ⟨hmax, List.any_eq_true.2 ⟨p, hp, ?_⟩⟩
        rw [huse, Bool.true_and]
        exact decide_eq_true (not_le.1 hle)
      · rintro ⟨uses', huses', hall⟩
        cases huses.symm.trans huses'
        by_contra hsuccess
        obtain ⟨i, hi, j, hj, huse, hblocked⟩ := hfalse (Bool.eq_false_of_not_eq_true hsuccess)
        have hp : (i, j) ∈ places r.resources := mem_places.2 ⟨List.mem_range.1 hi, hj⟩
        rcases hblocked with hfree | ⟨i', hi', hne, huse', hindex⟩
        · exact hfree (hall (i, j) hp huse).2
        · have hq : (i', j) ∈ places r.resources := mem_places.2 ⟨List.mem_range.1 hi', hj⟩
          have heq := (hproper.fits uses huses).eq hrange hp hq huse huse' hindex rfl
          exact hne (congrArg Prod.fst heq)

/-- A loop over places has changed the slots of those that the operation uses. -/
structure Changed (index : Nat → Nat) (uses : Nat → Nat → Bool)
    (f : ResourceReservation ν → ResourceReservation ν) (n : Nat) (l : List (Nat × Nat))
    (t t' : ResourceReservationTable ν) : Prop where
  shaped : t'.Shaped n
  rows : ∀ m, t.row m ≠ [] → t'.row m ≠ []
  made : ∀ p ∈ l, t'.row (index p.1) ≠ []
  changed : ∀ p ∈ l, uses p.1 p.2 = true →
    t'.slot (index p.1) p.2 = f (t.slot (index p.1) p.2)
  kept : ∀ m j, (∀ p ∈ l, uses p.1 p.2 = true → index p.1 = m → p.2 ≠ j) →
    t'.slot m j = t.slot m j

section Loops
variable {index : Nat → Nat} {f : ResourceReservation ν → ResourceReservation ν} {n : Nat}
  {body : ResourceReservationTable ν → Nat × Nat → Outcome (ResourceReservationTable ν)}
  {t₀ t t' : ResourceReservationTable ν} {l : List (Nat × Nat)}

omit [DecidableEq ν] in
theorem Changed.refl (h : t.Shaped n) : Changed index uses f n [] t t := by
  constructor
  · exact h
  · exact fun _ hm => hm
  · exact fun p hp => absurd hp List.not_mem_nil
  · exact fun p hp => absurd hp List.not_mem_nil
  · exact fun _ _ _ => rfl

omit [DecidableEq ν] in
/-- A place that the operation uses has not got the slot of an earlier one. -/
theorem Changed.concat (h : Changed index uses f n l t₀ t) {q : Nat × Nat}
    (hnew : ∀ p ∈ l, uses p.1 p.2 = true → uses q.1 q.2 = true → index p.1 = index q.1 → p.2 ≠ q.2)
    (hq : Changed index uses f n [q] t t') : Changed index uses f n (l ++ [q]) t₀ t' := by
  constructor
  · exact hq.shaped
  · exact fun m hm => hq.rows m (h.rows m hm)
  · intro p hp
    rcases List.mem_append.1 hp with hp | hp
    · exact hq.rows _ (h.made p hp)
    · exact hq.made p hp
  · intro p hp huse
    rcases List.mem_append.1 hp with hp | hp
    · rw [hq.kept, h.changed p hp huse]
      intro q' hq' huse' hindex hresource
      cases List.mem_singleton.1 hq'
      exact hnew p hp huse huse' hindex.symm hresource.symm
    · rw [hq.changed p hp huse]
      cases List.mem_singleton.1 hp
      rw [h.kept _ _ fun p hp huse' hindex => hnew p hp huse' huse hindex]
  · intro m j hother
    rw [hq.kept m j fun p hp => hother p (List.mem_append_right _ hp)]
    exact h.kept m j fun p hp => hother p (List.mem_append_left _ hp)

omit [DecidableEq ν] in
theorem ne_of_mem_done {l done rest : List (Nat × Nat)} {p q : Nat × Nat} (hnodup : l.Nodup)
    (hl : l = done ++ q :: rest) (hp : p ∈ done) : p ≠ q := by
  rw [hl, List.nodup_append] at hnodup
  exact hnodup.2.2 p hp q List.mem_cons_self

omit [DecidableEq ν] in
/-- No two places that the operation uses have one slot, so that each is changed once. -/
theorem foldlM_changed (hshaped : t₀.Shaped n) (hnodup : l.Nodup)
    (hdistinct : ∀ p ∈ l, ∀ q ∈ l, uses p.1 p.2 = true → uses q.1 q.2 = true →
      index p.1 = index q.1 → p.2 = q.2 → p = q)
    (hbody : ∀ done q rest, l = done ++ q :: rest → ∀ t, Changed index uses f n done t₀ t →
      ∃ t', body t q = .ok t' ∧ Changed index uses f n [q] t t') :
    ∃ t', l.foldlM body t₀ = .ok t' ∧ Changed index uses f n l t₀ t' := by
  have hrun : ∀ rest done t, l = done ++ rest → Changed index uses f n done t₀ t →
      ∃ t', rest.foldlM body t = .ok t' ∧ Changed index uses f n l t₀ t' := by
    intro rest
    induction rest with
    | nil =>
      intro done t hl hdone
      rw [List.append_nil] at hl
      exact ⟨t, rfl, hl ▸ hdone⟩
    | cons q rest ih =>
      intro done t hl hdone
      obtain ⟨t₁, hstep, hq⟩ := hbody done q rest hl t hdone
      have hnew : ∀ p ∈ done, uses p.1 p.2 = true → uses q.1 q.2 = true →
          index p.1 = index q.1 → p.2 ≠ q.2 := by
        intro p hp huse huse' hindex hresource
        apply ne_of_mem_done hnodup hl hp
        exact hdistinct p (hl ▸ List.mem_append_left _ hp) q
          (hl ▸ List.mem_append_right _ List.mem_cons_self) huse huse' hindex hresource
      obtain ⟨t₂, hrest, h₂⟩ := ih (done ++ [q]) t₁ (by rw [hl, List.append_assoc]; rfl)
        (hdone.concat hnew hq)
      refine ⟨t₂, ?_, h₂⟩
      rw [List.foldlM_cons, hstep]
      exact hrest
  exact hrun l [] t₀ rfl (.refl hshaped)

end Loops

/-- What `assignDestination` makes of a slot. -/
def addNode (node : ν) (rr : ResourceReservation ν) : ResourceReservation ν :=
  if rr.1 = none then (some node, rr.2) else (rr.1, some node)

/-- What `unassignDestination` makes of a slot. -/
def removeNode (node : ν) (rr : ResourceReservation ν) : ResourceReservation ν :=
  if rr.1 = some node then (rr.2, none) else if rr.2 = some node then (rr.1, none) else rr

omit [DecidableEq ν] in
theorem changed_setSlot (index : Nat → Nat) (f : ResourceReservation ν → ResourceReservation ν)
    {n : Nat} {t₀ t : ResourceReservationTable ν} {p : Nat × Nat} (hp : p.2 < n)
    (hshaped : t.Shaped n) (hrow : t.row (index p.1) ≠ [])
    (hrows : ∀ m, t₀.row m ≠ [] → t.row m ≠ []) (hslot : ∀ m j, t.slot m j = t₀.slot m j)
    (huse : uses p.1 p.2 = true) :
    Changed index uses f n [p] t₀ (t.setSlot (index p.1) p.2 (f (t.slot (index p.1) p.2))) := by
  have hset := ResourceReservationTable.slot_setSlot (f (t.slot (index p.1) p.2))
    (hshaped.length_eq hrow ▸ hp)
  constructor
  · exact hshaped.setSlot hrow
  · exact fun m hm => (ResourceReservationTable.setSlot_row_eq_nil m).not.2 (hrows m hm)
  · intro q hq
    cases List.mem_singleton.1 hq
    exact (ResourceReservationTable.setSlot_row_eq_nil _).not.2 hrow
  · intro q hq _
    cases List.mem_singleton.1 hq
    rw [hset, if_pos ⟨rfl, rfl⟩, hslot]
  · intro m j hother
    rw [hset, if_neg fun heq => hother p List.mem_cons_self huse heq.1.symm heq.2.symm, hslot]

omit [DecidableEq ν] in
theorem changed_same {index : Nat → Nat} {f : ResourceReservation ν → ResourceReservation ν}
    {n : Nat} {t₀ t : ResourceReservationTable ν} {p : Nat × Nat} (hshaped : t.Shaped n)
    (hrow : t.row (index p.1) ≠ []) (hrows : ∀ m, t₀.row m ≠ [] → t.row m ≠ [])
    (hslot : ∀ m j, t.slot m j = t₀.slot m j) (huse : ¬uses p.1 p.2 = true) :
    Changed index uses f n [p] t₀ t := by
  constructor
  · exact hshaped
  · exact hrows
  · intro q hq
    cases List.mem_singleton.1 hq
    exact hrow
  · intro q hq huse'
    cases List.mem_singleton.1 hq
    exact absurd huse' huse
  · exact fun m j _ => hslot m j

omit [DecidableEq ν] in
/-- The row of a place is there after it has been made, and no slot has another node. -/
theorem makeRow {t : ResourceReservationTable ν} {n : Nat} (hn : 0 < n) (hshaped : t.Shaped n)
    (m : Nat) :
    ∃ t', (if t.row m = [] then t.setRow m (List.replicate n (none, none)) else t) = t' ∧
      t'.Shaped n ∧ t'.row m ≠ [] ∧ (∀ m', t.row m' ≠ [] → t'.row m' ≠ []) ∧
      ∀ m' j, t'.slot m' j = t.slot m' j := by
  by_cases hnil : t.row m = []
  · refine ⟨_, if_pos hnil, hshaped.setRow m, ?_, ?_, ?_⟩
    · rw [ResourceReservationTable.setRow_row, if_pos rfl]
      exact List.ne_nil_of_length_pos (by rwa [List.length_replicate])
    · intro m' hm'
      rw [ResourceReservationTable.setRow_row, if_neg]
      · exact hm'
      · rintro rfl
        exact hm' hnil
    · exact fun m' j => ResourceReservationTable.slot_setRow hnil n m' j
  · exact ⟨t, if_neg hnil, hshaped, hnil, fun _ h => h, fun _ _ => rfl⟩

omit [DecidableEq ν] in
theorem assignPlace_changed {t : ResourceReservationTable ν} {p : Nat × Nat}
    (hn : 0 < r.resources.numberOfResources) (hp : p.2 < r.resources.numberOfResources)
    (hshaped : t.Shaped r.resources.numberOfResources)
    (hfree : uses p.1 p.2 = true → (t.slot (r.instructionIndex (cycle + p.1)) p.2).1 = none ∨
      (t.slot (r.instructionIndex (cycle + p.1)) p.2).2 = none) :
    ∃ t', r.assignPlace node cycle uses t p = .ok t' ∧
      Changed (fun i => r.instructionIndex (cycle + i)) uses (addNode node)
        r.resources.numberOfResources [p] t t' := by
  obtain ⟨t₁, hmake, hshaped₁, hrow, hrows, hslot⟩ :=
    makeRow hn hshaped (r.instructionIndex (cycle + p.1))
  rw [assignPlace, hmake]
  by_cases huse : uses p.1 p.2 = true
  · rw [if_pos huse]
    have hchanged := changed_setSlot (fun i => r.instructionIndex (cycle + i)) (addNode node) hp
      hshaped₁ hrow hrows hslot huse
    have hfree := hfree huse
    rw [← hslot] at hfree
    rcases hpair : t₁.slot (r.instructionIndex (cycle + p.1)) p.2 with ⟨_ | first, second⟩
    · rw [hpair] at hchanged
      exact ⟨_, rfl, hchanged⟩
    · rw [hpair] at hchanged hfree
      cases second with
      | none => exact ⟨_, rfl, hchanged⟩
      | some second => simp at hfree
  · rw [if_neg huse]
    exact ⟨t₁, rfl, changed_same hshaped₁ hrow hrows hslot huse⟩

theorem unassignPlace_changed {t : ResourceReservationTable ν} {p : Nat × Nat}
    (hp : p.2 < r.resources.numberOfResources)
    (hshaped : t.Shaped r.resources.numberOfResources)
    (hrow : t.row (r.instructionIndex (cycle + p.1)) ≠ [])
    (huses : Contains (t.slot (r.instructionIndex (cycle + p.1)) p.2) node ↔
      uses p.1 p.2 = true) :
    ∃ t', r.unassignPlace node cycle uses t p = .ok t' ∧
      Changed (fun i => r.instructionIndex (cycle + i)) uses (removeNode node)
        r.resources.numberOfResources [p] t t' := by
  rw [unassignPlace, if_neg hrow]
  by_cases huse : uses p.1 p.2 = true
  · have hchanged := changed_setSlot (fun i => r.instructionIndex (cycle + i)) (removeNode node) hp
      hshaped hrow (fun _ h => h) (fun _ _ => rfl) huse
    rw [removeNode] at hchanged
    by_cases hfirst : (t.slot (r.instructionIndex (cycle + p.1)) p.2).1 = some node
    · rw [if_pos hfirst] at hchanged
      exact ⟨_, by rw [if_pos hfirst, if_pos huse], hchanged⟩
    · have hsecond := (huses.2 huse).resolve_left hfirst
      rw [if_neg hfirst, if_pos hsecond] at hchanged
      exact ⟨_, by rw [if_neg hfirst, if_pos hsecond, if_pos huse], hchanged⟩
  · have hnot := huses.not.2 huse
    refine ⟨t, ?_, changed_same hshaped hrow (fun _ h => h) (fun _ _ => rfl) huse⟩
    rw [if_neg fun h => hnot (.inl h), if_neg fun h => hnot (.inr h)]

omit [DecidableEq ν] in
theorem places_distinct (hfits : r.Fits uses)
    (hrange : cycle + r.resources.maximalLatency ≤ 2147483647) :
    ∀ p ∈ places r.resources, ∀ q ∈ places r.resources, uses p.1 p.2 = true →
      uses q.1 q.2 = true → r.instructionIndex (cycle + p.1) = r.instructionIndex (cycle + q.1) →
        p.2 = q.2 → p = q :=
  fun _ hp _ hq huse huse' hindex hresource => hfits.eq hrange hq hp huse' huse hindex hresource

omit [DecidableEq ν] in
/-- The loop of `assignDestination` over a table in which no resource that it needs is used
twice. -/
theorem foldlM_assignPlace (node : ν) {t : ResourceReservationTable ν}
    (hn : 0 < r.resources.numberOfResources) (hfits : r.Fits uses)
    (hrange : cycle + r.resources.maximalLatency ≤ 2147483647)
    (hshaped : t.Shaped r.resources.numberOfResources)
    (hfree : ∀ p ∈ places r.resources, uses p.1 p.2 = true →
      (t.slot (r.instructionIndex (cycle + p.1)) p.2).1 = none ∨
        (t.slot (r.instructionIndex (cycle + p.1)) p.2).2 = none) :
    ∃ t', (places r.resources).foldlM (r.assignPlace node cycle uses) t = .ok t' ∧
      Changed (fun i => r.instructionIndex (cycle + i)) uses (addNode node)
        r.resources.numberOfResources (places r.resources) t t' := by
  have hdistinct := places_distinct hfits hrange
  apply foldlM_changed hshaped (places_nodup _) hdistinct
  intro done q rest hl t₁ hdone
  have hq : q ∈ places r.resources := hl ▸ List.mem_append_right _ List.mem_cons_self
  apply assignPlace_changed hn (mem_places.1 hq).2 hdone.shaped
  intro huse
  rw [hdone.kept]
  · exact hfree q hq huse
  · intro p hp huse' hindex hresource
    apply ne_of_mem_done (places_nodup _) hl hp
    exact hdistinct p (hl ▸ List.mem_append_left _ hp) q hq huse' huse hindex hresource

/-- The loop of `unassignDestination` over a table in which the node is where it uses a resource.
It comes to the place at which the node uses a slot before any other that has the slot. -/
theorem foldlM_unassignPlace (node : ν) {t : ResourceReservationTable ν} (hfits : r.Fits uses)
    (hrange : cycle + r.resources.maximalLatency ≤ 2147483647)
    (hshaped : t.Shaped r.resources.numberOfResources)
    (hrows : ∀ p ∈ places r.resources, t.row (r.instructionIndex (cycle + p.1)) ≠ [])
    (honce : ∀ m j, ¬Contains (removeNode node (t.slot m j)) node)
    (huses : ∀ p ∈ places r.resources,
      Contains (t.slot (r.instructionIndex (cycle + p.1)) p.2) node ↔
        ∃ q ∈ places r.resources, uses q.1 q.2 = true ∧
          r.instructionIndex (cycle + q.1) = r.instructionIndex (cycle + p.1) ∧ q.2 = p.2) :
    ∃ t', (places r.resources).foldlM (r.unassignPlace node cycle uses) t = .ok t' ∧
      Changed (fun i => r.instructionIndex (cycle + i)) uses (removeNode node)
        r.resources.numberOfResources (places r.resources) t t' := by
  have hdistinct := places_distinct hfits hrange
  apply foldlM_changed hshaped (places_nodup _) hdistinct
  intro done q rest hl t₁ hdone
  have hq : q ∈ places r.resources := hl ▸ List.mem_append_right _ List.mem_cons_self
  apply unassignPlace_changed (mem_places.1 hq).2 hdone.shaped (hdone.rows _ (hrows q hq))
  have hsorted := places_sorted r.resources
  rw [hl, List.pairwise_append] at hsorted
  constructor
  · intro hcontains
    by_contra hunused
    by_cases hkept : ∀ p ∈ done, uses p.1 p.2 = true →
        r.instructionIndex (cycle + p.1) = r.instructionIndex (cycle + q.1) → p.2 ≠ q.2
    · rw [hdone.kept _ _ hkept, huses q hq] at hcontains
      obtain ⟨p, hp, huse, hindex, hresource⟩ := hcontains
      rcases hfits.eq_or_lt hrange hp hq huse hindex.symm hresource.symm with rfl | hlt
      · exact hunused huse
      · rw [hl] at hp
        rcases List.mem_append.1 hp with hp | hp
        · exact hkept p hp huse hindex hresource
        · rcases List.mem_cons.1 hp with rfl | hp
          · exact hunused huse
          · exact not_lt.2 (List.rel_of_pairwise_cons hsorted.2.1 hp) hlt.1
    · push Not at hkept
      obtain ⟨p, hp, huse, hindex, hresource⟩ := hkept
      have hchanged := hdone.changed p hp huse
      rw [hindex, hresource] at hchanged
      rw [hchanged] at hcontains
      exact honce _ _ hcontains
  · intro huse
    rw [hdone.kept, huses q hq]
    · exact ⟨q, hq, huse, rfl, rfl⟩
    · intro p hp huse' hindex hresource
      apply ne_of_mem_done (places_nodup _) hl hp
      exact hdistinct p (hl ▸ List.mem_append_left _ hp) q hq huse' huse hindex hresource

omit [DecidableEq ν] in
theorem occupies_iff (hdestination : moves.isDestinationOperation node = true)
    (htrigger : moves.isTriggering node = true)
    (huses : r.resources.operationPipelines (moves.opName node) = some uses) {m j : Nat} :
    r.Occupies moves cycle node m j ↔ ∃ p ∈ places r.resources, uses p.1 p.2 = true ∧
      r.instructionIndex (cycle + p.1) = m ∧ p.2 = j := by
  constructor
  · rintro ⟨_, _, uses', huses', h⟩
    cases huses.symm.trans huses'
    exact h
  · exact fun h => ⟨hdestination, htrigger, uses, huses, h⟩

omit [DecidableEq ν] in
theorem contains_addNode {rr : ResourceReservation ν} (hfilled : Filled rr)
    (hone : rr.1 = none ∨ rr.2 = none) (n : ν) :
    Contains (addNode node rr) n ↔ Contains rr n ∨ n = node := by
  obtain ⟨first, second⟩ := rr
  cases first with
  | none =>
    cases hfilled rfl
    simp [addNode, Contains, eq_comm]
  | some first =>
    cases second with
    | none => simp [addNode, Contains, eq_comm]
    | some second => simp at hone

theorem contains_removeNode {rr : ResourceReservation ν}
    (hne : ∀ first second, rr = (some first, some second) → first ≠ second) (n : ν) :
    Contains (removeNode node rr) n ↔ Contains rr n ∧ n ≠ node := by
  obtain ⟨first, second⟩ := rr
  grind [removeNode, Contains]

omit [DecidableEq ν] in
theorem filled_addNode {rr : ResourceReservation ν} : Filled (addNode node rr) := by
  obtain ⟨first, second⟩ := rr
  cases first <;> simp [Filled, addNode]

theorem filled_removeNode {rr : ResourceReservation ν} (h : Filled rr) :
    Filled (removeNode node rr) := by
  grind [Filled, removeNode]

omit [DecidableEq ν] in
/-- A loop changes the slots that the node uses. -/
theorem Changed.slot {f : ResourceReservation ν → ResourceReservation ν}
    {t t' : ResourceReservationTable ν}
    (h : Changed (fun i => r.instructionIndex (cycle + i)) uses f r.resources.numberOfResources
      (places r.resources) t t')
    (hdestination : moves.isDestinationOperation node = true)
    (htrigger : moves.isTriggering node = true)
    (huses : r.resources.operationPipelines (moves.opName node) = some uses) (m j : Nat) :
    r.Occupies moves cycle node m j ∧ t'.slot m j = f (t.slot m j) ∨
      ¬r.Occupies moves cycle node m j ∧ t'.slot m j = t.slot m j := by
  rw [occupies_iff hdestination htrigger huses]
  by_cases hused : ∃ p ∈ places r.resources, uses p.1 p.2 = true ∧
      r.instructionIndex (cycle + p.1) = m ∧ p.2 = j
  · obtain ⟨p, hp, huse, rfl, rfl⟩ := hused
    exact .inl ⟨⟨p, hp, huse, rfl, rfl⟩, h.changed p hp huse⟩
  · refine .inr ⟨hused, h.kept m j fun p hp huse hindex hresource => ?_⟩
    exact hused ⟨p, hp, huse, hindex, hresource⟩

theorem Books.create (moves : OperandMoves ν) (resources : ExecutionPipelineResourceTable)
    (initiationInterval : Nat) :
    Books moves (create resources initiationInterval) fun _ => none := by
  constructor
  · constructor
    · exact fun _ => .inl rfl
    · exact fun _ _ => rfl
  · exact fun _ _ _ => rfl
  · intro index resource node
    constructor
    · rintro (h | h) <;> cases h
    · rintro ⟨_, hmem, _⟩
      cases hmem
  · intro _ _ _ _ h
    cases h
  · simp [ExecutionPipelineResource.create]
  · exact fun a ha => absurd ha List.not_mem_nil
  · exact fun a ha => absurd ha List.not_mem_nil
  · exact fun a ha => absurd ha List.not_mem_nil

/-- A slot has a node if the node uses it, at the one cycle that it is assigned at. -/
theorem Books.contains_node (h : Books moves r placed) (hplaced : placed node = some cycle)
    (m j : Nat) :
    Contains (r.fuExecutionPipeline.slot m j) node ↔ r.Occupies moves cycle node m j := by
  rw [h.contains_iff]
  constructor
  · rintro ⟨cycle', hmem, hoccupies⟩
    cases hplaced.symm.trans ((h.assigned_iff cycle' node).1 hmem).1
    exact hoccupies
  · intro hoccupies
    exact ⟨cycle, (h.assigned_iff cycle node).2 ⟨hplaced, hoccupies.1⟩, hoccupies⟩

/-- No slot has a node twice. -/
theorem Books.distinct (h : Books moves r placed) (m j : Nat) (first second : ν)
    (heq : r.fuExecutionPipeline.slot m j = (some first, some second)) : first ≠ second := by
  rintro rfl
  cases (moves.exclusive_self first).symm.trans (h.exclusive m j first first heq)

/-- A node that is not a destination of an operation is not in the table. -/
theorem Books.update (h : Books moves r placed)
    (hdestination : moves.isDestinationOperation node = false) (value : Option Nat) :
    Books moves r (Function.update placed node value) := by
  constructor
  · exact h.shaped
  · exact h.filled
  · exact h.contains_iff
  · exact h.exclusive
  · intro cycle other
    rw [h.assigned_iff, Function.update_apply]
    split
    · next heq =>
      subst heq
      simp [hdestination]
    · exact Iff.rfl
  · exact h.proper
  · exact h.supported
  · exact h.rows

/-- The slots that a node uses get it, and the others stay as they are. -/
theorem Books.assign (h : Books moves r placed) (hnone : placed node = none)
    (hdestination : moves.isDestinationOperation node = true) {t : ResourceReservationTable ν}
    (hshaped : t.Shaped r.resources.numberOfResources)
    (hrows : ∀ m, r.fuExecutionPipeline.row m ≠ [] → t.row m ≠ [])
    (hproper : moves.isTriggering node = true → r.Proper moves cycle node ∧
      (r.resources.operationPipelines (moves.opName node)).isSome ∧
      ∀ i < r.resources.maximalLatency, t.row (r.instructionIndex (cycle + i)) ≠ [])
    (hslot : ∀ m j, r.Occupies moves cycle node m j ∧
        Free (moves.exclusive · node) (r.fuExecutionPipeline.slot m j) ∧
        t.slot m j = addNode node (r.fuExecutionPipeline.slot m j) ∨
      ¬r.Occupies moves cycle node m j ∧ t.slot m j = r.fuExecutionPipeline.slot m j) :
    Books moves
      { r with
        fuExecutionPipeline := t
        assignedDestinationNodes := (cycle, node) :: r.assignedDestinationNodes }
      (Function.update placed node (some cycle)) := by
  constructor
  · exact hshaped
  · intro m j
    rcases hslot m j with ⟨_, _, heq⟩ | ⟨_, heq⟩
    · exact heq ▸ filled_addNode
    · exact heq ▸ h.filled m j
  · intro m j other
    have hcontains : Contains (t.slot m j) other ↔
        Contains (r.fuExecutionPipeline.slot m j) other ∨
          other = node ∧ r.Occupies moves cycle node m j := by
      rcases hslot m j with ⟨hoccupies, hfree, heq⟩ | ⟨hoccupies, heq⟩
      · rw [heq, contains_addNode (h.filled m j), and_iff_left hoccupies]
        cases hfirst : (r.fuExecutionPipeline.slot m j).1 with
        | none => exact .inl rfl
        | some first => exact .inr (hfree first hfirst).1
      · rw [heq, or_iff_left fun hother => hoccupies hother.2]
    refine hcontains.trans ?_
    rw [h.contains_iff]
    constructor
    · rintro (⟨cycle', hmem, hoccupies⟩ | ⟨rfl, hoccupies⟩)
      · exact ⟨cycle', List.mem_cons_of_mem _ hmem, hoccupies⟩
      · exact ⟨cycle, List.mem_cons_self, hoccupies⟩
    · rintro ⟨cycle', hmem, hoccupies⟩
      rcases List.mem_cons.1 hmem with heq | hmem
      · cases heq
        exact .inr ⟨rfl, hoccupies⟩
      · exact .inl ⟨cycle', hmem, hoccupies⟩
  · intro m j first second hpair
    have hpair : t.slot m j = (some first, some second) := hpair
    rcases hslot m j with ⟨_, hfree, heq⟩ | ⟨_, heq⟩
    · rw [heq, addNode] at hpair
      split at hpair
      · next hnone =>
        cases (congrArg Prod.snd hpair).symm.trans (h.filled m j hnone)
      · have hfirst := congrArg Prod.fst hpair
        cases congrArg Prod.snd hpair
        exact (hfree first hfirst).2
    · exact h.exclusive m j first second (heq ▸ hpair)
  · intro cycle' other
    rw [List.mem_cons, h.assigned_iff, Function.update_apply, Prod.mk.injEq]
    split
    · next heq =>
      subst heq
      simp [hnone, hdestination, eq_comm]
    · next hne => simp [hne]
  · refine List.forall_mem_cons.2 ⟨fun htrigger => (hproper htrigger).1.congr rfl rfl, ?_⟩
    exact fun a ha htrigger => (h.proper a ha htrigger).congr rfl rfl
  · exact List.forall_mem_cons.2 ⟨fun htrigger => (hproper htrigger).2.1, h.supported⟩
  · refine List.forall_mem_cons.2 ⟨fun htrigger => (hproper htrigger).2.2, ?_⟩
    exact fun a ha htrigger i hi => hrows _ (h.rows a ha htrigger i hi)

/-- The node is removed from the slots that it uses. -/
theorem Books.unassign (h : Books moves r placed) (hplaced : placed node = some cycle)
    {t : ResourceReservationTable ν} (hshaped : t.Shaped r.resources.numberOfResources)
    (hrows : ∀ m, r.fuExecutionPipeline.row m ≠ [] → t.row m ≠ [])
    (hslot : ∀ m j, r.Occupies moves cycle node m j ∧
        t.slot m j = removeNode node (r.fuExecutionPipeline.slot m j) ∨
      ¬r.Occupies moves cycle node m j ∧ t.slot m j = r.fuExecutionPipeline.slot m j) :
    Books moves
      { r with
        fuExecutionPipeline := t
        assignedDestinationNodes := r.assignedDestinationNodes.filter fun a => a.2 ≠ node }
      (Function.update placed node none) := by
  constructor
  · exact hshaped
  · intro m j
    rcases hslot m j with ⟨_, heq⟩ | ⟨_, heq⟩
    · exact heq ▸ filled_removeNode (h.filled m j)
    · exact heq ▸ h.filled m j
  · intro m j other
    have hcontains : Contains (t.slot m j) other ↔
        Contains (r.fuExecutionPipeline.slot m j) other ∧ other ≠ node := by
      rcases hslot m j with ⟨_, heq⟩ | ⟨hnot, heq⟩
      · rw [heq]
        exact contains_removeNode (h.distinct m j) other
      · rw [heq, and_iff_left_of_imp]
        rintro hcontains rfl
        exact hnot ((h.contains_node hplaced m j).1 hcontains)
    refine hcontains.trans ?_
    rw [h.contains_iff]
    constructor
    · rintro ⟨⟨cycle', hmem, hoccupies⟩, hne⟩
      exact ⟨cycle', List.mem_filter.2 ⟨hmem, decide_eq_true hne⟩, hoccupies⟩
    · rintro ⟨cycle', hmem, hoccupies⟩
      obtain ⟨hmem, hne⟩ := List.mem_filter.1 hmem
      exact ⟨⟨cycle', hmem, hoccupies⟩, of_decide_eq_true hne⟩
  · intro m j first second hpair
    have hpair : t.slot m j = (some first, some second) := hpair
    apply h.exclusive m j first second
    rcases hslot m j with ⟨_, heq⟩ | ⟨_, heq⟩
    · rw [heq, removeNode] at hpair
      split at hpair
      · cases congrArg Prod.snd hpair
      · split at hpair
        · cases congrArg Prod.snd hpair
        · exact hpair
    · exact heq ▸ hpair
  · intro cycle' other
    rw [List.mem_filter, h.assigned_iff, Function.update_apply]
    split
    · next heq => simp [heq]
    · next hne => simp [hne]
  · exact fun a ha htrigger => (h.proper a (List.mem_of_mem_filter ha) htrigger).congr rfl rfl
  · exact fun a ha => h.supported a (List.mem_of_mem_filter ha)
  · exact fun a ha htrigger i hi => hrows _ (h.rows a (List.mem_of_mem_filter ha) htrigger i hi)

/-- What a call keeps. -/
structure Step (moves : OperandMoves ν) (r r' : ExecutionPipelineResource ν)
    (placed : ν → Option Nat) : Prop where
  books : Books moves r' placed
  resources : r'.resources = r.resources
  initiationInterval : r'.initiationInterval = r.initiationInterval

/-- What the test allows is assigned, and no assertion fails. -/
theorem Books.assignDestination (h : Books moves r placed) (hnone : placed node = none)
    (hdestination : moves.isDestinationOperation node = true)
    (htrigger : moves.isTriggering node = true) (hproper : r.Proper moves cycle node)
    {placed' : ν → Option Nat} (hallows : r.Allows moves placed' cycle node) :
    ∃ r', r.assignDestination moves cycle node = .ok r' ∧
      Step moves r r' (Function.update placed node (some cycle)) := by
  obtain ⟨uses, huses, hfree⟩ := hallows
  obtain ⟨operation, hoperation⟩ := Option.isSome_iff_exists.1 hproper.operation
  have hname : moves.opName node = operation := by
    rw [OperandMoves.opName, hoperation]
    rfl
  have hresources := (r.resources.nonempty _ (Option.isSome_of_eq_some huses)).2
  obtain ⟨t, hloop, hchanged⟩ := foldlM_assignPlace node hresources
    (hproper.fits uses huses) hproper.inRange h.shaped (by
      intro p hp huse
      have hfree := (hfree p hp huse).2
      cases hfirst : (r.fuExecutionPipeline.slot (r.instructionIndex (cycle + p.1)) p.2).1 with
      | none => exact .inl rfl
      | some first => exact .inr (hfree first hfirst).1)
  refine ⟨{ r with
    fuExecutionPipeline := t
    assignedDestinationNodes := (cycle, node) :: r.assignedDestinationNodes }, ?_, ?_, rfl, rfl⟩
  · rw [ExecutionPipelineResource.assignDestination,
      if_neg (by rw [hdestination]; exact Bool.false_ne_true)]
    dsimp only
    rw [if_neg (by rw [htrigger]; exact Bool.false_ne_true), hoperation]
    dsimp only
    rw [← hname, huses]
    dsimp only
    exact congrArg _ hloop
  · apply h.assign hnone hdestination hchanged.shaped hchanged.rows
    · intro _
      refine ⟨hproper, Option.isSome_of_eq_some huses, fun i hi => ?_⟩
      exact hchanged.made (i, 0) (mem_places.2 ⟨hi, hresources⟩)
    · intro m j
      rcases hchanged.slot hdestination htrigger huses m j with ⟨hoccupies, heq⟩ | hother
      · obtain ⟨p, hp, huse, rfl, rfl⟩ := (occupies_iff hdestination htrigger huses).1 hoccupies
        refine .inl ⟨hoccupies, fun other hother => ?_, heq⟩
        obtain ⟨hsecond, hexclusive⟩ := (hfree p hp huse).2 other hother
        exact ⟨hsecond, OperandMoves.exclusive_of_exclusiveMoves hexclusive⟩
      · exact .inr hother

omit [DecidableEq ν] in
theorem not_occupies (htrigger : ¬moves.isTriggering node = true) (m j : Nat) :
    ¬r.Occupies moves cycle node m j := fun h => htrigger h.2.1

/-- A node that does not trigger an operation uses no resource. -/
theorem Books.assignDestination_operand (h : Books moves r placed) (hnone : placed node = none)
    (htrigger : ¬(moves.isDestinationOperation node && moves.isTriggering node) = true) :
    ∃ r', r.assignDestination moves cycle node = .ok r' ∧
      Step moves r r' (Function.update placed node (some cycle)) := by
  rw [ExecutionPipelineResource.assignDestination]
  by_cases hdestination : moves.isDestinationOperation node = true
  · rw [hdestination, Bool.true_and] at htrigger
    rw [hdestination, Bool.eq_false_of_not_eq_true htrigger]
    refine ⟨_, rfl, ?_, rfl, rfl⟩
    apply h.assign hnone hdestination h.shaped fun _ hm => hm
    · exact fun htrigger' => absurd htrigger' htrigger
    · exact fun m j => .inr ⟨not_occupies htrigger m j, rfl⟩
  · rw [Bool.eq_false_of_not_eq_true hdestination]
    refine ⟨_, rfl, ?_, rfl, rfl⟩
    exact h.update (Bool.eq_false_of_not_eq_true hdestination) _

/-- What is assigned is unassigned, and no assertion fails. -/
theorem Books.unassignDestination (h : Books moves r placed) (hplaced : placed node = some cycle) :
    ∃ r', r.unassignDestination moves cycle node = .ok r' ∧
      Step moves r r' (Function.update placed node none) := by
  rw [ExecutionPipelineResource.unassignDestination]
  by_cases hdestination : moves.isDestinationOperation node = true
  · have hmem := (h.assigned_iff cycle node).2 ⟨hplaced, hdestination⟩
    rw [if_neg (by rw [hdestination]; exact Bool.false_ne_true),
      if_neg (not_not.2 (List.mem_map_of_mem hmem))]
    by_cases htrigger : moves.isTriggering node = true
    · obtain ⟨uses, huses⟩ := Option.isSome_iff_exists.1 (h.supported _ hmem htrigger)
      have hproper := h.proper _ hmem htrigger
      have hlatency := (r.resources.nonempty _ (Option.isSome_of_eq_some huses)).1
      have hsize := h.shaped.lt_size (h.rows _ hmem htrigger _ (Nat.sub_one_lt hlatency.ne'))
      obtain ⟨t, hloop, hchanged⟩ := foldlM_unassignPlace node
        (hproper.fits uses huses) hproper.inRange h.shaped
        (fun p hp => h.rows _ hmem htrigger p.1 (mem_places.1 hp).1)
        (fun m j hcontains => ((contains_removeNode (h.distinct m j) node).1 hcontains).2 rfl)
        (fun p hp => by
          rw [← occupies_iff hdestination htrigger huses]
          exact h.contains_node hplaced _ _)
      refine ⟨{ r with
        fuExecutionPipeline := t
        assignedDestinationNodes := r.assignedDestinationNodes.filter fun a => a.2 ≠ node },
        ?_, ?_, rfl, rfl⟩
      · dsimp only
        rw [if_neg (by rw [htrigger]; exact Bool.false_ne_true), huses]
        dsimp only
        rw [if_neg]
        · exact congrArg _ hloop
        · rw [Nat.add_sub_assoc hlatency]
          exact not_le.2 hsize
      · exact h.unassign hplaced hchanged.shaped hchanged.rows
          (hchanged.slot hdestination htrigger huses)
    · rw [Bool.eq_false_of_not_eq_true htrigger]
      refine ⟨_, rfl, ?_, rfl, rfl⟩
      apply h.unassign hplaced h.shaped fun _ hm => hm
      exact fun m j => .inr ⟨not_occupies htrigger m j, rfl⟩
  · rw [Bool.eq_false_of_not_eq_true hdestination]
    refine ⟨r, rfl, ?_, rfl, rfl⟩
    exact h.update (Bool.eq_false_of_not_eq_true hdestination) none

inductive Call (ν : Type) where
  | assignDestination (cycle : Nat) (node : ν)
  | unassignDestination (node : ν)
  | assignSource (isLoopBypass : Bool) (cycle : Nat) (node : ν)
  | unassignSource (node : ν)
  | setMaxCycle (maxCycle : Nat)

/-- The resource is asked before it is assigned to a trigger, when the node has been placed already.
A node is unassigned from the cycle that it is assigned at. -/
def step (moves : OperandMoves ν) (s : ExecutionPipelineResource ν × (ν → Option Nat)) :
    Call ν → Outcome (ExecutionPipelineResource ν × (ν → Option Nat))
  | .assignDestination cycle node =>
    let placed := Function.update s.2 node (some cycle)
    if (s.2 node).isSome then .ok s
    else if moves.isDestinationOperation node && moves.isTriggering node then
      s.1.resourcesAllowTrigger moves placed cycle node >>= fun answer =>
        let r := { s.1 with fuExecutionPipeline := answer.2 }
        if answer.1 then (r.assignDestination moves cycle node).map fun r => (r, placed)
        else .ok (r, s.2)
    else (s.1.assignDestination moves cycle node).map fun r => (r, placed)
  | .unassignDestination node =>
    match s.2 node with
    | none => .ok s
    | some cycle => (s.1.unassignDestination moves cycle node).map fun r =>
        (r, Function.update s.2 node none)
  | .assignSource isLoopBypass cycle node => .ok (s.1.assignSource isLoopBypass cycle node, s.2)
  | .unassignSource node => .ok (s.1.unassignSource node, s.2)
  | .setMaxCycle maxCycle => .ok ({ s.1 with maxCycle := maxCycle }, s.2)

def run (moves : OperandMoves ν) (s : ExecutionPipelineResource ν × (ν → Option Nat))
    (calls : List (Call ν)) : Outcome (ExecutionPipelineResource ν × (ν → Option Nat)) :=
  calls.foldlM (step moves) s

/-- A trigger is one that the scheduler can ask for. -/
def Call.Proper (moves : OperandMoves ν) (r : ExecutionPipelineResource ν) : Call ν → Prop
  | .assignDestination cycle node => moves.isDestinationOperation node = true →
      moves.isTriggering node = true → r.Proper moves cycle node
  | _ => True

/-- A call that changes neither the table nor the triggers. -/
theorem Books.same {r' : ExecutionPipelineResource ν} (h : Books moves r placed)
    (hresources : r'.resources = r.resources)
    (hinterval : r'.initiationInterval = r.initiationInterval)
    (htable : r'.fuExecutionPipeline = r.fuExecutionPipeline)
    (hassigned : r'.assignedDestinationNodes = r.assignedDestinationNodes) :
    Step moves r r' placed := by
  obtain ⟨resources, initiationInterval, maxCycle, table, sources, destinations⟩ := r'
  cases hresources
  cases hinterval
  cases htable
  cases hassigned
  refine ⟨?_, rfl, rfl⟩
  constructor
  · exact h.shaped
  · exact h.filled
  · exact h.contains_iff
  · exact h.exclusive
  · exact h.assigned_iff
  · exact fun a ha htrigger => (h.proper a ha htrigger).congr rfl rfl
  · exact h.supported
  · exact h.rows

theorem Books.step {s : ExecutionPipelineResource ν × (ν → Option Nat)}
    (h : Books moves s.1 s.2) (call : Call ν) (hcall : call.Proper moves s.1) :
    ∃ s', ExecutionPipelineResource.step moves s call = .ok s' ∧ Step moves s.1 s'.1 s'.2 := by
  cases call with
  | assignDestination cycle node =>
    rw [ExecutionPipelineResource.step]
    dsimp only
    cases hplaced : s.2 node with
    | some cycle' => exact ⟨s, rfl, h, rfl, rfl⟩
    | none =>
      rw [if_neg (by exact Bool.false_ne_true)]
      by_cases htrigger : moves.isDestinationOperation node && moves.isTriggering node
      · rw [if_pos htrigger]
        obtain ⟨hdestination, htrigger⟩ := Bool.and_eq_true_iff.1 htrigger
        have hproper := hcall hdestination htrigger
        obtain ⟨allowed, hanswer, hallows⟩ := h.resourcesAllowTrigger hproper
          (Function.update s.2 node (some cycle))
        rw [Except.bind_of_ok hanswer]
        cases allowed with
        | false => exact ⟨s, rfl, h, rfl, rfl⟩
        | true =>
          obtain ⟨r', hassign, hstep⟩ :=
            h.assignDestination hplaced hdestination htrigger hproper (hallows.1 rfl)
          refine ⟨(r', _), ?_, hstep⟩
          rw [if_pos rfl]
          exact congrArg _ hassign
      · rw [if_neg htrigger]
        obtain ⟨r', hassign, hstep⟩ := h.assignDestination_operand hplaced htrigger
        exact ⟨(r', _), congrArg _ hassign, hstep⟩
  | unassignDestination node =>
    rw [ExecutionPipelineResource.step]
    cases hplaced : s.2 node with
    | none => exact ⟨s, rfl, h, rfl, rfl⟩
    | some cycle =>
      obtain ⟨r', hunassign, hstep⟩ := h.unassignDestination hplaced
      refine ⟨(r', _), ?_, hstep⟩
      dsimp only
      rw [hunassign]
      rfl
  | assignSource isLoopBypass cycle node => exact ⟨_, rfl, h.same rfl rfl rfl rfl⟩
  | unassignSource node => exact ⟨_, rfl, h.same rfl rfl rfl rfl⟩
  | setMaxCycle maxCycle => exact ⟨_, rfl, h.same rfl rfl rfl rfl⟩

omit [DecidableEq ν] in
theorem Call.Proper.congr {r r' : ExecutionPipelineResource ν} {call : Call ν}
    (h : call.Proper moves r) (hresources : r'.resources = r.resources)
    (hinterval : r'.initiationInterval = r.initiationInterval) : call.Proper moves r' := by
  cases call with
  | assignDestination cycle node =>
    exact fun hdestination htrigger => (h hdestination htrigger).congr hresources hinterval
  | unassignDestination => exact h
  | assignSource => exact h
  | unassignSource => exact h
  | setMaxCycle => exact h

theorem Books.run {s : ExecutionPipelineResource ν × (ν → Option Nat)} (h : Books moves s.1 s.2)
    (calls : List (Call ν)) (hcalls : ∀ call ∈ calls, call.Proper moves s.1) :
    ∃ s', ExecutionPipelineResource.run moves s calls = .ok s' ∧ Step moves s.1 s'.1 s'.2 := by
  induction calls generalizing s with
  | nil => exact ⟨s, rfl, h, rfl, rfl⟩
  | cons call calls ih =>
    obtain ⟨hcall, hcalls⟩ := List.forall_mem_cons.1 hcalls
    obtain ⟨s₁, hcall, hstep⟩ := h.step call hcall
    obtain ⟨s', hrun, hstep'⟩ := ih hstep.books fun call hmem =>
      (hcalls call hmem).congr hstep.resources hstep.initiationInterval
    refine ⟨s', ?_, hstep'.books, hstep'.resources.trans hstep.resources,
      hstep'.initiationInterval.trans hstep.initiationInterval⟩
    rw [ExecutionPipelineResource.run, List.foldlM_cons, hcall]
    exact hrun

/-- A node is assigned and uses a resource. -/
def Uses (moves : OperandMoves ν) (r : ExecutionPipelineResource ν) (placed : ν → Option Nat)
    (index resource : Nat) (node : ν) : Prop :=
  ∃ cycle, placed node = some cycle ∧ r.Occupies moves cycle node index resource

theorem Books.contains_iff_uses (h : Books moves r placed) (m j : Nat) (node : ν) :
    Contains (r.fuExecutionPipeline.slot m j) node ↔ Uses moves r placed m j node := by
  rw [h.contains_iff]
  constructor
  · rintro ⟨cycle, hmem, hoccupies⟩
    exact ⟨cycle, ((h.assigned_iff cycle node).1 hmem).1, hoccupies⟩
  · rintro ⟨cycle, hplaced, hoccupies⟩
    exact ⟨cycle, (h.assigned_iff cycle node).2 ⟨hplaced, hoccupies.1⟩, hoccupies⟩

/-- At most two triggers use a resource in a cycle, and only one of the two is executed. -/
structure Separate (moves : OperandMoves ν) (users : ν → Prop) : Prop where
  exclusive : ∀ first second, users first → users second → first ≠ second →
    moves.exclusive first second = true
  two : ∀ first second third, users first → users second → users third →
    first = second ∨ first = third ∨ second = third

theorem Books.separate (h : Books moves r placed) (m j : Nat) :
    Separate moves (Uses moves r placed m j) := by
  rcases hslot : r.fuExecutionPipeline.slot m j with ⟨a, b⟩
  have hpair := h.exclusive m j
  have huses : ∀ node, Uses moves r placed m j node → a = some node ∨ b = some node := by
    intro node huse
    rw [← h.contains_iff_uses, hslot] at huse
    exact huse
  rw [hslot] at hpair
  constructor
  · intro first second hfirst hsecond hne
    rcases huses first hfirst with rfl | rfl
    · rcases huses second hsecond with heq | rfl
      · exact absurd (Option.some.inj heq) hne
      · exact hpair first second rfl
    · rcases huses second hsecond with rfl | heq
      · rw [moves.exclusive_comm]
        exact hpair second first rfl
      · exact absurd (Option.some.inj heq) hne
  · intro first second third hfirst hsecond hthird
    have hfirst := huses first hfirst
    have hsecond := huses second hsecond
    have hthird := huses third hthird
    grind

/-- In every run of calls, nothing is thrown, no assertion fails, and no resource is used by
triggers that are both executed. -/
theorem triggers_separate (moves : OperandMoves ν) (resources : ExecutionPipelineResourceTable)
    (initiationInterval : Nat) (calls : List (Call ν))
    (hcalls : ∀ call ∈ calls, call.Proper moves (create resources initiationInterval)) :
    ∃ s, run moves (create resources initiationInterval, fun _ => none) calls = .ok s ∧
      ∀ index resource, Separate moves (Uses moves s.1 s.2 index resource) := by
  have hbooks := Books.create moves resources initiationInterval
  obtain ⟨s, hrun, hstep⟩ := Books.run
    (s := (create resources initiationInterval, fun _ => none)) hbooks calls hcalls
  exact ⟨s, hrun, hstep.books.separate⟩

/-- What a trigger needs is free, or used by one trigger that excludes it. -/
def Clear (moves : OperandMoves ν) (r : ExecutionPipelineResource ν) (placed : ν → Option Nat)
    (cycle : Nat) (node : ν) : Prop :=
  ∃ uses, r.resources.operationPipelines (moves.opName node) = some uses ∧
    ∀ i < r.resources.maximalLatency, ∀ j < r.resources.numberOfResources, uses i j = true →
      (r.maxCycle ≠ 2147483647 → cycle + i ≤ r.maxCycle) ∧
      ∀ user, Uses moves r placed (r.instructionIndex (cycle + i)) j user →
        moves.exclusiveMoves (Function.update placed node (some cycle)) user node
          (r.instructionIndex cycle) = true ∧
        ∀ other, Uses moves r placed (r.instructionIndex (cycle + i)) j other → other = user

theorem Books.free_iff (h : Books moves r placed) (exclusive : ν → Bool) (m j : Nat) :
    Free exclusive (r.fuExecutionPipeline.slot m j) ↔ ∀ user, Uses moves r placed m j user →
      exclusive user = true ∧ ∀ other, Uses moves r placed m j other → other = user := by
  have hfilled := h.filled m j
  have hdistinct := h.distinct m j
  have huses := h.contains_iff_uses m j
  rcases hslot : r.fuExecutionPipeline.slot m j with ⟨first, second⟩
  rw [hslot] at hfilled hdistinct huses
  simp only [← huses]
  cases first with
  | none =>
    cases hfilled rfl
    simp [Free, Contains]
  | some first =>
    cases second with
    | none => simp [Free, Contains]
    | some second =>
      constructor
      · intro hfree
        cases (hfree first rfl).1
      · intro hall
        have heq := (hall first (.inl rfl)).2 second (.inr rfl)
        exact absurd heq.symm (hdistinct first second rfl)

theorem Books.allows_iff (h : Books moves r placed) (cycle : Nat) (node : ν) :
    r.Allows moves (Function.update placed node (some cycle)) cycle node ↔
      Clear moves r placed cycle node := by
  rw [Allows, Clear]
  refine exists_congr fun uses => and_congr_right fun _ => ?_
  constructor
  · intro hfree i hi j hj huse
    obtain ⟨hmax, hslot⟩ := hfree (i, j) (mem_places.2 ⟨hi, hj⟩) huse
    exact ⟨hmax, (h.free_iff _ _ _).1 hslot⟩
  · intro hfree p hp huse
    obtain ⟨hi, hj⟩ := mem_places.1 hp
    obtain ⟨hmax, hslot⟩ := hfree p.1 hi p.2 hj huse
    exact ⟨hmax, (h.free_iff _ _ _).2 hslot⟩

/-- After every run of calls the test changes nothing, and its answer depends on the triggers that
are assigned, not on the calls that assigned them. -/
theorem resourcesAllowTrigger_iff (moves : OperandMoves ν)
    (resources : ExecutionPipelineResourceTable) (initiationInterval : Nat) (calls : List (Call ν))
    (hcalls : ∀ call ∈ calls, call.Proper moves (create resources initiationInterval))
    (cycle : Nat) (node : ν)
    (hproper : (create resources initiationInterval).Proper moves cycle node) :
    ∃ s allowed, run moves (create resources initiationInterval, fun _ => none) calls = .ok s ∧
      s.1.resourcesAllowTrigger moves (Function.update s.2 node (some cycle)) cycle node =
        .ok (allowed, s.1.fuExecutionPipeline) ∧
      (allowed = true ↔ Clear moves s.1 s.2 cycle node) := by
  have hbooks := Books.create moves resources initiationInterval
  obtain ⟨s, hrun, hstep⟩ := Books.run
    (s := (create resources initiationInterval, fun _ => none)) hbooks calls hcalls
  obtain ⟨allowed, hanswer, hallows⟩ := hstep.books.resourcesAllowTrigger
    (hproper.congr hstep.resources hstep.initiationInterval) (Function.update s.2 node (some cycle))
  exact ⟨s, allowed, hrun, hanswer, hallows.trans (hstep.books.allows_iff cycle node)⟩

/-- A unit with one operation, which uses its only resource when it is triggered. -/
def oneResource : ExecutionPipelineResourceTable where
  maximalLatency := 1
  numberOfResources := 1
  operationPipelines operation := if operation = "ADD" then some fun _ _ => true else none
  nonempty _ _ := ⟨Nat.one_pos, Nat.one_pos⟩

/-- Triggers without a guard. -/
def additions : OperandMoves Nat where
  isMove _ := true
  guard _ := none
  isDestinationOperation _ := true
  isTriggering _ := true
  operation _ := some "ADD"
  hintOperation _ := ""
  guardRawPredecessors := none

theorem additions_proper (h : cycle < 2147483647) (node : Nat) :
    (create oneResource 2 : ExecutionPipelineResource Nat).Proper additions cycle node := by
  constructor
  · rfl
  · intro uses _ i hi j _ _ i' hi' _
    exact .inl ((Nat.lt_one_iff.1 hi').trans (Nat.lt_one_iff.1 hi).symm)
  · exact h

/-- The second trigger has the index of the first one, which is removed before the third one. -/
def additionCalls : List (Call Nat) :=
  [.assignDestination 0 0, .assignDestination 2 1, .unassignDestination 0, .assignDestination 4 2]

theorem additionCalls_proper :
    ∀ call ∈ additionCalls, call.Proper additions (create oneResource 2) := by
  simp only [additionCalls, List.forall_mem_cons]
  refine ⟨?_, ?_, trivial, ?_, fun _ h => absurd h List.not_mem_nil⟩
  · exact fun _ _ => additions_proper (by decide) 0
  · exact fun _ _ => additions_proper (by decide) 1
  · exact fun _ _ => additions_proper (by decide) 2

theorem triggers_separate_additions :
    ∃ s, run additions (create oneResource 2, fun _ => none) additionCalls = .ok s ∧
      ∀ index resource, Separate additions (Uses additions s.1 s.2 index resource) :=
  triggers_separate additions oneResource 2 additionCalls additionCalls_proper

theorem resourcesAllowTrigger_iff_additions :
    ∃ s allowed, run additions (create oneResource 2, fun _ => none) additionCalls = .ok s ∧
      s.1.resourcesAllowTrigger additions (Function.update s.2 3 (some 6)) 6 3 =
        .ok (allowed, s.1.fuExecutionPipeline) ∧
      (allowed = true ↔ Clear additions s.1 s.2 6 3) :=
  resourcesAllowTrigger_iff additions oneResource 2 additionCalls additionCalls_proper 6 3
    (additions_proper (by decide) 3)

end ExecutionPipelineResource
end Scheduler

end OpenAsip
