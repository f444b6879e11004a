import OpenAsip.DependenceCycles

namespace OpenAsip
set_option autoImplicit true

namespace DDG

namespace MoveNode

def operations (node : MoveNode) : List Nat :=
  node.sourceOperation.toList ++ node.destinationOperations

theorem inSameOperation_iff (node other : MoveNode) :
    node.inSameOperation other = true ↔ ∃ op ∈ node.operations, op ∈ other.operations := by
  have hempty (m : MoveNode) : m.isRegisterMove = true ↔ m.operations = [] := by
    rw [isRegisterMove, isSourceOperation, isDestinationOperation, operations,
      List.append_eq_nil_iff, Bool.and_eq_true, Bool.not_eq_true', Bool.not_not, List.isEmpty_iff,
      Option.isSome_eq_false_iff, Option.isNone_iff_eq_none, Option.toList_eq_nil_iff]
  rw [inSameOperation]
  by_cases h : (other.isRegisterMove || node.isRegisterMove) = true
  · rw [if_pos h]
    constructor
    · intro hf
      cases hf
    · rintro ⟨op, hnode, hother⟩
      rcases Bool.or_eq_true_iff.1 h with hm | hm
      · rw [(hempty other).1 hm] at hother
        exact absurd hother List.not_mem_nil
      · rw [(hempty node).1 hm] at hnode
        exact absurd hnode List.not_mem_nil
  · rw [if_neg h]
    change (_ || _) = true ↔ _
    rw [Bool.or_eq_true, List.any_eq_true]
    simp only [operations, List.mem_append, Option.mem_toList, List.contains_iff_mem]
    constructor
    · rintro (h | ⟨op, hop, hmem⟩)
      · obtain ⟨op, hop, hmem⟩ := (Option.any_eq_true _ _).1 h
        exact ⟨op, .inl hop, by simpa using hmem⟩
      · exact ⟨op, .inr hop, hmem⟩
    · rintro ⟨op, hop | hop, hmem⟩
      · left
        rw [hop, Option.any_some, List.contains_iff_mem, List.mem_append, Option.mem_toList]
        exact hmem
      · exact .inr ⟨op, hop, hmem⟩

theorem inSameOperation_comm (node other : MoveNode) :
    node.inSameOperation other = other.inSameOperation node := by
  rw [Bool.eq_iff_iff, inSameOperation_iff, inSameOperation_iff]
  constructor
  · rintro ⟨op, hnode, hother⟩
    exact ⟨op, hother, hnode⟩
  · rintro ⟨op, hother, hnode⟩
    exact ⟨op, hnode, hother⟩

end MoveNode

/-- All that the latencies of an edge depend on. -/
structure Shape where
  delaySlots : Int
  operationLatencies : List (String × Int)
  tail : MoveNode
  edge : DataDependenceEdge
  head : MoveNode

abbrev DataDependenceGraph.shape (g : DataDependenceGraph n) (c : Connection n) : Shape :=
  ⟨g.delaySlots, g.operationLatencies, g.node c.tail, c.edge, g.node c.head⟩

namespace Shape

variable (σ : Shape)

def operationLatency : Int := (σ.operationLatencies.lookup σ.edge.data).getD 1

/-- The head is a result of the operation whose operand the tail is, as `earliestCycle` sees it. -/
abbrev ToResult : Prop :=
  σ.edge.edgeReason = .operation ∧ σ.head.isSourceOperation ∧ σ.tail.inSameOperation σ.head

/-- The same as `latestCycle` sees it. -/
abbrev FromOperand : Prop :=
  σ.edge.edgeReason = .operation ∧ σ.tail.isDestinationOperation ∧ σ.head.inSameOperation σ.tail

/-- The latency of a read that is to be finished before the write. -/
def antidependence : Int := 1 - if σ.edge.guardUse then σ.tail.guardLatency else 1

/-- How much later than the tail the head has to be for `earliestCycle`. -/
def earliestLatency : Int :=
  if σ.edge.headPseudo then -σ.delaySlots
  else if σ.ToResult then σ.operationLatency
  else
    match σ.edge.dependenceType with
    | .waw => 1
    | .war => σ.antidependence
    | _ => if σ.edge.guardUse then σ.head.guardLatency else 1

/-- The same for `latestCycle`. -/
def latestLatency : Int :=
  if σ.edge.headPseudo then -σ.delaySlots
  else
    match σ.edge.dependenceType with
    | .waw => 1
    | .war => σ.antidependence
    | _ =>
      if σ.edge.guardUse then σ.head.guardLatency
      else if σ.FromOperand then σ.operationLatency else 1

/-- What `edgeLatency` starts from. -/
def ownLatency : Int :=
  if σ.edge.edgeReason = .operation then if σ.ToResult then σ.operationLatency else 1
  else if σ.edge.dependenceType = .war then 0 else 1

def tailDelay : Int := if σ.edge.tailPseudo then σ.delaySlots else 0

def guardDelay : Int :=
  if σ.edge.guardUse then
    match σ.edge.dependenceType with
    | .raw => σ.head.guardLatency - 1
    | .war => 1 - σ.tail.guardLatency
    | _ => 0
  else 0

/-- The same for `edgeLatency`, without the loop distance. -/
def edgeLatency : Int :=
  σ.ownLatency - (if σ.edge.headPseudo then σ.delaySlots else 0) + σ.tailDelay + σ.guardDelay

/-- No sum of latencies is larger. -/
def reach : Nat :=
  σ.operationLatency.natAbs + 2 * σ.delaySlots.natAbs + σ.tail.guardLatency.natAbs +
    σ.head.guardLatency.natAbs + 2

variable {σ} in
/-- What a number of cycles below the limit leaves for each of the latencies. -/
theorem reach_lt (h : t + σ.reach < limit) : t + σ.delaySlots.natAbs < limit ∧
    t + σ.operationLatency.natAbs + 1 < limit ∧ t + σ.tail.guardLatency.natAbs + 2 < limit ∧
    t + σ.head.guardLatency.natAbs + 1 < limit ∧ t + 1 + 1 < limit := by
  rw [reach] at h
  generalize σ.delaySlots.natAbs = d at h ⊢
  generalize σ.operationLatency.natAbs = l at h ⊢
  generalize σ.tail.guardLatency.natAbs = a at h ⊢
  generalize σ.head.guardLatency.natAbs = b at h ⊢
  omega

theorem natAbs_antidependence :
    σ.antidependence.natAbs ≤ σ.tail.guardLatency.natAbs + 1 := by
  rw [antidependence]
  split <;> omega

theorem natAbs_earliestLatency : σ.earliestLatency.natAbs ≤ σ.reach := by
  have hwar := σ.natAbs_antidependence
  rw [earliestLatency, reach]
  split
  · omega
  · split
    · omega
    · split
      · omega
      · omega
      · split <;> omega

theorem natAbs_latestLatency : σ.latestLatency.natAbs ≤ σ.reach := by
  have hwar := σ.natAbs_antidependence
  rw [latestLatency, reach]
  split
  · omega
  · split
    · omega
    · omega
    · split
      · omega
      · split <;> omega

theorem natAbs_ownLatency : σ.ownLatency.natAbs ≤ σ.operationLatency.natAbs + 1 := by
  rw [ownLatency]
  split
  · split <;> omega
  · split <;> omega

theorem natAbs_tailDelay : σ.tailDelay.natAbs ≤ σ.delaySlots.natAbs := by
  rw [tailDelay]
  split <;> omega

theorem natAbs_guardDelay :
    σ.guardDelay.natAbs ≤ σ.tail.guardLatency.natAbs + σ.head.guardLatency.natAbs + 1 := by
  rw [guardDelay]
  split
  · split <;> omega
  · omega

theorem natAbs_headDelay :
    (if σ.edge.headPseudo then σ.delaySlots else 0).natAbs ≤ σ.delaySlots.natAbs := by
  split
  · exact Nat.le_refl _
  · exact Nat.zero_le _

theorem natAbs_sum_le (a b c d : Int) :
    (a - b + c + d).natAbs ≤ a.natAbs + b.natAbs + c.natAbs + d.natAbs := by
  have h := Int.natAbs_add_le (a - b + c) d
  have h' := Int.natAbs_add_le (a - b) c
  have h'' := Int.natAbs_sub_le a b
  exact h.trans (Nat.add_le_add_right (h'.trans (Nat.add_le_add_right h'' _)) _)

theorem natAbs_edgeLatency : σ.edgeLatency.natAbs ≤ σ.reach := by
  refine (natAbs_sum_le _ _ _ _).trans ((Nat.add_le_add (Nat.add_le_add (Nat.add_le_add
    σ.natAbs_ownLatency σ.natAbs_headDelay) σ.natAbs_tailDelay) σ.natAbs_guardDelay).trans ?_)
  rw [reach]
  generalize σ.delaySlots.natAbs = d
  generalize σ.operationLatency.natAbs = l
  generalize σ.tail.guardLatency.natAbs = a
  generalize σ.head.guardLatency.natAbs = b
  omega

end Shape

section Sums
variable {x : Int} {f : Int → Outcome β}

theorem int_ok (h : x.natAbs < 2 ^ 31) : int x = .ok x := by
  apply if_pos
  omega

theorem int_bind (h : x.natAbs < 2 ^ 31) : (int x >>= f) = f x := by
  rw [int_ok h]
  rfl

theorem int_add_bind {t : Nat} (h : t + x.natAbs < 2 ^ 31) : (int (t + x) >>= f) = f (t + x) :=
  int_bind (by omega)

theorem int_sub_bind {t : Nat} (h : t + x.natAbs < 2 ^ 31) : (int (t - x) >>= f) = f (t - x) :=
  int_bind (by omega)

theorem int_sub_add_bind {t : Nat} (h : t + x.natAbs + 1 < 2 ^ 31) :
    (int (t - x) >>= fun y => int (y + 1) >>= f) = f (t + (1 - x)) := by
  have hsum : t - x + 1 = t + (1 - x) := by omega
  rw [int_sub_bind (Nat.lt_of_succ_lt h), int_bind (by omega), hsum]

theorem int_add_sub_bind {t : Nat} (h : t + x.natAbs + 1 < 2 ^ 31) :
    (int (t + x) >>= fun y => int (y - 1) >>= f) = f (t - (1 - x)) := by
  have hsum : t + x - 1 = t - (1 - x) := by omega
  rw [int_add_bind (Nat.lt_of_succ_lt h), int_bind (by omega), hsum]

theorem ofUnsigned_eq (h : x.natAbs < 2 ^ 31) : ofUnsigned x = x := by
  rw [ofUnsigned, Int.bmod_eq_of_le] <;> omega

end Sums

namespace DataDependenceGraph

variable {g : DataDependenceGraph n} {c : Connection n} {t : Nat}

theorem effTailCycle_eq (h : t + (g.shape c).reach < 2 ^ 31) :
    g.effTailCycle {} c.edge (g.node c.tail) (g.node c.head) t =
      .ok (some (t + (g.shape c).earliestLatency)) := by
  have hname : g.getOperationLatency c.edge.data = (g.shape c).operationLatency := rfl
  obtain ⟨hslots, hoperation, htail, hhead, htwo⟩ := Shape.reach_lt h
  have hone : t + (1 : Int).natAbs < 2 ^ 31 := Nat.lt_of_succ_lt htwo
  rw [effTailCycle, Shape.earliestLatency, hname]
  by_cases hpseudo : c.edge.headPseudo = true
  · rw [if_pos hpseudo, if_pos hpseudo, int_sub_bind hslots, Int.sub_eq_add_neg]
  rw [if_neg hpseudo, if_neg hpseudo]
  by_cases hr : (g.shape c).ToResult
  · rw [if_pos hr, if_pos hr, int_add_bind (Nat.lt_of_succ_lt hoperation)]
  rw [if_neg hr, if_neg hr, Shape.antidependence]
  simp only [Bool.false_eq_true, and_false, if_false]
  have hread : t + (if c.edge.guardUse = true then (g.node c.head).guardLatency else 1).natAbs <
      2 ^ 31 := by
    split
    · exact Nat.lt_of_succ_lt hhead
    · exact hone
  cases c.edge.dependenceType with
  | waw => exact int_add_bind hone
  | war =>
    have hwar : t + (if c.edge.guardUse = true then (g.node c.tail).guardLatency else 1).natAbs +
        1 < 2 ^ 31 := by
      split
      · exact Nat.lt_of_succ_lt htail
      · exact htwo
    exact int_sub_add_bind hwar
  | raw => exact int_add_bind hread
  | unknown => exact int_add_bind hread
  | trigger => exact int_add_bind hread

theorem effHeadCycle_eq (h : t + (g.shape c).reach < 2 ^ 31) :
    g.effHeadCycle {} c.edge (g.node c.tail) (g.node c.head) t =
      .ok (some (t - (g.shape c).latestLatency)) := by
  have hname : g.getOperationLatency c.edge.data = (g.shape c).operationLatency := rfl
  obtain ⟨hslots, hoperation, htail, hhead, htwo⟩ := Shape.reach_lt h
  have hone : t + (1 : Int).natAbs < 2 ^ 31 := Nat.lt_of_succ_lt htwo
  rw [effHeadCycle, Shape.latestLatency, hname]
  by_cases hpseudo : c.edge.headPseudo = true
  · rw [if_pos hpseudo, if_pos hpseudo, int_add_bind hslots, Int.sub_neg]
  rw [if_neg hpseudo, if_neg hpseudo, Shape.antidependence]
  simp only [Bool.false_eq_true, and_false, if_false]
  have hread : t + (if c.edge.guardUse = true then (g.node c.head).guardLatency
      else if (g.shape c).FromOperand then (g.shape c).operationLatency else 1).natAbs <
      2 ^ 31 := by
    split
    · exact Nat.lt_of_succ_lt hhead
    · split
      · exact Nat.lt_of_succ_lt hoperation
      · exact hone
  cases c.edge.dependenceType with
  | waw => exact int_sub_bind hone
  | war =>
    have hwar : t + (if c.edge.guardUse = true then (g.node c.tail).guardLatency else 1).natAbs +
        1 < 2 ^ 31 := by
      split
      · exact Nat.lt_of_succ_lt htail
      · exact htwo
    exact int_add_sub_bind hwar
  | raw => exact int_sub_bind hread
  | unknown => exact int_sub_bind hread
  | trigger => exact int_sub_bind hread

theorem ownLatency_eq (g : DataDependenceGraph n) (c : Connection n) :
    g.ownLatency c (some (g.node c.tail)) (some (g.node c.head)) =
      ((g.shape c).ownLatency, some (g.node c.tail), some (g.node c.head)) := by
  have hname : g.getOperationLatency c.edge.data = (g.shape c).operationLatency := rfl
  rw [ownLatency, Shape.ownLatency, Option.getD_some, Option.getD_some, hname]
  by_cases hop : c.edge.edgeReason = .operation
  · rw [if_pos hop, if_pos hop]
    by_cases hsource : (g.node c.head).isSourceOperation = true
    · dsimp only
      rw [if_pos hsource]
      by_cases hsame : (g.node c.tail).inSameOperation (g.node c.head) = true
      · rw [if_pos hsame, if_pos ⟨hop, hsource, hsame⟩]
      · rw [if_neg hsame, if_neg fun h => hsame h.2.2]
    · dsimp only
      rw [if_neg hsource, if_neg fun h => hsource h.2.1]
  · rw [if_neg hop, if_neg hop]

theorem addGuardLatency_eq {latency : Int}
    (h : latency.natAbs + (g.shape c).tail.guardLatency.natAbs +
      (g.shape c).head.guardLatency.natAbs + 1 < 2 ^ 31) :
    addGuardLatency c.edge (some (g.node c.tail)) (some (g.node c.head)) latency =
      .ok (latency + (g.shape c).guardDelay) := by
  dsimp only at h
  rw [addGuardLatency, Shape.guardDelay]
  by_cases hguard : c.edge.guardUse = true
  · rw [if_pos hguard, if_pos hguard]
    dsimp only
    cases c.edge.dependenceType with
    | raw =>
      dsimp only
      rw [int_bind (by omega), int_ok (by omega)]
    | war =>
      have hsum : latency - ((g.node c.tail).guardLatency - 1) =
          latency + (1 - (g.node c.tail).guardLatency) := by omega
      dsimp only
      rw [int_bind (by omega), int_ok (by omega), hsum]
    | waw => rw [Int.add_zero]
    | unknown => rw [Int.add_zero]
    | trigger => rw [Int.add_zero]
  · rw [if_neg hguard, if_neg hguard, Int.add_zero]

/-- The nodes are given, as its caller gives them. -/
theorem edgeLatency_eq (h : (g.shape c).reach + c.edge.distance ii < 2 ^ 31) :
    g.edgeLatency c ii (some (g.node c.tail)) (some (g.node c.head)) =
      .ok ((g.shape c).edgeLatency - c.edge.distance ii) := by
  have hown := (g.shape c).natAbs_ownLatency
  have hhead := (g.shape c).natAbs_headDelay
  have htail := (g.shape c).natAbs_tailDelay
  have hguard := (g.shape c).natAbs_guardDelay
  have hadd (latency : Int) (hl : latency.natAbs + (g.shape c).tail.guardLatency.natAbs +
      (g.shape c).head.guardLatency.natAbs + 1 < 2 ^ 31) :
      addGuardLatency c.edge (some (g.node c.tail)) (some (g.node c.head)) latency =
        .ok (latency + (g.shape c).guardDelay) := addGuardLatency_eq hl
  rw [edgeLatency, Shape.edgeLatency, ownLatency_eq]
  dsimp only [Shape.reach] at h hhead hown htail hguard hadd ⊢
  change (int (_ - _) >>= fun latency => int (latency + (g.shape c).tailDelay) >>= _) = _
  generalize (if c.edge.headPseudo = true then g.delaySlots else 0) = d at hhead ⊢
  generalize (g.shape c).ownLatency = o at hown ⊢
  generalize (g.shape c).tailDelay = e at htail ⊢
  generalize (g.shape c).guardDelay = k at hguard hadd ⊢
  generalize (g.shape c).operationLatency.natAbs = ln at h hown
  generalize g.delaySlots.natAbs = dn at h hhead htail
  generalize (g.node c.tail).guardLatency.natAbs = an at h hguard hadd
  generalize (g.node c.head).guardLatency.natAbs = bn at h hguard hadd
  have hlt : o.natAbs + d.natAbs + e.natAbs + an + bn + 1 + c.edge.distance ii < 2 ^ 31 := by
    omega
  clear h hown hhead htail
  rw [int_bind (by omega), int_bind (by omega), Except.bind_of_ok (hadd _ (by omega)),
    int_bind (by omega), int_ok (by omega)]

end DataDependenceGraph

end DDG

end OpenAsip
