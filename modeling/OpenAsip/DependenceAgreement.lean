import OpenAsip.DependenceLatencies

namespace OpenAsip
set_option autoImplicit true

namespace DDG

namespace Shape

variable (σ : Shape)

/-- An edge for which the three functions have the same latency. -/
def Regular : Prop :=
  if σ.edge.headPseudo then σ.ownLatency + σ.tailDelay + σ.guardDelay = 0
  else if σ.ToResult then
    σ.tailDelay + σ.guardDelay = 0 ∧
      match σ.edge.dependenceType with
      | .waw => σ.operationLatency = 1
      | .war => σ.operationLatency = σ.antidependence
      | _ =>
        if σ.edge.guardUse then σ.operationLatency = σ.head.guardLatency
        else σ.FromOperand ∨ σ.operationLatency = 1
  else
    match σ.edge.dependenceType with
    | .waw => σ.tailDelay = 0
    | .war => σ.tailDelay = if σ.edge.edgeReason = .operation then -1 else 0
    | .raw => σ.tailDelay = 0 ∧ (σ.edge.guardUse ∨ (σ.FromOperand → σ.operationLatency = 1))
    | _ =>
      if σ.edge.guardUse then σ.head.guardLatency = 1 + σ.tailDelay
      else σ.tailDelay = 0 ∧ (σ.FromOperand → σ.operationLatency = 1)

variable {σ}

/-- How long `latestCycle` lets a value be waited for. -/
def waiting (σ : Shape) : Int :=
  if σ.edge.guardUse then σ.head.guardLatency
  else if σ.FromOperand then σ.operationLatency else 1

theorem operationLatency_eq_waiting : σ.operationLatency = σ.waiting ↔
    if σ.edge.guardUse then σ.operationLatency = σ.head.guardLatency
    else σ.FromOperand ∨ σ.operationLatency = 1 := by
  rw [waiting]
  by_cases hguard : σ.edge.guardUse = true
  · rw [if_pos hguard, if_pos hguard]
  · rw [if_neg hguard, if_neg hguard]
    by_cases hop : σ.FromOperand
    · rw [if_pos hop]
      exact ⟨fun _ => .inl hop, fun _ => rfl⟩
    · rw [if_neg hop, or_iff_right hop]

theorem usual_eq_waiting :
    (if σ.edge.guardUse then σ.head.guardLatency else 1) = σ.waiting ↔
      (σ.edge.guardUse ∨ (σ.FromOperand → σ.operationLatency = 1)) := by
  rw [waiting]
  by_cases hguard : σ.edge.guardUse = true
  · rw [if_pos hguard, if_pos hguard]
    exact ⟨fun _ => .inl hguard, fun _ => rfl⟩
  · rw [if_neg hguard, if_neg hguard, or_iff_right hguard]
    by_cases hop : σ.FromOperand
    · rw [if_pos hop]
      exact ⟨fun h _ => h.symm, fun h => (h hop).symm⟩
    · rw [if_neg hop]
      exact ⟨fun _ h => absurd h hop, fun _ => rfl⟩

theorem regular_iff_of_toResult (hhead : σ.edge.headPseudo ≠ true) (hr : σ.ToResult) :
    σ.Regular ↔ σ.earliestLatency = σ.latestLatency ∧ σ.earliestLatency = σ.edgeLatency := by
  have hown : σ.ownLatency = σ.operationLatency := by
    rw [ownLatency, if_pos hr.1, if_pos hr]
  have hedge : σ.operationLatency = σ.edgeLatency ↔ σ.tailDelay + σ.guardDelay = 0 := by
    rw [edgeLatency, if_neg hhead, hown]
    omega
  rw [Regular, earliestLatency, latestLatency, if_neg hhead, if_neg hhead, if_neg hhead,
    if_pos hr, if_pos hr, hedge, and_comm]
  cases σ.edge.dependenceType with
  | waw => exact Iff.rfl
  | war => exact Iff.rfl
  | raw => exact and_congr_left' operationLatency_eq_waiting.symm
  | unknown => exact and_congr_left' operationLatency_eq_waiting.symm
  | trigger => exact and_congr_left' operationLatency_eq_waiting.symm

theorem ownLatency_of_not_toResult (hr : ¬σ.ToResult) : σ.ownLatency =
    if σ.edge.edgeReason ≠ .operation ∧ σ.edge.dependenceType = .war then 0 else 1 := by
  rw [ownLatency, if_neg hr]
  by_cases hop : σ.edge.edgeReason = .operation
  · rw [if_pos hop, if_neg fun h => h.1 hop]
  · rw [if_neg hop]
    by_cases hwar : σ.edge.dependenceType = .war
    · rw [if_pos hwar, if_pos ⟨hop, hwar⟩]
    · rw [if_neg hwar, if_neg fun h => hwar h.2]

/-- An edge that is no dependence by its type: its guard is left out by `edgeLatency`. -/
theorem unguarded_iff : (if σ.edge.guardUse then σ.head.guardLatency = 1 + σ.tailDelay
      else σ.tailDelay = 0 ∧ (σ.FromOperand → σ.operationLatency = 1)) ↔
    (if σ.edge.guardUse then σ.head.guardLatency else 1) = σ.waiting ∧
      (if σ.edge.guardUse then σ.head.guardLatency else 1) = 1 - 0 + σ.tailDelay + 0 := by
  rw [usual_eq_waiting]
  by_cases hguard : σ.edge.guardUse = true
  · rw [if_pos hguard, if_pos hguard, and_iff_right (.inl hguard), Int.sub_zero, Int.add_zero]
  · rw [if_neg hguard, if_neg hguard, or_iff_right hguard, and_comm]
    exact and_congr_right' (by omega)

theorem regular_iff_of_not_toResult (hhead : σ.edge.headPseudo ≠ true) (hr : ¬σ.ToResult) :
    σ.Regular ↔ σ.earliestLatency = σ.latestLatency ∧ σ.earliestLatency = σ.edgeLatency := by
  rw [Regular, earliestLatency, latestLatency, edgeLatency, if_neg hhead, if_neg hhead,
    if_neg hhead, if_neg hhead, if_neg hr, if_neg hr, ownLatency_of_not_toResult hr, guardDelay]
  cases σ.edge.dependenceType with
  | waw =>
    simp only [reduceCtorEq, and_false, if_false, true_and, ite_self]
    omega
  | war =>
    simp only [and_true, true_and, antidependence]
    by_cases hop : σ.edge.edgeReason = .operation
    · rw [if_pos hop, if_neg (not_not.2 hop)]
      split <;> omega
    · rw [if_neg hop, if_pos hop]
      split <;> omega
  | raw =>
    have hedge : (if σ.edge.guardUse then σ.head.guardLatency else 1) =
        1 - 0 + σ.tailDelay + (if σ.edge.guardUse then σ.head.guardLatency - 1 else 0) ↔
        σ.tailDelay = 0 := by
      split <;> omega
    simp only [reduceCtorEq, and_false, if_false]
    rw [hedge, and_comm]
    exact and_congr_left' usual_eq_waiting.symm
  | unknown =>
    simp only [reduceCtorEq, and_false, if_false, ite_self]
    exact unguarded_iff
  | trigger =>
    simp only [reduceCtorEq, and_false, if_false, ite_self]
    exact unguarded_iff

theorem regular_iff : σ.Regular ↔
    σ.earliestLatency = σ.latestLatency ∧ σ.earliestLatency = σ.edgeLatency := by
  by_cases hhead : σ.edge.headPseudo = true
  · rw [Regular, earliestLatency, latestLatency, edgeLatency, if_pos hhead, if_pos hhead,
      if_pos hhead, if_pos hhead]
    omega
  by_cases hr : σ.ToResult
  · exact regular_iff_of_toResult hhead hr
  · exact regular_iff_of_not_toResult hhead hr

end Shape

end DDG

end OpenAsip
