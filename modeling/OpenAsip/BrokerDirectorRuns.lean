import OpenAsip.BrokerDirectorBounds

namespace OpenAsip
set_option autoImplicit true

namespace Scheduler
namespace SimpleBrokerDirector
variable {ν : Type} (info : ν → NodeInfo)

/-- What holds between the nodes and the instructions. -/
structure Consistent (s : SimpleBrokerDirector ν) : Prop where
  nodup : (s.assignments.map Assignment.node).Nodup
  placed : ∀ a ∈ s.assignments, s.placed a.node = some a.cycle
  recorded : ∀ a ∈ s.assignments, (info a.node).isMove = true → s.recorded a.node = true
  nonneg : ∀ a ∈ s.assignments, ∀ c, a.Occupies c → 0 ≤ c

structure Inv (s : SimpleBrokerDirector ν) : Prop where
  consistent : s.Consistent info
  within : s.Within info
  counts : ∀ c, s.moveCounts c = s.moveCount info c

variable {info} {s t : SimpleBrokerDirector ν}

theorem inv_new (placed : ν → Option Int) : (new placed).Inv info := by
  refine ⟨⟨List.nodup_nil, ?_, ?_, ?_⟩, within_of_empty rfl, ?_⟩
  · intro a ha
    cases ha
  · intro a ha
    cases ha
  · intro a ha
    cases ha
  · intro c
    rfl

theorem Inv.bounded (h : s.Inv info) : s.Bounded info := by
  refine ⟨?_, h.within.guards, ?_, h.counts⟩
  · intro c hc
    have hempty : s.isEmptyInstruction info c = false := by
      rw [isEmptyInstruction, decide_eq_false_iff_not]
      omega
    obtain ⟨a, ha, hoccupies⟩ := isEmptyInstruction_false.1 hempty
    exact h.within.occupied a ha c hoccupies
  · intro a ha w hw
    exact (h.within.occupied a ha w (.inr hw)).1

theorem Within.of_assignments (h : s.Within info) (hsub : ∀ a ∈ t.assignments, a ∈ s.assignments)
    (hmin : t.knownMinCycle = s.knownMinCycle) (hmax : t.knownMaxCycle = s.knownMaxCycle) :
    t.Within info := by
  constructor
  · intro a ha c hc
    rw [hmin, hmax]
    exact h.occupied a (hsub a ha) c hc
  · intro a ha hmove
    rw [hmin]
    exact h.guards a (hsub a ha) hmove

theorem moveCount_countP (c : Int) : s.moveCount info c =
    s.assignments.countP fun a => a.cycle = c ∧ (info a.node).isMove := by
  rw [List.countP_eq_length_filter]
  rfl

/-- The cycles of the new assignment. -/
theorem occupies_place {cycle iwc : Int} {inserts : Bool}
    (hinserts : inserts = true → (info node).isMove = true ∧ 0 ≤ iwc ∧ iwc ≤ cycle)
    (hc : Assignment.Occupies ⟨node, cycle, if inserts then some iwc else none⟩ c) :
    c = cycle ∨ c = iwc ∧ (info node).isMove = true ∧ 0 ≤ c ∧ c ≤ cycle := by
  rcases hc with heq | hwrite
  · exact .inl heq.symm
  · cases inserts with
    | false => cases hwrite
    | true =>
      cases hwrite
      exact .inr ⟨rfl, hinserts rfl⟩

variable [DecidableEq ν]

section Without

theorem mem_withoutNode : a ∈ (s.withoutNode node).assignments ↔
    a ∈ s.assignments ∧ a.node ≠ node := by
  rw [withoutNode, List.mem_filter, decide_eq_true_iff]

theorem Consistent.withoutNode (h : s.Consistent info) (node : ν) :
    (s.withoutNode node).Consistent info := by
  refine ⟨?_, ?_, ?_, ?_⟩
  · exact h.nodup.sublist (List.Sublist.map Assignment.node List.filter_sublist)
  · intro a ha
    exact h.placed a (mem_withoutNode.1 ha).1
  · intro a ha
    exact h.recorded a (mem_withoutNode.1 ha).1
  · intro a ha
    exact h.nonneg a (mem_withoutNode.1 ha).1

theorem Within.withoutNode (h : s.Within info) (node : ν) : (s.withoutNode node).Within info :=
  h.of_assignments (fun _ ha => (mem_withoutNode.1 ha).1) rfl rfl

/-- Without a node that is no assigned move, the instructions hold the same moves. -/
theorem moveCount_withoutNode_of_not (h : (info node).isMove = true →
    ∀ a ∈ s.assignments, a.node ≠ node) (c : Int) :
    (s.withoutNode node).moveCount info c = s.moveCount info c := by
  rw [moveCount_countP, moveCount_countP, SimpleBrokerDirector.withoutNode, List.countP_filter]
  apply List.countP_congr
  intro a ha
  rw [Bool.and_eq_true, decide_eq_true_iff, decide_eq_true_iff]
  constructor
  · exact And.left
  · intro hmove
    refine ⟨hmove, ?_⟩
    rintro rfl
    exact h hmove.2 a ha rfl

theorem Consistent.moveCount_withoutNode (h : s.Consistent info) (ha : a ∈ s.assignments)
    (hmove : (info a.node).isMove = true) (c : Int) :
    s.moveCount info c =
      (s.withoutNode a.node).moveCount info c + if a.cycle = c then 1 else 0 := by
  rw [moveCount_countP, moveCount_countP, countP_without h.nodup ha]
  congr 1
  by_cases hc : a.cycle = c
  · rw [if_pos hc, if_pos (decide_eq_true ⟨hc, hmove⟩)]
  · rw [if_neg hc, if_neg]
    rw [decide_eq_true_iff]
    exact fun h => hc h.1

end Without

section Assigning

theorem request_inv (h : s.Inv info) (hplaced : s.placed node = none ∨ s.placed node = some cycle) :
    (s.request info cycle node).Inv info := by
  refine ⟨⟨h.consistent.nodup, ?_, ?_, h.consistent.nonneg⟩,
    h.within.of_assignments (fun _ ha => ha) rfl rfl, h.counts⟩
  · intro a ha
    have ha' := h.consistent.placed a ha
    rw [request]
    dsimp only
    by_cases hnode : a.node = node
    · rw [hnode, Function.update_self]
      rw [hnode] at ha'
      rcases hplaced with hnone | hsome
      · rw [hnone] at ha'
        cases ha'
      · rw [← hsome, ha']
    · rw [Function.update_of_ne hnode]
      exact ha'
  · intro a ha hmove
    rw [request]
    dsimp only
    by_cases hnode : a.node = node
    · rw [hnode, Function.update_self, ← hnode, hmove, Bool.or_true]
    · rw [Function.update_of_ne hnode]
      exact h.consistent.recorded a ha hmove

theorem withoutNode_inv (h : s.Inv info)
    (hnode : (info node).isMove = true → ∀ a ∈ s.assignments, a.node ≠ node) :
    (s.withoutNode node).Inv info := by
  refine ⟨h.consistent.withoutNode node, h.within.withoutNode node, ?_⟩
  intro c
  rw [moveCount_withoutNode_of_not hnode]
  exact h.counts c

variable {cycle iwc : Int} {inserts : Bool}

theorem place_knownMinCycle (info : ν → NodeInfo) (s : SimpleBrokerDirector ν) (cycle : Int)
    (node : ν) (iwc : Int) (inserts : Bool) :
    (s.place info cycle node iwc inserts).knownMinCycle ≤ max s.knownMinCycle 0 ∧
      (s.place info cycle node iwc inserts).knownMinCycle ≤
        max (cycle - guardSlack (info node).latency) 0 ∧
      ((info node).isMove = true → 0 ≤ iwc →
        (s.place info cycle node iwc inserts).knownMinCycle ≤ iwc) := by
  rw [place]
  dsimp only
  generalize cycle - guardSlack (info node).latency = read
  have hlower : (if s.knownMinCycle > read then max read 0 else s.knownMinCycle) ≤
      max s.knownMinCycle 0 ∧
      (if s.knownMinCycle > read then max read 0 else s.knownMinCycle) ≤ max read 0 := by
    split
    · omega
    · omega
  revert hlower
  generalize (if s.knownMinCycle > read then max read 0 else s.knownMinCycle) = lower
  intro hlower
  split
  · rename_i h
    refine ⟨by omega, by omega, ?_⟩
    intro hmove hiwc
    exact Int.le_refl iwc
  · rename_i h
    refine ⟨hlower.1, hlower.2, ?_⟩
    intro hmove hiwc
    by_contra hlt
    exact h ⟨hmove, by omega, hiwc⟩

theorem mem_place : a ∈ (s.place info cycle node iwc inserts).assignments ↔
    (a ∈ s.assignments ∧ a.node ≠ node) ∨
      a = ⟨node, cycle, if inserts then some iwc else none⟩ := by
  rw [place, List.mem_append, mem_withoutNode, List.mem_singleton]

theorem place_knownMaxCycle (info : ν → NodeInfo) (s : SimpleBrokerDirector ν) (cycle : Int)
    (node : ν) (iwc : Int) (inserts : Bool) :
    s.knownMaxCycle ≤ (s.place info cycle node iwc inserts).knownMaxCycle ∧
      cycle ≤ (s.place info cycle node iwc inserts).knownMaxCycle := by
  rw [place]
  dsimp only
  split
  · omega
  · omega

theorem place_within (h : s.Within info) (hnonneg : ∀ a ∈ s.assignments, ∀ c, a.Occupies c → 0 ≤ c)
    (hcycle : 0 ≤ cycle)
    (hinserts : inserts = true → (info node).isMove = true ∧ 0 ≤ iwc ∧ iwc ≤ cycle) :
    (s.place info cycle node iwc inserts).Within info := by
  obtain ⟨hold, hread, hwrite⟩ := place_knownMinCycle info s cycle node iwc inserts
  obtain ⟨hmax, hcycleMax⟩ := place_knownMaxCycle info s cycle node iwc inserts
  have hslack : 0 ≤ guardSlack (info node).latency := by
    rw [guardSlack]
    omega
  constructor
  · intro a ha c hc
    rcases mem_place.1 ha with ⟨ha, -⟩ | rfl
    · have hwithin := h.occupied a ha c hc
      have hge := hnonneg a ha c hc
      omega
    · rcases occupies_place hinserts hc with rfl | ⟨rfl, hmove, hge, hle⟩
      · omega
      · have hiwc := hwrite hmove hge
        omega
  · intro a ha hmove
    rcases mem_place.1 ha with ⟨ha, -⟩ | rfl
    · have hguard := h.guards a ha hmove
      rw [Assignment.guardRead] at hguard ⊢
      omega
    · rw [Assignment.guardRead]
      rw [guardSlack, NodeInfo.latency, if_pos hmove] at hread
      dsimp only
      omega

theorem place_consistent (h : s.Consistent info) (hcycle : 0 ≤ cycle)
    (hplaced : s.placed node = some cycle)
    (hrecorded : (info node).isMove = true → s.recorded node = true)
    (hinserts : inserts = true → (info node).isMove = true ∧ 0 ≤ iwc ∧ iwc ≤ cycle) :
    (s.place info cycle node iwc inserts).Consistent info := by
  refine ⟨?_, ?_, ?_, ?_⟩
  · rw [place, List.map_append, List.nodup_append]
    refine ⟨(h.withoutNode node).nodup, List.nodup_singleton node, ?_⟩
    intro n hn m hm heq
    obtain ⟨a, ha, rfl⟩ := List.mem_map.1 hn
    rw [List.map_singleton, List.mem_singleton] at hm
    exact (mem_withoutNode.1 ha).2 (heq.trans hm)
  · intro a ha
    rcases mem_place.1 ha with ⟨ha, -⟩ | rfl
    · exact h.placed a ha
    · exact hplaced
  · intro a ha hmove
    rcases mem_place.1 ha with ⟨ha, -⟩ | rfl
    · exact h.recorded a ha hmove
    · exact hrecorded hmove
  · intro a ha c hc
    rcases mem_place.1 ha with ⟨ha, -⟩ | rfl
    · exact h.nonneg a ha c hc
    · rcases occupies_place hinserts hc with rfl | ⟨-, -, hge, -⟩
      · exact hcycle
      · exact hge

theorem moveCount_place (hnode : (info node).isMove = true → ∀ a ∈ s.assignments, a.node ≠ node)
    (c : Int) : (s.place info cycle node iwc inserts).moveCount info c =
      s.moveCount info c + if cycle = c ∧ (info node).isMove = true then 1 else 0 := by
  rw [← moveCount_withoutNode_of_not hnode, moveCount_countP, moveCount_countP, place,
    List.countP_append, List.countP_singleton]
  congr 1
  by_cases hmove : cycle = c ∧ (info node).isMove = true
  · rw [if_pos hmove, if_pos (decide_eq_true hmove)]
  · rw [if_neg hmove, if_neg]
    rw [decide_eq_true_iff]
    exact hmove

theorem place_inv (h : s.Inv info) (hcycle : 0 ≤ cycle) (hplaced : s.placed node = some cycle)
    (hrecorded : (info node).isMove = true → s.recorded node = true)
    (hnode : (info node).isMove = true → ∀ a ∈ s.assignments, a.node ≠ node)
    (hinserts : inserts = true → (info node).isMove = true ∧ 0 ≤ iwc ∧ iwc ≤ cycle) :
    (s.place info cycle node iwc inserts).Inv info := by
  refine ⟨place_consistent h.consistent hcycle hplaced hrecorded hinserts,
    place_within h.within h.consistent.nonneg hcycle hinserts, ?_⟩
  intro c
  rw [moveCount_place hnode, place]
  dsimp only
  by_cases hmove : (info node).isMove = true
  · rw [if_pos hmove]
    by_cases hc : cycle = c
    · rw [if_pos ⟨hc, hmove⟩, ← hc, Function.update_self, h.counts]
      rfl
    · rw [if_neg (fun h => hc h.1), Function.update_of_ne (Ne.symm hc), h.counts]
      rfl
  · rw [if_neg hmove, if_neg (fun h => hmove h.2), h.counts]
    rfl

end Assigning

section Unassigning

/-- The director after the node of the cycle has left its instructions. -/
def removed (s : SimpleBrokerDirector ν) (node : ν) (nodeCycle : Int) : SimpleBrokerDirector ν :=
  { s.withoutNode node with
    placed := Function.update s.placed node none
    recorded := Function.update s.recorded node false
    moveCounts := Function.update s.moveCounts nodeCycle (s.moveCounts nodeCycle - 1) }

theorem unassign_eq (hplaced : s.placed node = some nodeCycle)
    (hmove : (info node).isMove = true) (hrecorded : s.recorded node = true) :
    s.unassign info node w =
      if ((s.removed node nodeCycle).lowerBound info nodeCycle).knownMinCycle =
          nodeCycle - guardSlack (info node).originalGuardLatency ∨
          (info node).isMove ∧ w = some s.knownMinCycle then
        .ok (((s.removed node nodeCycle).lowerBound info nodeCycle).raiseBound info, none)
      else .ok ((s.removed node nodeCycle).lowerBound info nodeCycle, none) := by
  rw [unassign, hplaced]
  dsimp only
  rw [if_neg (not_not.2 hmove), if_neg (not_not.2 hrecorded)]
  rfl

theorem removed_inv (h : s.Inv info) (ha : a ∈ s.assignments)
    (hmove : (info a.node).isMove = true) : (s.removed a.node a.cycle).Inv info := by
  obtain ⟨hconsistent, hwithin, hcounts⟩ := h
  obtain ⟨hnodup, hplaced, hrecorded, hnonneg⟩ := hconsistent.withoutNode a.node
  refine ⟨⟨hnodup, ?_, ?_, hnonneg⟩, hwithin.of_assignments ?_ rfl rfl, ?_⟩
  · intro b hb
    rw [removed]
    dsimp only
    rw [Function.update_of_ne (mem_withoutNode.1 hb).2]
    exact hplaced b hb
  · intro b hb hmoveB
    rw [removed]
    dsimp only
    rw [Function.update_of_ne (mem_withoutNode.1 hb).2]
    exact hrecorded b hb hmoveB
  · intro b hb
    exact (mem_withoutNode.1 hb).1
  · intro c
    have hcount := hconsistent.moveCount_withoutNode ha hmove c
    have hold := hcounts c
    change Function.update s.moveCounts a.cycle (s.moveCounts a.cycle - 1) c =
      (s.withoutNode a.node).moveCount info c
    by_cases hc : a.cycle = c
    · rw [if_pos hc] at hcount
      rw [hc, Function.update_self]
      omega
    · rw [if_neg hc] at hcount
      rw [Function.update_of_ne (Ne.symm hc)]
      omega

theorem unassign_inv (h : s.Inv info) (ha : a ∈ s.assignments)
    (hmove : (info a.node).isMove = true)
    (hseen : s.knownMinCycle = a.cycle - guardSlack (info a.node).originalGuardLatency ∨
      w = some s.knownMinCycle → (s.withoutNode a.node).GuardsSeen info) :
    ∃ r, s.unassign info a.node w = .ok r ∧ r.1.Inv info := by
  obtain ⟨hconsistent, hwithin, hcounts⟩ := removed_inv h ha hmove
  obtain ⟨hlowered, hmin⟩ := lowerBound_within hwithin a.cycle
  obtain ⟨lower, upper, hframe⟩ := lowerBound_frame info (s.removed a.node a.cycle) a.cycle
  rw [unassign_eq (h.consistent.placed a ha) hmove (h.consistent.recorded a ha hmove)]
  have hinv : ((s.removed a.node a.cycle).lowerBound info a.cycle).Inv info := by
    refine ⟨?_, hlowered, ?_⟩
    · rw [hframe]
      exact ⟨hconsistent.nodup, hconsistent.placed, hconsistent.recorded, hconsistent.nonneg⟩
    · rw [hframe]
      exact hcounts
  split
  · rename_i htouched
    refine ⟨_, rfl, ?_⟩
    have hseen' : ((s.removed a.node a.cycle).lowerBound info a.cycle).GuardsSeen info := by
      rcases hmin with hmin | hnil
      · apply GuardsSeen.of_assignments (s := s.withoutNode a.node)
        · apply hseen
          rcases htouched with hread | hwrite
          · exact .inl (hmin.symm.trans hread)
          · exact .inr hwrite.2
        · rw [hframe]
          rfl
      · apply guardsSeen_of_empty
        rw [hframe]
        exact hnil
    have hraised := raiseBound_within hlowered hseen'
    obtain ⟨first, hfirst⟩ := raiseBound_frame info
      ((s.removed a.node a.cycle).lowerBound info a.cycle)
    refine ⟨?_, hraised, ?_⟩
    · dsimp only
      rw [hfirst]
      exact ⟨hinv.consistent.nodup, hinv.consistent.placed, hinv.consistent.recorded,
        hinv.consistent.nonneg⟩
    · dsimp only
      rw [hfirst]
      exact hinv.counts
  · exact ⟨_, rfl, hinv⟩

end Unassigning

section Runs

/-- The search of an `assign` writes an immediate only for a move, not after its cycle. -/
def Call.Sound (info : ν → NodeInfo) : Call ν → Prop
  | .assign cycle node (.found iwc inserts) =>
    inserts = true → (info node).isMove = true ∧ 0 ≤ iwc ∧ iwc ≤ cycle
  | _ => True

/-- The node is a move in one of the instructions. -/
def Assigned (info : ν → NodeInfo) (s : SimpleBrokerDirector ν) (node : ν) : Prop :=
  (info node).isMove = true ∧ ∃ a ∈ s.assignments, a.node = node

/-- An assigned move is not assigned anew, unless it comes back as it was. Only assigned moves are
unassigned, and where the lower bound is searched anew, no guard of a later move is read before
it. -/
def Fits (info : ν → NodeInfo) (s : SimpleBrokerDirector ν) : Call ν → Prop
  | .assign cycle node search => 0 ≤ cycle → s.placed node = some cycle →
    s.Assigned info node → search = .notFound true
  | .unassign node w => ∀ nodeCycle ∈ s.placed node, s.Assigned info node ∧
    (s.knownMinCycle = nodeCycle - guardSlack (info node).originalGuardLatency ∨
      w = some s.knownMinCycle → (s.withoutNode node).GuardsSeen info)

instance Call.Sound.decidable (info : ν → NodeInfo) : ∀ call, Decidable (Call.Sound info call)
  | .assign cycle node (.found iwc inserts) =>
    inferInstanceAs (Decidable (inserts = true → (info node).isMove = true ∧ 0 ≤ iwc ∧ iwc ≤ cycle))
  | .assign _ _ (.notFound _) => isTrue trivial
  | .unassign _ _ => isTrue trivial

instance Assigned.decidable (info : ν → NodeInfo) (s : SimpleBrokerDirector ν) (node : ν) :
    Decidable (s.Assigned info node) :=
  inferInstanceAs (Decidable ((info node).isMove = true ∧ ∃ a ∈ s.assignments, a.node = node))

instance Fits.decidable (info : ν → NodeInfo) (s : SimpleBrokerDirector ν) :
    ∀ call, Decidable (s.Fits info call)
  | .assign cycle node search => inferInstanceAs (Decidable (0 ≤ cycle →
      s.placed node = some cycle → s.Assigned info node → search = .notFound true))
  | .unassign node w => inferInstanceAs (Decidable (∀ nodeCycle ∈ s.placed node,
      s.Assigned info node ∧
        (s.knownMinCycle = nodeCycle - guardSlack (info node).originalGuardLatency ∨
          w = some s.knownMinCycle → (s.withoutNode node).GuardsSeen info)))

theorem assign_inv (h : s.Inv info) (hsound : Call.Sound info (.assign cycle node search))
    (hfits : s.Fits info (.assign cycle node search)) :
    (s.assign info cycle node search).1.Inv info := by
  rw [assign]
  split
  · exact h
  split
  · exact h
  split
  · exact h
  rename_i hcycle hmax hplaced
  have hcases : s.placed node = none ∨ s.placed node = some cycle := by
    by_contra hnot
    rw [not_or] at hnot
    exact hplaced hnot
  have hrequest := request_inv h hcases
  dsimp only
  cases search with
  | notFound keeps =>
    dsimp only
    cases keeps with
    | true => exact hrequest
    | false =>
      rw [if_neg Bool.false_ne_true]
      apply withoutNode_inv hrequest
      rintro hmove a ha rfl
      have hplacedA := h.consistent.placed a ha
      rcases hcases with hnone | hsome
      · rw [hnone] at hplacedA
        cases hplacedA
      · cases hfits (by omega) hsome ⟨hmove, a, ha, rfl⟩
  | found iwc inserts =>
    apply place_inv hrequest (by omega) (Function.update_self _ _ _)
    · intro hmove
      change Function.update s.recorded node _ node = true
      rw [Function.update_self, hmove, Bool.or_true]
    · rintro hmove a ha rfl
      have hplacedA := h.consistent.placed a ha
      rcases hcases with hnone | hsome
      · rw [hnone] at hplacedA
        cases hplacedA
      · cases hfits (by omega) hsome ⟨hmove, a, ha, rfl⟩
    · exact hsound

theorem step_inv (h : s.Inv info) {call : Call ν} (hsound : call.Sound info)
    (hfits : s.Fits info call) : ∃ t, s.step info call = .ok t ∧ t.Inv info := by
  cases call with
  | assign cycle node search => exact ⟨_, rfl, assign_inv h hsound hfits⟩
  | unassign node w =>
    rw [step]
    cases hplaced : s.placed node with
    | none =>
      rw [unassign, hplaced]
      exact ⟨_, rfl, h⟩
    | some nodeCycle =>
      obtain ⟨⟨hmove, a, ha, rfl⟩, hseen⟩ := hfits nodeCycle hplaced
      have hcycle : a.cycle = nodeCycle := by
        rw [h.consistent.placed a ha] at hplaced
        exact Option.some.inj hplaced
      rw [← hcycle] at hseen
      obtain ⟨r, hr, hinv⟩ := unassign_inv h ha hmove hseen
      rw [hr]
      exact ⟨r.1, rfl, hinv⟩

/-- The bounds and the counts hold after every sequence of calls that fit. -/
theorem run_bounded (info : ν → NodeInfo) (placed : ν → Option Int) (calls : List (Call ν))
    (hsound : ∀ call ∈ calls, call.Sound info)
    (h : Along (step info) (Fits info) (new placed) calls) :
    ∃ s, calls.foldlM (step info) (new placed) = .ok s ∧ s.Bounded info := by
  obtain ⟨s, hrun, hinv⟩ := Along.run (Inv info)
    (fun s call hcall hinv hfits => step_inv hinv (hsound call hcall) hfits) (inv_new placed) h
  exact ⟨s, hrun, hinv.bounded⟩

/-- The node 0 has a guard of latency 3, the others have none, and the node 3 is an immediate. -/
def scheduleInfo (node : Fin 4) : NodeInfo :=
  if node = 0 then ⟨true, 3, 3⟩ else if node = 3 then ⟨false, 0, 0⟩ else ⟨true, 0, 0⟩

theorem run_bounded_schedule :
    ∃ s, [Call.assign 6 0 (.found (-1) false), .assign 3 1 (.found 1 true), .unassign 1 (some 1),
        .assign 2 3 (.found (-1) false)].foldlM (step scheduleInfo) (new fun _ => none) = .ok s ∧
      s.Bounded scheduleInfo :=
  run_bounded scheduleInfo (fun _ => none) _ (by decide) (by decide)

/-- Without the move of the cycle 3, the lower bound becomes 5, but the guard of the move of the
cycle 6 is read in the cycle 4. -/
theorem not_bounded_guard : ¬ ∀ calls : List (Call (Fin 4)),
    (∀ call ∈ calls, call.Sound scheduleInfo) →
      ∃ s, calls.foldlM (step scheduleInfo) (new fun _ => none) = .ok s ∧
        s.Bounded scheduleInfo := by
  intro h
  obtain ⟨s, hrun, hbounded⟩ := h [.assign 6 0 (.found (-1) false), .assign 5 1 (.found (-1) false),
    .assign 3 2 (.found (-1) false), .unassign 2 none] (by decide)
  have hguard := hbounded.guards ⟨0, 6, none⟩
  cases hrun
  revert hguard
  decide

end Runs

end SimpleBrokerDirector
end Scheduler

end OpenAsip
