import OpenAsip.DependenceAgreement

namespace OpenAsip
set_option autoImplicit true

namespace DDG

/-- A loop that raises a bound for each element by what that element asks for. -/
theorem foldlM_bounds {step : β → α → Except ε β} {l : List α} (bound : β → γ → Prop)
    (asks : α → γ → Prop) (h : ∀ b, ∀ a ∈ l, ∃ b', step b a = .ok b' ∧
      ∀ x, bound b' x ↔ bound b x ∧ asks a x) (b : β) :
    ∃ b', l.foldlM step b = .ok b' ∧ ∀ x, bound b' x ↔ bound b x ∧ ∀ a ∈ l, asks a x := by
  induction l generalizing b with
  | nil => exact ⟨b, rfl, fun x => (and_iff_left fun a ha => absurd ha List.not_mem_nil).symm⟩
  | cons a l ih =>
    obtain ⟨b₁, hb₁, hx₁⟩ := h b a List.mem_cons_self
    obtain ⟨b₂, hb₂, hx₂⟩ := ih (fun b a ha => h b a (List.mem_cons_of_mem _ ha)) b₁
    refine ⟨b₂, ?_, fun x => ?_⟩
    · rw [List.foldlM_cons, Except.bind_of_ok hb₁]
      exact hb₂
    · rw [hx₂, hx₁, List.forall_mem_cons, and_assoc]

namespace DataDependenceGraph

/-- All nodes are placed. -/
def placed (cycle : Fin n → Nat) : Placement n := fun v => some (cycle v)

/-- The sums of an edge have room in an `int`, and there is no loop without an interval. -/
structure Fits (g : DataDependenceGraph n) (cycle : Fin n → Nat) (ii : Nat) : Prop where
  cycle_lt : ∀ v, cycle v < 2 ^ 31
  loops : ii = 0 → ∀ c ∈ g.connections, c.edge.loopDepth = 0
  reach_lt : ∀ c ∈ g.connections, c.tail ≠ c.head → (g.shape c).reach < 2 ^ 29
  tail_lt : ∀ c ∈ g.connections, c.tail ≠ c.head →
    cycle c.tail + (g.shape c).reach + c.edge.distance ii < 2 ^ 31
  head_lt : ∀ c ∈ g.connections, c.tail ≠ c.head →
    cycle c.head + (g.shape c).reach + c.edge.distance ii < 2 ^ 31

variable {g : DataDependenceGraph n} {cycle : Fin n → Nat} {c : Connection n}

section Bounds

theorem Fits.loop_ok (h : g.Fits cycle ii) (hc : c ∈ g.connections) :
    ¬(ii = 0 ∧ c.edge.loopDepth ≠ 0) := fun hi => hi.2 (h.loops hi.1 c hc)

theorem earliestStep_eq (h : g.Fits cycle ii) (hc : c ∈ g.connections) (hne : c.tail ≠ c.head)
    (m : Int) : g.earliestStep (placed cycle) {} ii c.head m c = .ok
      (max (cycle c.tail + (g.shape c).earliestLatency - c.edge.distance ii) m) := by
  have htail := h.tail_lt c hc hne
  have hlatency := (g.shape c).natAbs_earliestLatency
  have heff := effTailCycle_eq (g := g) (c := c) (t := cycle c.tail) (by omega)
  rw [earliestStep]
  simp only [Bool.false_and, Bool.false_eq_true, if_false, if_neg hne, placed]
  rw [Except.bind_of_ok heff]
  dsimp only
  rw [if_neg (h.loop_ok hc), ofUnsigned_eq (by omega)]

theorem earliestCycle_spec (h : g.Fits cycle ii) (v : Fin n) :
    ∃ m, g.earliestCycle (placed cycle) {} ii v = .ok m ∧ ∀ x : Int, m ≤ x ↔ 0 ≤ x ∧
      ∀ c ∈ g.inEdges v, c.tail ≠ v →
        cycle c.tail + (g.shape c).earliestLatency - c.edge.distance ii ≤ x := by
  apply foldlM_bounds (fun m x : Int => m ≤ x) (fun c x => c.tail ≠ v →
    cycle c.tail + (g.shape c).earliestLatency - c.edge.distance ii ≤ x)
  intro m c hc
  obtain ⟨hmem, hhead⟩ := List.mem_filter.1 hc
  have hhead : c.head = v := of_decide_eq_true hhead
  subst hhead
  by_cases htail : c.tail = c.head
  · refine ⟨m, ?_, fun x => (and_iff_left fun hne => absurd htail hne).symm⟩
    rw [earliestStep]
    simp only [Bool.false_and, Bool.false_eq_true, if_false, htail, if_true]
  · refine ⟨_, earliestStep_eq h hmem htail m, fun x => ?_⟩
    rw [Int.max_le, and_comm]
    exact and_congr_right' ⟨fun hx _ => hx, fun hx => hx htail⟩

theorem latestStep_eq (h : g.Fits cycle ii) (hc : c ∈ g.connections) (hne : c.tail ≠ c.head)
    (m : Int) : g.latestStep (placed cycle) {} ii c.tail m c = .ok
      (some (min (cycle c.head - (g.shape c).latestLatency + c.edge.distance ii) m)) := by
  have hhead := h.head_lt c hc hne
  have hlatency := (g.shape c).natAbs_latestLatency
  have heff := effHeadCycle_eq (g := g) (c := c) (t := cycle c.head) (by omega)
  rw [latestStep]
  simp only [Bool.false_and, Bool.false_eq_true, if_false, if_neg (Ne.symm hne), placed]
  rw [Except.bind_of_ok heff]
  dsimp only
  rw [if_neg (h.loop_ok hc), ofUnsigned_eq (by omega)]

theorem latestLoop_spec (h : g.Fits cycle ii) {l : List (Connection n)}
    (hl : ∀ c ∈ l, c ∈ g.connections ∧ c.tail = v) (m : Int) :
    ∃ m', g.latestLoop (placed cycle) {} ii v l m = .ok m' ∧ ∀ x : Int, x ≤ m' ↔ x ≤ m ∧
      ∀ c ∈ l, c.head ≠ v →
        x ≤ cycle c.head - (g.shape c).latestLatency + c.edge.distance ii := by
  induction l generalizing m with
  | nil => exact ⟨m, rfl, fun x => (and_iff_left fun a ha => absurd ha List.not_mem_nil).symm⟩
  | cons c l ih =>
    obtain ⟨hmem, htail⟩ := hl c List.mem_cons_self
    have hrest := fun c hc => hl c (List.mem_cons_of_mem _ hc)
    subst htail
    by_cases hhead : c.head = c.tail
    · obtain ⟨m', hm', hx⟩ := ih hrest m
      refine ⟨m', ?_, fun x => ?_⟩
      · have hskip : g.latestStep (placed cycle) {} ii c.tail m c = .ok (some m) := by
          rw [latestStep]
          simp only [Bool.false_and, Bool.false_eq_true, if_false, hhead, if_true]
        rw [latestLoop, Except.bind_of_ok hskip]
        exact hm'
      · rw [hx, List.forall_mem_cons]
        exact and_congr_right' (and_iff_right fun hne => absurd hhead hne).symm
    · obtain ⟨m', hm', hx⟩ := ih hrest
        (min (cycle c.head - (g.shape c).latestLatency + c.edge.distance ii) m)
      refine ⟨m', ?_, fun x => ?_⟩
      · rw [latestLoop, Except.bind_of_ok (latestStep_eq h hmem (Ne.symm hhead) m)]
        exact hm'
      · rw [hx, List.forall_mem_cons, Int.le_min, forall_prop_of_true hhead, ← and_assoc,
          and_comm (a := x ≤ m)]

theorem latestCycle_spec (h : g.Fits cycle ii) (v : Fin n) :
    ∃ m, g.latestCycle (placed cycle) {} ii v = .ok m ∧ ∀ x : Int, x ≤ m ↔ x ≤ 2 ^ 31 - 1 ∧
      ∀ c ∈ g.outEdges v, c.head ≠ v →
        x ≤ cycle c.head - (g.shape c).latestLatency + c.edge.distance ii := by
  apply latestLoop_spec h
  intro c hc
  obtain ⟨hmem, htail⟩ := List.mem_filter.1 hc
  exact ⟨hmem, of_decide_eq_true htail⟩

end Bounds

section Agreement

/-- Every node is at or after its earliest cycle. -/
def AtOrAfter (g : DataDependenceGraph n) (cycle : Fin n → Nat) (ii : Nat) : Prop :=
  ∀ v, ∃ m, g.earliestCycle (placed cycle) {} ii v = .ok m ∧ m ≤ cycle v

/-- Every node is at or before its latest cycle. -/
def AtOrBefore (g : DataDependenceGraph n) (cycle : Fin n → Nat) (ii : Nat) : Prop :=
  ∀ v, ∃ m, g.latestCycle (placed cycle) {} ii v = .ok m ∧ cycle v ≤ m

/-- The ends of every edge are as far apart as its latency. -/
def Apart (g : DataDependenceGraph n) (cycle : Fin n → Nat) (ii : Nat) : Prop :=
  ∀ c ∈ g.connections, c.tail ≠ c.head → ∃ latency : Int,
    g.edgeLatency c ii (some (g.node c.tail)) (some (g.node c.head)) = .ok latency ∧
      cycle c.tail + latency ≤ cycle c.head

/-- Scheduling from the top and from the bottom obey the same constraints. -/
def Agrees (g : DataDependenceGraph n) (cycle : Fin n → Nat) (ii : Nat) : Prop :=
  (g.AtOrAfter cycle ii ↔ g.AtOrBefore cycle ii) ∧ (g.AtOrAfter cycle ii ↔ g.Apart cycle ii)

/-- The constraints of all edges for some choice of their latencies. -/
def Meets (g : DataDependenceGraph n) (cycle : Fin n → Nat) (ii : Nat) (latency : Shape → Int) :
    Prop :=
  ∀ c ∈ g.connections, c.tail ≠ c.head →
    cycle c.tail + latency (g.shape c) - c.edge.distance ii ≤ cycle c.head

theorem atOrAfter_iff (h : g.Fits cycle ii) :
    g.AtOrAfter cycle ii ↔ g.Meets cycle ii Shape.earliestLatency := by
  constructor
  · intro hall c hc hne
    obtain ⟨m, hm, hle⟩ := hall c.head
    obtain ⟨m', hm', hx⟩ := earliestCycle_spec h c.head
    rw [hm] at hm'
    cases hm'
    have hmem : c ∈ g.inEdges c.head := List.mem_filter.2 ⟨hc, decide_eq_true rfl⟩
    exact ((hx _).1 hle).2 c hmem hne
  · intro hmeets v
    obtain ⟨m, hm, hx⟩ := earliestCycle_spec h v
    refine ⟨m, hm, (hx _).2 ⟨Int.natCast_nonneg _, fun c hc hne => ?_⟩⟩
    obtain ⟨hmem, hhead⟩ := List.mem_filter.1 hc
    have hhead : c.head = v := of_decide_eq_true hhead
    subst hhead
    exact hmeets c hmem hne

theorem atOrBefore_iff (h : g.Fits cycle ii) :
    g.AtOrBefore cycle ii ↔ g.Meets cycle ii Shape.latestLatency := by
  constructor
  · intro hall c hc hne
    obtain ⟨m, hm, hle⟩ := hall c.tail
    obtain ⟨m', hm', hx⟩ := latestCycle_spec h c.tail
    rw [hm] at hm'
    cases hm'
    have hmem : c ∈ g.outEdges c.tail := List.mem_filter.2 ⟨hc, decide_eq_true rfl⟩
    have hedge := ((hx _).1 hle).2 c hmem (Ne.symm hne)
    omega
  · intro hmeets v
    obtain ⟨m, hm, hx⟩ := latestCycle_spec h v
    have hlt := h.cycle_lt v
    refine ⟨m, hm, (hx _).2 ⟨by omega, fun c hc hne => ?_⟩⟩
    obtain ⟨hmem, htail⟩ := List.mem_filter.1 hc
    have htail : c.tail = v := of_decide_eq_true htail
    subst htail
    have hedge := hmeets c hmem (Ne.symm hne)
    omega

theorem apart_iff (h : g.Fits cycle ii) :
    g.Apart cycle ii ↔ g.Meets cycle ii Shape.edgeLatency := by
  have heq : ∀ c ∈ g.connections, c.tail ≠ c.head →
      g.edgeLatency c ii (some (g.node c.tail)) (some (g.node c.head)) =
        .ok ((g.shape c).edgeLatency - c.edge.distance ii) := by
    intro c hc hne
    have hlt := h.tail_lt c hc hne
    exact edgeLatency_eq (by omega)
  constructor
  · intro hall c hc hne
    obtain ⟨latency, hok, hle⟩ := hall c hc hne
    rw [heq c hc hne] at hok
    cases hok
    omega
  · intro hmeets c hc hne
    have hedge := hmeets c hc hne
    exact ⟨_, heq c hc hne, by omega⟩

theorem agrees_iff (h : g.Fits cycle ii) : g.Agrees cycle ii ↔
    (g.Meets cycle ii Shape.earliestLatency ↔ g.Meets cycle ii Shape.latestLatency) ∧
      (g.Meets cycle ii Shape.earliestLatency ↔ g.Meets cycle ii Shape.edgeLatency) := by
  rw [Agrees, atOrAfter_iff h, atOrBefore_iff h, apart_iff h]

theorem meets_congr {latency latency' : Shape → Int} (h : ∀ c ∈ g.connections, c.tail ≠ c.head →
    latency (g.shape c) = latency' (g.shape c)) :
    g.Meets cycle ii latency ↔ g.Meets cycle ii latency' := by
  constructor
  · intro hmeets c hc hne
    rw [← h c hc hne]
    exact hmeets c hc hne
  · intro hmeets c hc hne
    rw [h c hc hne]
    exact hmeets c hc hne

theorem agrees_of_regular (h : g.Fits cycle ii)
    (hregular : ∀ c ∈ g.connections, c.tail ≠ c.head → (g.shape c).Regular) :
    g.Agrees cycle ii := by
  rw [agrees_iff h]
  constructor
  · exact meets_congr fun c hc hne => (Shape.regular_iff.1 (hregular c hc hne)).1
  · exact meets_congr fun c hc hne => (Shape.regular_iff.1 (hregular c hc hne)).2

end Agreement

section Single

/-- The graph of one edge. -/
def single (σ : Shape) : DataDependenceGraph 2 where
  delaySlots := σ.delaySlots
  operationLatencies := σ.operationLatencies
  node v := if v.val = 0 then σ.tail else σ.head
  connections := [⟨⟨0, Nat.zero_lt_two⟩, σ.edge, ⟨1, Nat.one_lt_two⟩⟩]

theorem shape_single {c : Connection 2} (σ : Shape) (hc : c ∈ (single σ).connections) :
    (single σ).shape c = σ := by
  cases List.mem_singleton.1 hc
  rfl

/-- The head comes so many cycles after the tail, but for the loop distance. -/
def apartBy (σ : Shape) (m : Int) : Fin 2 → Nat :=
  fun v => if v.val = 0 then (σ.edge.loopDepth.val - m).toNat else (m - σ.edge.loopDepth.val).toNat

theorem fits_single (hσ : σ.reach < 2 ^ 29) (hm : m.natAbs ≤ σ.reach) :
    (single σ).Fits (apartBy σ m) 1 := by
  have hdepth := σ.edge.loopDepth.isLt
  have hlt (v : Fin 2) : apartBy σ m v ≤ σ.reach + 255 := by
    rw [apartBy]
    split <;> omega
  have hdistance : σ.edge.distance 1 = σ.edge.loopDepth.val := Nat.one_mul _
  constructor
  · intro v
    have := hlt v
    omega
  · exact fun h => absurd h (by decide)
  · intro c hc _
    rw [shape_single σ hc]
    exact hσ
  · intro c hc _
    have := hlt c.tail
    rw [shape_single σ hc]
    cases List.mem_singleton.1 hc
    rw [hdistance]
    omega
  · intro c hc _
    have := hlt c.head
    rw [shape_single σ hc]
    cases List.mem_singleton.1 hc
    rw [hdistance]
    omega

theorem meets_single {latency : Shape → Int} :
    (single σ).Meets (apartBy σ m) 1 latency ↔ latency σ ≤ m := by
  have hdistance : σ.edge.distance 1 = σ.edge.loopDepth.val := Nat.one_mul _
  have htail : apartBy σ m 0 = (σ.edge.loopDepth.val - m).toNat := rfl
  have hhead : apartBy σ m 1 = (m - σ.edge.loopDepth.val).toNat := rfl
  have hiff : (apartBy σ m 0 : Int) + latency σ - σ.edge.distance 1 ≤ apartBy σ m 1 ↔
      latency σ ≤ m := by
    rw [hdistance, htail, hhead]
    omega
  rw [← hiff]
  constructor
  · intro h
    exact h ⟨0, σ.edge, 1⟩ List.mem_cons_self Fin.zero_ne_one
  · intro h c hc _
    cases List.mem_singleton.1 hc
    exact h

/-- Two latencies that part no placement of the edge are the same. -/
theorem eq_of_meets {latency latency' : Shape → Int}
    (h : ∀ m : Int, m.natAbs ≤ σ.reach → ((single σ).Meets (apartBy σ m) 1 latency ↔
      (single σ).Meets (apartBy σ m) 1 latency'))
    (hle : (latency σ).natAbs ≤ σ.reach) (hle' : (latency' σ).natAbs ≤ σ.reach) :
    latency σ = latency' σ := by
  have h₁ := (h _ hle).1 (meets_single.2 (Int.le_refl _))
  have h₂ := (h _ hle').2 (meets_single.2 (Int.le_refl _))
  rw [meets_single] at h₁ h₂
  omega

end Single

/-- For a kind of edges, the graphs made of them agree at all placements if and only if the edges
are regular. -/
theorem schedulesAgree_iff (K : Shape → Prop) :
    (∀ n (g : DataDependenceGraph n) cycle ii,
      (∀ c ∈ g.connections, c.tail ≠ c.head → K (g.shape c)) → g.Fits cycle ii →
      g.Agrees cycle ii) ↔
    ∀ σ, K σ → σ.reach < 2 ^ 29 → σ.Regular := by
  constructor
  · intro h σ hσ hreach
    have hagrees (m : Int) (hm : m.natAbs ≤ σ.reach) :=
      (agrees_iff (fits_single hreach hm)).1 (h 2 (single σ) (apartBy σ m) 1
        (fun c hc _ => (shape_single σ hc).symm ▸ hσ) (fits_single hreach hm))
    rw [Shape.regular_iff]
    constructor
    · exact eq_of_meets (fun m hm => (hagrees m hm).1) σ.natAbs_earliestLatency
        σ.natAbs_latestLatency
    · exact eq_of_meets (fun m hm => (hagrees m hm).2) σ.natAbs_earliestLatency
        σ.natAbs_edgeLatency
  · intro h n g cycle ii hK hfits
    exact agrees_of_regular hfits fun c hc hne => h _ (hK c hc hne) (hfits.reach_lt c hc hne)

theorem loopDepths_pos : 0 < 256 := Nat.succ_pos 255

/-- A register that is read by a call, which may be as many cycles earlier as it has delay slots. -/
def parameter : Shape :=
  ⟨2, [], ⟨none, [], 0⟩, ⟨.register, .raw, "RF.1", false, false, true, ⟨0, loopDepths_pos⟩⟩,
    ⟨none, [], 0⟩⟩

/-- Two cycles earlier is early enough, but for `edgeLatency`. -/
theorem not_agrees_parameter : ¬(single parameter).Agrees (apartBy parameter (-2)) 1 := by
  rw [agrees_iff (fits_single (by decide) (by decide)), meets_single, meets_single, meets_single]
  decide

end DataDependenceGraph

end DDG

end OpenAsip
