import OpenAsip.ExecutionPipelineSteps

namespace OpenAsip
set_option autoImplicit true

namespace MOM
open ConflictDetection (isValidComponentName)

namespace Use

def Valid : Use → Prop
  | .resource name => isValidComponentName name = true
  | .read operand => 1 ≤ operand
  | .write operand => 1 ≤ operand

/-- The use of an operand in the other direction. -/
def opposite : Use → Option Use
  | .resource _ => none
  | .read operand => some (.write operand)
  | .write operand => some (.read operand)

end Use

namespace ExecutionPipeline
variable {p q : ExecutionPipeline} {k : Use} {start stop : Nat}

/-- What every pipeline keeps to. -/
structure Sound (p : ExecutionPipeline) : Prop where
  inTime : p.InTime
  direction : ∀ k k' c c', k.opposite = some k' → p.Uses k c → ¬ p.Uses k' c'
  trimmed : p.Trimmed
  latency_lt : p.latency < 2 ^ 31
  valid : ∀ k c, p.Uses k c → k.Valid

/-- A use may be added. -/
structure Accepts (p : ExecutionPipeline) (k : Use) (start stop : Nat) : Prop where
  lt : start < stop
  stop_lt : stop < 2 ^ 31
  valid : k.Valid
  early : k.Starts → start ≤ 1 ∨ p.Early
  direction : ∀ k' c, k.opposite = some k' → ¬ p.Uses k' c

theorem opposite_comm {k k' : Use} (h : k.opposite = some k') : k'.opposite = some k := by
  cases k with
  | resource name => cases h
  | read operand =>
    cases h
    rfl
  | write operand =>
    cases h
    rfl

theorem not_uses_new (k : Use) (c : Nat) : ¬ Uses ⟨[]⟩ k c := by
  intro h
  exact Nat.not_lt_zero c h.lt_latency

theorem sound_new : Sound ⟨[]⟩ := by
  constructor
  · rintro c ⟨k, _, hk⟩
    exact (not_uses_new k c hk).elim
  · intro k k' c c' _ hk _
    exact not_uses_new k c hk
  · intro c hc
    cases hc
  · exact Nat.two_pow_pos 31
  · intro k c hk
    exact (not_uses_new k c hk).elim

theorem Added.early (ha : Added p q k start stop) (h : p.Early) : q.Early := by
  obtain ⟨c, hc, hstarts⟩ := h
  exact ⟨c, hc, hstarts.mono fun k' hk' => (ha.uses k' c).2 (.inl hk')⟩

theorem Sound.added (h : p.Sound) (haccepts : p.Accepts k start stop)
    (ha : Added p q k start stop) : q.Sound := by
  constructor
  · rintro c ⟨k', hk', huses⟩
    rcases (ha.uses k' c).1 huses with hold | ⟨rfl, hge, hlt⟩
    · exact ha.early (h.inTime c ⟨k', hk', hold⟩)
    · rcases haccepts.early hk' with hfirst | hearly
      · exact ⟨start, hfirst, k', hk',
          (ha.uses k' start).2 (.inr ⟨rfl, Nat.le_refl start, haccepts.lt⟩)⟩
      · exact ha.early hearly
  · intro k' k'' c c' hopposite huses huses'
    rcases (ha.uses k' c).1 huses with hold | ⟨rfl, _, _⟩
    · rcases (ha.uses k'' c').1 huses' with hold' | ⟨rfl, _, _⟩
      · exact h.direction k' k'' c c' hopposite hold hold'
      · exact haccepts.direction k' c (opposite_comm hopposite) hold
    · rcases (ha.uses k'' c').1 huses' with hold' | ⟨rfl, _, _⟩
      · exact haccepts.direction k'' c' hopposite hold'
      · cases k'' with
        | resource name => cases hopposite
        | read operand => cases hopposite
        | write operand => cases hopposite
  · exact ha.trimmed
  · have hstop := haccepts.stop_lt
    have hlatency := h.latency_lt
    have hle := ha.latency
    omega
  · intro k' c huses
    rcases (ha.uses k' c).1 huses with hold | ⟨rfl, _, _⟩
    · exact h.valid k' c hold
    · exact haccepts.valid

theorem Sound.removed {gone : Use → Nat → Prop} (h : p.Sound) (hr : Removed p q gone)
    (hq : q.InTime) : q.Sound := by
  constructor
  · exact hq
  · intro k k' c c' hopposite huses huses'
    exact h.direction k k' c c' hopposite ((hr.uses k c).1 huses).1 ((hr.uses k' c').1 huses').1
  · exact hr.trimmed
  · exact Nat.lt_of_le_of_lt hr.latency_le h.latency_lt
  · intro k c huses
    exact h.valid k c ((hr.uses k c).1 huses).1

end ExecutionPipeline

namespace PipelineUnit
open ExecutionPipeline
variable {fu fu' : PipelineUnit n} {i : Fin n}

/-- The pipeline elements are those that are used. -/
structure Exact (fu : PipelineUnit n) : Prop where
  nodup : fu.elements.Nodup
  mem_iff : ∀ name, name ∈ fu.elements ↔ ∃ i c, (fu.pipelines i).Uses (.resource name) c

structure Inv (fu : PipelineUnit n) : Prop where
  sound : ∀ i, (fu.pipelines i).Sound
  exact : fu.Exact

theorem inv_new (n : Nat) : Inv (new n) := by
  constructor
  · intro i
    exact sound_new
  · constructor
    · exact List.nodup_nil
    · intro name
      constructor
      · intro h
        cases h
      · rintro ⟨i, c, h⟩
        exact (not_uses_new _ c h).elim

@[simp] theorem setPipeline_same (fu : PipelineUnit n) (i : Fin n) (p : ExecutionPipeline) :
    (fu.setPipeline i p).pipelines i = p := Function.update_self ..

theorem setPipeline_of_ne (fu : PipelineUnit n) (p : ExecutionPipeline) (h : j ≠ i) :
    (fu.setPipeline i p).pipelines j = fu.pipelines j := Function.update_of_ne h ..

/-- The elements of the unit when a use has been added. -/
def elementsWith (fu : PipelineUnit n) : Use → List String
  | .resource name => if name ∈ fu.elements then fu.elements else fu.elements ++ [name]
  | .read _ => fu.elements
  | .write _ => fu.elements

theorem mem_elementsWith : name ∈ fu.elementsWith k ↔ name ∈ fu.elements ∨ k = .resource name := by
  cases k with
  | resource name' =>
    rw [elementsWith, Use.resource.injEq]
    split
    · rename_i hmem
      constructor
      · exact .inl
      · rintro (h | rfl)
        · exact h
        · exact hmem
    · rw [List.mem_append, List.mem_singleton, eq_comm (a := name)]
  | read operand => simp [elementsWith]
  | write operand => simp [elementsWith]

theorem nodup_elementsWith (h : fu.elements.Nodup) (k : Use) : (fu.elementsWith k).Nodup := by
  cases k with
  | resource name =>
    rw [elementsWith]
    split
    · exact h
    · rename_i hnew
      rw [← List.concat_eq_append]
      exact h.concat hnew
  | read operand => exact h
  | write operand => exact h

/-- A use has been added to a pipeline of the unit. -/
structure AddsUse (fu fu' : PipelineUnit n) (i : Fin n) (k : Use) (start stop : Nat) : Prop where
  added : Added (fu.pipelines i) (fu'.pipelines i) k start stop
  others : ∀ j, j ≠ i → fu'.pipelines j = fu.pipelines j
  elements : fu'.elements = fu.elementsWith k

theorem Inv.adds (h : fu.Inv) (haccepts : (fu.pipelines i).Accepts k start stop)
    (ha : AddsUse fu fu' i k start stop) : fu'.Inv := by
  constructor
  · intro j
    by_cases hj : j = i
    · subst hj
      exact (h.sound j).added haccepts ha.added
    · rw [ha.others j hj]
      exact h.sound j
  · constructor
    · rw [ha.elements]
      exact nodup_elementsWith h.exact.nodup k
    · intro name
      rw [ha.elements, mem_elementsWith, h.exact.mem_iff]
      constructor
      · rintro (⟨j, c, hc⟩ | rfl)
        · refine ⟨j, c, ?_⟩
          by_cases hj : j = i
          · subst hj
            exact (ha.added.uses _ c).2 (.inl hc)
          · rw [ha.others j hj]
            exact hc
        · exact ⟨i, start,
            (ha.added.uses _ start).2 (.inr ⟨rfl, Nat.le_refl start, haccepts.lt⟩)⟩
      · rintro ⟨j, c, hc⟩
        by_cases hj : j = i
        · subst hj
          rcases (ha.added.uses _ c).1 hc with hold | ⟨hk, _, _⟩
          · exact .inl ⟨j, c, hold⟩
          · exact .inr hk.symm
        · rw [ha.others j hj] at hc
          exact .inl ⟨j, c, hc⟩

section Adding
variable {start duration : Int} {name : String} {operand : Int}

theorem stopCycle_ok (h : start + duration < 2 ^ 31) :
    stopCycle start duration = .ok (start + duration).toNat := if_pos h

theorem checkDuration_ok : checkDuration duration = .ok () ↔ 1 ≤ duration := by
  rw [checkDuration, Except.check_ok, and_iff_left rfl, Int.not_lt]

theorem checkResourceName_ok :
    checkResourceName name = .ok () ↔ isValidComponentName name = true := by
  rw [checkResourceName]
  split
  · rename_i hvalid
    exact iff_of_true rfl hvalid
  · rename_i hinvalid
    exact iff_of_false nofun hinvalid

theorem checkInputOperand_ok {p : ExecutionPipeline} :
    p.checkInputOperand operand = .ok () ↔ 1 ≤ operand ∧ ∀ c, ¬ p.Uses (.write operand) c := by
  rw [checkInputOperand, Except.check_ok, Except.check_ok, and_iff_left rfl, Int.not_lt,
    isOperandWritten_iff, not_exists]

theorem checkOutputOperand_ok {p : ExecutionPipeline} :
    p.checkOutputOperand operand = .ok () ↔ 1 ≤ operand ∧ ∀ c, ¬ p.Uses (.read operand) c := by
  rw [checkOutputOperand, Except.check_ok, Except.check_ok, and_iff_left rfl, Int.not_lt,
    isOperandRead_iff, not_exists]

theorem setPipeline_adds (fu : PipelineUnit n) {q : ExecutionPipeline} (h : Added (fu.pipelines i) q k start' stop') :
    AddsUse fu ((⟨fu.elementsWith k, fu.pipelines⟩ : PipelineUnit n).setPipeline i q) i k
      start' stop' := by
  constructor
  · rw [setPipeline_same]
    exact h
  · intro j hj
    exact setPipeline_of_ne _ q hj
  · rfl

theorem internalAddResourceUse_ok (fu : PipelineUnit n) (i : Fin n) (name : String)
    (hstart : 0 ≤ start) (hduration : 1 ≤ duration) (hsum : start + duration < 2 ^ 31) :
    ∃ fu', fu.internalAddResourceUse i name start duration = .ok fu' ∧
      AddsUse fu fu' i (.resource name) start.toNat (start + duration).toNat := by
  rw [internalAddResourceUse, stopCycle_ok hsum]
  exact ⟨_, rfl, setPipeline_adds fu (added_adjusted (adds_resource name) (by omega))⟩

theorem internalAddPortUse_ok (fu : PipelineUnit n) (i : Fin n)
    {add : CycleUsage → CycleUsage} (hadd : Adds add k) (hk : fu.elementsWith k = fu.elements) (hp : (fu.pipelines i).Trimmed) (hstart : 0 ≤ start)
    (hduration : 1 ≤ duration) (hsum : start + duration < 2 ^ 31) :
    ∃ fu', fu.internalAddPortUse i start duration add = .ok fu' ∧
      AddsUse fu fu' i k start.toNat (start + duration).toNat := by
  rw [internalAddPortUse, stopCycle_ok hsum]
  have hlt : start.toNat < (start + duration).toNat := by omega
  have hadds := setPipeline_adds fu (added_stretched hadd hlt hp)
  rw [hk] at hadds
  exact ⟨_, rfl, hadds⟩

theorem checkResourceAvailability_ok (elements : List String) {p : ExecutionPipeline}
    (hsum : start + duration < 2 ^ 31) (hfree : ∀ c, start.toNat ≤ c →
      c < (start + duration).toNat → ¬ p.Uses (.resource name) c) :
    checkResourceAvailability elements p name start duration = .ok () := by
  rw [checkResourceAvailability]
  split
  · rfl
  · rw [stopCycle_ok hsum]
    change (if _ then _ else _) = _
    rw [Except.check_ok, and_iff_left rfl, anyCycle_iff rfl]
    rintro ⟨c, hge, hlt, hused⟩
    rw [decide_eq_true_iff] at hused
    exact hfree c hge hlt hused

theorem checkOperandAvailability_ok {p : ExecutionPipeline} (hsum : start + duration < 2 ^ 31)
    (hfree : ∀ c, start.toNat ≤ c → c < (start + duration).toNat →
      ¬ p.Uses (.read operand) c ∧ ¬ p.Uses (.write operand) c) :
    p.checkOperandAvailability operand start duration = .ok () := by
  rw [checkOperandAvailability, stopCycle_ok hsum]
  change (if _ then _ else _) = _
  rw [Except.check_ok, and_iff_left rfl, anyCycle_iff rfl]
  rintro ⟨c, hge, hlt, hused⟩
  obtain ⟨hread, hwrite⟩ := hfree c hge hlt
  rcases of_decide_eq_true hused with h | h
  · exact hread h
  · exact hwrite h

/-- The checks of the calls that add, up to the first one that adds the start and the duration. -/
def AddChecks (fu : PipelineUnit n) (i : Fin n) (k : Use) (start duration : Int) : Prop :=
  0 ≤ start ∧ 1 ≤ duration ∧ k.Valid ∧ (k.Starts → start ≤ 1 ∨ (fu.pipelines i).Early) ∧
    ∀ k' c, k.opposite = some k' → ¬ (fu.pipelines i).Uses k' c

theorem AddChecks.accepts (h : fu.AddChecks i k start duration) (hsum : start + duration < 2 ^ 31) :
    (fu.pipelines i).Accepts k start.toNat (start + duration).toNat := by
  obtain ⟨hstart, hduration, hvalid, hearly, hdirection⟩ := h
  constructor
  · omega
  · omega
  · exact hvalid
  · intro hk
    rcases hearly hk with hfirst | hearly
    · exact .inl (by omega)
    · exact .inr hearly
  · exact hdirection

/-- The call that adds a use. -/
def addUse (fu : PipelineUnit n) (i : Fin n) (k : Use) (start duration : Int) :
    Outcome (PipelineUnit n) :=
  match k with
  | .resource name => fu.addResourceUse i name start duration
  | .read operand => fu.addPortRead i operand start duration
  | .write operand => fu.addPortWrite i operand start duration

theorem stopCycle_lt (h : stopCycle start duration >>= f = .ok a) : start + duration < 2 ^ 31 := by
  obtain ⟨_, hstop, _⟩ := Except.bind_ok h
  rw [stopCycle] at hstop
  split at hstop
  · rename_i hlt
    exact hlt
  · cases hstop

/-- A call that adds a use has passed its checks. -/
theorem addUse_inv (hp : (fu.pipelines i).Trimmed) (h : fu.addUse i k start duration = .ok fu') :
    fu.AddChecks i k start duration ∧ start + duration < 2 ^ 31 ∧
      AddsUse fu fu' i k start.toNat (start + duration).toNat := by
  cases k with
  | resource name =>
    obtain ⟨_, hstart, h⟩ := Except.bind_ok h
    obtain ⟨_, hduration, h⟩ := Except.bind_ok h
    obtain ⟨_, hname, h⟩ := Except.bind_ok h
    obtain ⟨_, _, h⟩ := Except.bind_ok h
    obtain ⟨hstart, hearly⟩ := checkStartCycle_ok.1 hstart
    rw [checkDuration_ok] at hduration
    rw [checkResourceName_ok] at hname
    have hsum := stopCycle_lt h
    obtain ⟨fu'', hok, hadds⟩ := internalAddResourceUse_ok fu i name hstart hduration hsum
    rw [hok] at h
    cases h
    refine ⟨⟨hstart, hduration, hname, fun _ => hearly, ?_⟩, hsum, hadds⟩
    intro k' c hk'
    cases hk'
  | read operand =>
    obtain ⟨_, hstart, h⟩ := Except.bind_ok h
    obtain ⟨_, hduration, h⟩ := Except.bind_ok h
    obtain ⟨_, hoperand, h⟩ := Except.bind_ok h
    obtain ⟨_, _, h⟩ := Except.bind_ok h
    obtain ⟨hstart, hearly⟩ := checkStartCycle_ok.1 hstart
    obtain ⟨hoperand, hdirection⟩ := checkInputOperand_ok.1 hoperand
    rw [checkDuration_ok] at hduration
    have hsum := stopCycle_lt h
    obtain ⟨fu'', hok, hadds⟩ := internalAddPortUse_ok fu i (adds_read operand) rfl hp hstart
      hduration hsum
    rw [hok] at h
    cases h
    refine ⟨⟨hstart, hduration, hoperand, fun _ => hearly, ?_⟩, hsum, hadds⟩
    intro k' c hk'
    cases hk'
    exact hdirection c
  | write operand =>
    obtain ⟨hstart, h⟩ := Except.check_ok.1 h
    obtain ⟨_, hduration, h⟩ := Except.bind_ok h
    obtain ⟨_, hoperand, h⟩ := Except.bind_ok h
    obtain ⟨_, _, h⟩ := Except.bind_ok h
    obtain ⟨hoperand, hdirection⟩ := checkOutputOperand_ok.1 hoperand
    rw [checkDuration_ok] at hduration
    rw [Int.not_lt] at hstart
    have hsum := stopCycle_lt h
    obtain ⟨fu'', hok, hadds⟩ := internalAddPortUse_ok fu i (adds_write operand) rfl hp hstart
      hduration hsum
    rw [hok] at h
    cases h
    refine ⟨⟨hstart, hduration, hoperand, False.elim, ?_⟩, hsum, hadds⟩
    intro k' c hk'
    cases hk'
    exact hdirection c

theorem Inv.addUse (hinv : fu.Inv) (h : fu.addUse i k start duration = .ok fu') : fu'.Inv := by
  obtain ⟨hchecks, hsum, hadds⟩ := addUse_inv (hinv.sound i).trimmed h
  exact hinv.adds (hchecks.accepts hsum) hadds

/-- A use is added in cycles in which the resource or the operand is free. -/
theorem addUse_ok (hp : (fu.pipelines i).Trimmed) (h : fu.AddChecks i k start duration)
    (hsum : start + duration < 2 ^ 31) (hfree : ∀ c, start.toNat ≤ c →
      c < (start + duration).toNat → ¬ (fu.pipelines i).Uses k c) :
    ∃ fu', fu.addUse i k start duration = .ok fu' ∧
      AddsUse fu fu' i k start.toNat (start + duration).toNat := by
  obtain ⟨hstart, hduration, hvalid, hearly, hdirection⟩ := h
  have hcheckDuration := checkDuration_ok.2 hduration
  cases k with
  | resource name =>
    have hcheckStart := checkStartCycle_ok.2 ⟨hstart, hearly trivial⟩
    have hcheckName := checkResourceName_ok.2 hvalid
    have havailable := checkResourceAvailability_ok fu.elements hsum hfree
    rw [PipelineUnit.addUse, addResourceUse, hcheckStart, hcheckDuration, hcheckName]
    change ∃ fu', (checkResourceAvailability fu.elements (fu.pipelines i) name start duration >>=
      fun _ => fu.internalAddResourceUse i name start duration) = .ok fu' ∧ _
    rw [havailable]
    exact internalAddResourceUse_ok fu i name hstart hduration hsum
  | read operand =>
    have hcheckStart := checkStartCycle_ok.2 ⟨hstart, hearly trivial⟩
    have hcheckOperand := checkInputOperand_ok.2 ⟨hvalid, fun c => hdirection _ c rfl⟩
    have havailable := checkOperandAvailability_ok hsum
      fun c hge hlt => ⟨hfree c hge hlt, hdirection _ c rfl⟩
    rw [PipelineUnit.addUse, addPortRead, hcheckStart, hcheckDuration, hcheckOperand]
    change ∃ fu', ((fu.pipelines i).checkOperandAvailability operand start duration >>=
      fun _ => fu.internalAddPortUse i start duration (addRead operand)) = .ok fu' ∧ _
    rw [havailable]
    exact internalAddPortUse_ok fu i (adds_read operand) rfl hp hstart hduration hsum
  | write operand =>
    have hcheckOperand := checkOutputOperand_ok.2 ⟨hvalid, fun c => hdirection _ c rfl⟩
    have havailable := checkOperandAvailability_ok hsum
      fun c hge hlt => ⟨hdirection _ c rfl, hfree c hge hlt⟩
    rw [PipelineUnit.addUse, addPortWrite, if_neg (Int.not_lt.2 hstart), hcheckDuration,
      hcheckOperand]
    change ∃ fu', ((fu.pipelines i).checkOperandAvailability operand start duration >>=
      fun _ => fu.internalAddPortUse i start duration (addWrite operand)) = .ok fu' ∧ _
    rw [havailable]
    exact internalAddPortUse_ok fu i (adds_write operand) rfl hp hstart hduration hsum

theorem checkStartCycle_defined (p : ExecutionPipeline) (start : Int) :
    (p.checkStartCycle start).Defined := by
  rw [checkStartCycle]
  apply Outcome.Defined.ite fun _ => Outcome.defined_exception _
  intro _
  apply Outcome.Defined.ite fun _ => Outcome.defined_ok _
  intro _
  apply Outcome.Defined.ite fun _ => Outcome.defined_exception _
  intro _
  apply Outcome.Defined.ite fun _ => Outcome.defined_exception _
  intro _
  exact Outcome.Defined.ite (fun _ => Outcome.defined_exception _) fun _ => Outcome.defined_ok _

theorem checkDuration_defined (duration : Int) : (checkDuration duration).Defined :=
  Outcome.Defined.ite (fun _ => Outcome.defined_exception _) fun _ => Outcome.defined_ok _

theorem checkResourceName_defined (name : String) : (checkResourceName name).Defined :=
  Outcome.Defined.ite (fun _ => Outcome.defined_ok _) fun _ => Outcome.defined_exception _

theorem checkInputOperand_defined (p : ExecutionPipeline) (operand : Int) :
    (p.checkInputOperand operand).Defined :=
  Outcome.Defined.ite (fun _ => Outcome.defined_exception _) fun _ =>
    Outcome.Defined.ite (fun _ => Outcome.defined_exception _) fun _ => Outcome.defined_ok _

theorem checkOutputOperand_defined (p : ExecutionPipeline) (operand : Int) :
    (p.checkOutputOperand operand).Defined :=
  Outcome.Defined.ite (fun _ => Outcome.defined_exception _) fun _ =>
    Outcome.Defined.ite (fun _ => Outcome.defined_exception _) fun _ => Outcome.defined_ok _

theorem checkResourceAvailability_defined (elements : List String) (p : ExecutionPipeline)
    (hsum : start + duration < 2 ^ 31) :
    (checkResourceAvailability elements p name start duration).Defined := by
  rw [checkResourceAvailability, stopCycle_ok hsum]
  apply Outcome.Defined.ite fun _ => Outcome.defined_ok _
  intro _
  exact Outcome.Defined.ite (fun _ => Outcome.defined_exception _) fun _ => Outcome.defined_ok _

theorem checkOperandAvailability_defined (p : ExecutionPipeline) (operand : Int)
    (hsum : start + duration < 2 ^ 31) :
    (p.checkOperandAvailability operand start duration).Defined := by
  rw [checkOperandAvailability, stopCycle_ok hsum]
  exact Outcome.Defined.ite (fun _ => Outcome.defined_exception _) fun _ => Outcome.defined_ok _

theorem internalAddPortUse_defined (fu : PipelineUnit n) (i : Fin n)
    (add : CycleUsage → CycleUsage) (hsum : start + duration < 2 ^ 31) :
    (fu.internalAddPortUse i start duration add).Defined := by
  rw [internalAddPortUse, stopCycle_ok hsum]
  exact Outcome.defined_ok _

/-- Adding is undefined only for a sum that is no `int`. -/
theorem addUse_defined (hfits : fu.AddChecks i k start duration → start + duration < 2 ^ 31) :
    (fu.addUse i k start duration).Defined := by
  cases k with
  | resource name =>
    apply (checkStartCycle_defined _ _).bind
    intro _ hstart
    apply (checkDuration_defined _).bind
    intro _ hduration
    apply (checkResourceName_defined _).bind
    intro _ hname
    obtain ⟨hstart, hearly⟩ := checkStartCycle_ok.1 hstart
    have hsum := hfits ⟨hstart, checkDuration_ok.1 hduration, checkResourceName_ok.1 hname,
      fun _ => hearly, fun k' c hk' => by cases hk'⟩
    apply (checkResourceAvailability_defined _ _ hsum).bind
    intro _ _
    rw [internalAddResourceUse, stopCycle_ok hsum]
    exact Outcome.defined_ok _
  | read operand =>
    apply (checkStartCycle_defined _ _).bind
    intro _ hstart
    apply (checkDuration_defined _).bind
    intro _ hduration
    apply (checkInputOperand_defined _ _).bind
    intro _ hoperand
    obtain ⟨hstart, hearly⟩ := checkStartCycle_ok.1 hstart
    obtain ⟨hoperand, hdirection⟩ := checkInputOperand_ok.1 hoperand
    have hsum := hfits ⟨hstart, checkDuration_ok.1 hduration, hoperand, fun _ => hearly,
      fun k' c hk' => by cases hk'; exact hdirection c⟩
    apply (checkOperandAvailability_defined _ _ hsum).bind
    intro _ _
    exact internalAddPortUse_defined _ _ _ hsum
  | write operand =>
    apply Outcome.Defined.ite fun _ => Outcome.defined_exception _
    intro hstart
    apply (checkDuration_defined _).bind
    intro _ hduration
    apply (checkOutputOperand_defined _ _).bind
    intro _ hoperand
    obtain ⟨hoperand, hdirection⟩ := checkOutputOperand_ok.1 hoperand
    have hsum := hfits ⟨Int.not_lt.1 hstart, checkDuration_ok.1 hduration, hoperand, False.elim,
      fun k' c hk' => by cases hk'; exact hdirection c⟩
    apply (checkOperandAvailability_defined _ _ hsum).bind
    intro _ _
    exact internalAddPortUse_defined _ _ _ hsum

end Adding

section Removing
variable {name : String} {pending : List String} {gone : Use → Nat → Prop} {q : ExecutionPipeline}
  {cycle : Nat}

/-- The elements are those that are used and some that are to be cleaned up. -/
structure ExactBut (fu : PipelineUnit n) (pending : List String) : Prop where
  nodup : fu.elements.Nodup
  used : ∀ name i c, (fu.pipelines i).Uses (.resource name) c → name ∈ fu.elements
  mem : ∀ name ∈ fu.elements, name ∈ pending ∨
    ∃ i c, (fu.pipelines i).Uses (.resource name) c

theorem ExactBut.exact (h : fu.ExactBut []) : fu.Exact := by
  constructor
  · exact h.nodup
  · intro name
    constructor
    · intro hmem
      exact (h.mem name hmem).resolve_left List.not_mem_nil
    · rintro ⟨i, c, hc⟩
      exact h.used name i c hc

theorem isUsed_iff : fu.isUsed name = true ↔ ∃ i c, (fu.pipelines i).Uses (.resource name) c := by
  rw [isUsed, List.any_eq_true]
  apply exists_congr
  intro i
  rw [and_iff_right (List.mem_finRange i), List.any_eq_true]
  constructor
  · rintro ⟨u, hu, hmem⟩
    obtain ⟨c, hc, rfl⟩ := List.getElem_of_mem hu
    rw [decide_eq_true_iff, ← usageAt_eq (List.getElem?_eq_getElem hc)] at hmem
    exact ⟨c, hmem⟩
  · rintro ⟨c, hc⟩
    refine ⟨(fu.pipelines i).usageAt c, usageAt_mem hc.lt_latency, ?_⟩
    rw [decide_eq_true_iff]
    exact hc

theorem cleanup_pipelines (fu : PipelineUnit n) (name : String) :
    (fu.cleanup name).pipelines = fu.pipelines := by
  rw [cleanup]
  split
  · rfl
  · split
    · rfl
    · rfl

theorem ExactBut.cleanup (h : fu.ExactBut (name :: pending)) :
    (fu.cleanup name).ExactBut pending := by
  have hrest : ∀ name' ∈ fu.elements, name' ≠ name → name' ∈ pending ∨
      ∃ i c, (fu.pipelines i).Uses (.resource name') c := by
    intro name' hmem hne
    rcases h.mem name' hmem with hpending | hused
    · exact .inl ((List.mem_cons.1 hpending).resolve_left hne)
    · exact .inr hused
  rw [PipelineUnit.cleanup]
  split
  · rename_i hnone
    refine ⟨h.nodup, h.used, fun name' hmem => hrest name' hmem ?_⟩
    rintro rfl
    exact hnone hmem
  · split
    · rename_i hused
      refine ⟨h.nodup, h.used, fun name' hmem => ?_⟩
      by_cases hname : name' = name
      · subst hname
        exact .inr (isUsed_iff.1 hused)
      · exact hrest name' hmem hname
    · rename_i hunused
      constructor
      · exact h.nodup.erase name
      · intro name' i c hc
        rw [h.nodup.mem_erase_iff]
        refine ⟨?_, h.used name' i c hc⟩
        rintro rfl
        exact hunused (isUsed_iff.2 ⟨i, c, hc⟩)
      · intro name' hmem
        obtain ⟨hne, hmem⟩ := h.nodup.mem_erase_iff.1 hmem
        exact hrest name' hmem hne

theorem foldl_cleanup_pipelines (names : List String) (fu : PipelineUnit n) :
    (names.foldl PipelineUnit.cleanup fu).pipelines = fu.pipelines := by
  induction names generalizing fu with
  | nil => rfl
  | cons name names ih =>
    rw [List.foldl_cons, ih, cleanup_pipelines]

theorem ExactBut.foldl (names : List String) {fu : PipelineUnit n} (h : fu.ExactBut names) :
    (names.foldl PipelineUnit.cleanup fu).Exact := by
  induction names generalizing fu with
  | nil => exact h.exact
  | cons name names ih => exact ih h.cleanup

/-- Elements may become unused when uses are removed from a pipeline. -/
theorem Inv.removed (h : fu.Inv) (hr : Removed (fu.pipelines i) q gone)
    (hgone : ∀ name c, gone (.resource name) c → (fu.pipelines i).Uses (.resource name) c →
      name ∈ pending) :
    (fu.setPipeline i q).ExactBut pending := by
  constructor
  · exact h.exact.nodup
  · intro name j c hc
    by_cases hj : j = i
    · subst hj
      rw [setPipeline_same, hr.uses] at hc
      exact (h.exact.mem_iff name).2 ⟨j, c, hc.1⟩
    · rw [setPipeline_of_ne _ _ hj] at hc
      exact (h.exact.mem_iff name).2 ⟨j, c, hc⟩
  · intro name hmem
    obtain ⟨j, c, hc⟩ := (h.exact.mem_iff name).1 hmem
    by_cases hj : j = i
    · subst hj
      by_cases hout : gone (.resource name) c
      · exact .inl (hgone name c hout hc)
      · refine .inr ⟨j, c, ?_⟩
        rw [setPipeline_same, hr.uses]
        exact ⟨hc, hout⟩
    · refine .inr ⟨j, c, ?_⟩
      rw [setPipeline_of_ne _ _ hj]
      exact hc

theorem Inv.sound_setPipeline (h : fu.Inv) (hq : q.Sound) (j : Fin n) :
    ((fu.setPipeline i q).pipelines j).Sound := by
  by_cases hj : j = i
  · subst hj
    rw [setPipeline_same]
    exact hq
  · rw [setPipeline_of_ne _ _ hj]
    exact h.sound j

/-- A removed resource is cleaned up in the unit. -/
theorem Inv.removeResource (h : fu.Inv) (hr : Removed (fu.pipelines i) q gone)
    (hgone : ∀ k c, gone k c → k = .resource name) (hq : q.InTime) :
    ((fu.setPipeline i q).cleanup name).Inv := by
  have hsound := (h.sound i).removed hr hq
  constructor
  · intro j
    rw [cleanup_pipelines]
    exact h.sound_setPipeline hsound j
  · apply ExactBut.exact
    apply ExactBut.cleanup
    apply h.removed hr
    intro name' c hout _
    rw [Use.resource.inj (hgone _ c hout)]
    exact List.mem_cons_self

theorem startsWithout_empty (name : String) : startsWithout name .empty = false := by
  simp [startsWithout, CycleUsage.empty]

theorem inTime_removeResource {p : ExecutionPipeline}
    (hr : Removed p q fun k c => k = .resource name ∧ 0 ≤ c ∧ c < 0 + p.latency)
    (hlate : isTooLate (p.usage.findIdx? (startsWithout name)) = false) : q.InTime := by
  have hwithout : ∀ c, q.StartsIn c ↔ startsWithout name (p.usageAt c) = true := by
    intro c
    rw [startsWithout_iff]
    apply exists_congr
    intro k
    rw [hr.uses, Uses]
    apply and_congr_right
    intro _
    apply and_congr_right
    intro huses
    have hlt : c < p.latency := Uses.lt_latency huses
    rw [Nat.zero_add, and_iff_left ⟨Nat.zero_le c, hlt⟩]
  intro c hc
  rw [hwithout] at hc
  obtain ⟨c', hc', hstarts⟩ := early_of_findIdx (startsWithout_empty name) hlate hc
  exact ⟨c', hc', (hwithout c').2 hstarts⟩

theorem removeResourceUse_inv (h : fu.Inv) (hok : fu.removeResourceUse i name = .ok fu') :
    fu'.Inv := by
  rw [removeResourceUse] at hok
  split at hok
  · cases hok
    exact h
  · rename_i hmem
    obtain ⟨hlate, hok⟩ := Except.check_ok.1 hok
    rw [firstCycleWithoutResource, if_neg hmem, Bool.not_eq_true] at hlate
    cases hok
    rw [internalRemoveResourceUse, if_neg hmem]
    have hr := removed_adjusted (p := fu.pipelines i) (removes_resource name) 0
      (0 + (fu.pipelines i).latency)
    exact h.removeResource hr (fun k c hgone => hgone.1) (inTime_removeResource hr hlate)

theorem inTime_removeResourceAt {p : ExecutionPipeline} {elements : List String} (hp : p.InTime)
    (hr : Removed p q fun k c => k = .resource name ∧ cycle ≤ c ∧ c < cycle + 1)
    (hmem : ¬ name ∉ elements) (hlate : cycle ≤ 1 →
      isTooLate (p.firstCycleWithoutResourceAt elements name cycle) = false) : q.InTime := by
  obtain ⟨hsub, hsame⟩ := hr.startsIn
  apply hp.of_first hsub hsame
  intro hfirst
  obtain ⟨hstarts, hleast⟩ := firstCycle_some hfirst
  obtain ⟨early, hearly, hearlyStarts⟩ := hp cycle hstarts
  have hchecked := hlate ((hleast early hearlyStarts).trans hearly)
  rw [firstCycleWithoutResourceAt, if_neg (fun hne => hne hfirst), if_neg hmem] at hchecked
  split at hchecked
  · rename_i hwithout
    obtain ⟨k, hk, hhas, hne⟩ := startsWithout_iff.1 hwithout
    exact .inl ⟨k, hk, (hr.uses k cycle).2 ⟨hhas, fun hgone => hne hgone.1⟩⟩
  · exact .inr hchecked

theorem removeResourceUseAt_inv {cycle : Int} (h : fu.Inv)
    (hok : fu.removeResourceUseAt i name cycle = .ok fu') : fu'.Inv := by
  rw [removeResourceUseAt] at hok
  split at hok
  · cases hok
    exact h
  · rename_i hmem
    obtain ⟨hneg, hok⟩ := Except.check_ok.1 hok
    split at hok
    · cases hok
      exact h
    · obtain ⟨hlate, hok⟩ := Except.check_ok.1 hok
      cases hok
      rw [internalRemoveResourceUse, if_neg hmem]
      have hr := removed_adjusted (p := fu.pipelines i) (removes_resource name) cycle.toNat
        (cycle.toNat + 1)
      apply h.removeResource hr (fun k c hgone => hgone.1)
      apply inTime_removeResourceAt (h.sound i).inTime hr hmem
      intro hfirst
      rw [← Bool.not_eq_true]
      intro htooLate
      exact hlate ⟨by omega, htooLate⟩

theorem inTime_removeOperand {p : ExecutionPipeline} {operand : Int} (hp : p.InTime)
    (hr : Removed p q fun k c => (k = .read operand ∨ k = .write operand) ∧
      cycle ≤ c ∧ c < cycle + 1)
    (hlate : isTooLate (p.firstCycleWithoutOperandUse operand cycle) = false) : q.InTime := by
  obtain ⟨hsub, hsame⟩ := hr.startsIn
  apply hp.of_first hsub hsame
  intro hfirst
  rw [firstCycleWithoutOperandUse, if_neg (fun hne => hne hfirst)] at hlate
  split at hlate
  · rename_i hother
    obtain ⟨operand', hmem, hne⟩ := exists_other_iff.1 hother
    refine .inl ⟨.read operand', trivial, (hr.uses _ cycle).2 ⟨hmem, ?_⟩⟩
    rintro ⟨hread | hwrite, _⟩
    · exact hne (Use.read.inj hread)
    · cases hwrite
  · split at hlate
    · rename_i hresources
      obtain ⟨name, hname⟩ := Finset.nonempty_iff_ne_empty.2 hresources
      refine .inl ⟨.resource name, trivial, (hr.uses _ cycle).2 ⟨hname, ?_⟩⟩
      rintro ⟨hread | hwrite, _⟩
      · cases hread
      · cases hwrite
    · exact .inr hlate

theorem removeOperandUse_inv {operand cycle : Int} (h : fu.Inv)
    (hok : fu.removeOperandUse i operand cycle = .ok fu') : fu'.Inv := by
  obtain ⟨_, hok⟩ := Except.check_ok.1 hok
  split at hok
  · cases hok
    exact h
  · obtain ⟨hlate, hok⟩ := Except.check_ok.1 hok
    rw [Bool.not_eq_true] at hlate
    cases hok
    have hr := removed_adjusted (p := fu.pipelines i) (removes_operand operand) cycle.toNat
      (cycle.toNat + 1)
    have hsound := (h.sound i).removed hr (inTime_removeOperand (h.sound i).inTime hr hlate)
    constructor
    · exact h.sound_setPipeline hsound
    · apply ExactBut.exact
      apply h.removed hr
      rintro name c ⟨hread | hwrite, _⟩ _
      · cases hread
      · cases hwrite

theorem mem_usedResources {p : ExecutionPipeline} :
    name ∈ p.usedResources ↔ ∃ u ∈ p.usage, name ∈ u.resources := by
  rw [usedResources]
  induction p.usage with
  | nil => simp
  | cons u l ih => rw [List.foldr_cons, Finset.mem_union, ih, List.exists_mem_cons_iff]

theorem removed_all (p : ExecutionPipeline) : Removed p ⟨[]⟩ fun _ _ => True := by
  constructor
  · intro k c
    constructor
    · intro h
      exact (not_uses_new k c h).elim
    · intro h
      exact (h.2 trivial).elim
  · exact sound_new.trimmed

theorem Inv.removeAllResourceUses (h : fu.Inv) (i : Fin n) : (fu.removeAllResourceUses i).Inv := by
  constructor
  · intro j
    rw [PipelineUnit.removeAllResourceUses, foldl_cleanup_pipelines]
    exact h.sound_setPipeline sound_new j
  · apply ExactBut.foldl
    apply h.removed (removed_all (fu.pipelines i))
    intro name c _ hc
    rw [Finset.mem_sort, mem_usedResources]
    exact ⟨_, usageAt_mem hc.lt_latency, hc⟩

theorem removeAllResourceUses_pipelines (fu : PipelineUnit n) (i : Fin n) :
    (fu.removeAllResourceUses i).pipelines = Function.update fu.pipelines i ⟨[]⟩ := by
  rw [PipelineUnit.removeAllResourceUses, foldl_cleanup_pipelines]
  rfl

end Removing

end PipelineUnit
end MOM

end OpenAsip
