import OpenAsip.ExecutionPipelineCalls

namespace OpenAsip
set_option autoImplicit true

namespace MOM

namespace ExecutionPipeline
variable {p : ExecutionPipeline} {k : Use} {c : Nat}

theorem mem_usesOf {uses : CycleUsage → List Use} :
    (k, c) ∈ p.usesOf uses ↔ c < p.latency ∧ k ∈ uses (p.usageAt c) := by
  rw [usesOf, List.mem_flatMap]
  constructor
  · rintro ⟨⟨u, c'⟩, hu, hk⟩
    obtain ⟨k', hk', heq⟩ := List.mem_map.1 hk
    obtain ⟨rfl, rfl⟩ := Prod.mk.inj heq
    rw [List.mk_mem_zipIdx_iff_getElem?] at hu
    rw [usageAt_eq hu]
    exact ⟨(List.getElem?_eq_some_iff.1 hu).1, hk'⟩
  · rintro ⟨hc, hk⟩
    refine ⟨(p.usageAt c, c), ?_, List.mem_map_of_mem hk⟩
    rw [List.mk_mem_zipIdx_iff_getElem?, List.getElem?_eq_getElem hc,
      usageAt_eq (List.getElem?_eq_getElem hc)]

/-- Uses of one key are saved in the order of the cycles. -/
theorem pairwise_usesOf {uses : CycleUsage → List Use} (h : ∀ u, (uses u).Nodup)
    (p : ExecutionPipeline) :
    (p.usesOf uses).Pairwise fun use use' => use.1 = use'.1 → use.2 < use'.2 := by
  rw [usesOf, List.pairwise_flatMap]
  constructor
  · rintro ⟨u, c⟩ _
    rw [List.pairwise_map]
    exact (h u).imp fun hne heq => (hne heq).elim
  · rw [List.pairwise_iff_getElem]
    intro i j hi hj hij use huse use' huse' _
    obtain ⟨_, _, rfl⟩ := List.mem_map.1 huse
    obtain ⟨_, _, rfl⟩ := List.mem_map.1 huse'
    rw [List.getElem_zipIdx, List.getElem_zipIdx]
    exact Nat.add_lt_add_left hij 0

theorem mem_savedUses : (k, c) ∈ p.savedUses ↔ p.Uses k c := by
  have hin : p.Uses k c ↔ c < p.latency ∧ p.Uses k c :=
    (and_iff_right_of_imp fun h => h.lt_latency).symm
  rw [hin, savedUses, List.mem_append, List.mem_append, mem_usesOf, mem_usesOf, mem_usesOf,
    ← and_or_left, ← and_or_left]
  apply and_congr_right
  intro _
  cases k with
  | resource name => simp [Uses, CycleUsage.Has]
  | read operand => simp [Uses, CycleUsage.Has]
  | write operand => simp [Uses, CycleUsage.Has]

theorem pairwise_savedUses (p : ExecutionPipeline) :
    p.savedUses.Pairwise fun use use' => use.1 = use'.1 → use.2 < use'.2 := by
  have hresources := @pairwise_usesOf (fun u => (u.resources.sort fun a b => b ≤ a).map .resource)
    (fun u => (Finset.sort_nodup ..).map fun _ _ h => Use.resource.inj h) p
  have hreads := @pairwise_usesOf (fun u => u.reads.sort.map .read)
    (fun u => (Finset.sort_nodup ..).map fun _ _ h => Use.read.inj h) p
  have hwrites := @pairwise_usesOf (fun u => u.writes.sort.map .write)
    (fun u => (Finset.sort_nodup ..).map fun _ _ h => Use.write.inj h) p
  rw [savedUses, List.pairwise_append, List.pairwise_append]
  refine ⟨⟨hresources, hreads, ?_⟩, hwrites, ?_⟩
  · rintro ⟨k, c⟩ hk ⟨k', c'⟩ hk' heq
    rw [mem_usesOf] at hk hk'
    obtain ⟨name, _, rfl⟩ := List.mem_map.1 hk.2
    obtain ⟨operand, _, rfl⟩ := List.mem_map.1 hk'.2
    cases heq
  · rintro ⟨k, c⟩ hk ⟨k', c'⟩ hk' heq
    rw [mem_usesOf] at hk'
    obtain ⟨operand, _, rfl⟩ := List.mem_map.1 hk'.2
    rcases List.mem_append.1 hk with hk | hk
    · rw [mem_usesOf] at hk
      obtain ⟨name, _, rfl⟩ := List.mem_map.1 hk.2
      cases heq
    · rw [mem_usesOf] at hk
      obtain ⟨operand', _, rfl⟩ := List.mem_map.1 hk.2
      cases heq

/-- The saved ranges cover the uses, each use once. -/
theorem covered_saveState : UseRange.Covered p.saveState k c ↔ p.Uses k c := by
  rw [← mem_savedUses, saveState, UseRange.covered_recordAll]
  apply or_iff_right
  rintro ⟨_, hnil, _⟩
  cases hnil

theorem separate_saveState (p : ExecutionPipeline) : UseRange.Separate p.saveState := by
  apply UseRange.separate_recordAll .nil p.pairwise_savedUses
  rintro use _ c ⟨_, hnil, _⟩
  cases hnil

theorem pos_saveState (p : ExecutionPipeline) : ∀ r ∈ p.saveState, 0 < r.cycles :=
  UseRange.pos_recordAll _ (List.forall_mem_nil _)

end ExecutionPipeline

namespace PipelineUnit
open ExecutionPipeline
variable {fu : PipelineUnit n} {i : Fin n} {p : ExecutionPipeline}

theorem loadUse_eq (fu : PipelineUnit n) (i : Fin n) (range : UseRange Use) :
    fu.loadUse i range = fu.addUse i range.key range.start range.cycles := by
  obtain ⟨key, start, cycles⟩ := range
  cases key with
  | resource name => rfl
  | read operand => rfl
  | write operand => rfl

/-- The unit while the pipeline is loaded: the ranges so far are in use. -/
structure Loading (start fu : PipelineUnit n) (i : Fin n) (loaded : List (UseRange Use)) :
    Prop where
  inv : fu.Inv
  others : ∀ j, j ≠ i → fu.pipelines j = start.pipelines j
  uses : ∀ k c, (fu.pipelines i).Uses k c ↔ UseRange.Covered loaded k c

/-- The next range passes the checks: a use that starts early has been loaded before. -/
theorem Loading.checks {start : PipelineUnit n} {loaded rest : List (UseRange Use)}
    {r : UseRange Use} (h : Loading start fu i loaded) (hp : p.Sound)
    (hcovers : ∀ k c, UseRange.Covered (loaded ++ r :: rest) k c ↔ p.Uses k c)
    (hsorted : (loaded ++ r :: rest).Pairwise fun r r' => r.start ≤ r'.start)
    (hpos : 0 < r.cycles) : fu.AddChecks i r.key r.start r.cycles := by
  have huses : p.Uses r.key r.start :=
    (hcovers _ _).1 ⟨r, List.mem_append_right _ List.mem_cons_self, UseRange.covers_start hpos⟩
  have hloaded : ∀ k c, (fu.pipelines i).Uses k c → p.Uses k c := by
    intro k c hk
    obtain ⟨r', hr', hc⟩ := (h.uses k c).1 hk
    exact (hcovers k c).1 ⟨r', List.mem_append_left _ hr', hc⟩
  refine ⟨Int.natCast_nonneg _, Int.ofNat_le.2 hpos, hp.valid _ _ huses, ?_, ?_⟩
  · intro hstarts
    by_cases hfirst : r.start ≤ 1
    · exact .inl (by omega)
    · obtain ⟨c, hc, k, hk, hused⟩ := hp.inTime r.start ⟨r.key, hstarts, huses⟩
      obtain ⟨r', hr', hcover⟩ := (hcovers k c).2 hused
      have hbefore : r'.start ≤ 1 := hcover.2.1.trans hc
      obtain ⟨_, hrest, _⟩ := List.pairwise_append.1 hsorted
      rcases List.mem_append.1 hr' with hmem | hmem
      · exact .inr ⟨c, hc, k, hk, (h.uses k c).2 ⟨r', hmem, hcover⟩⟩
      · rcases List.mem_cons.1 hmem with rfl | hmem
        · exact (hfirst hbefore).elim
        · exact (hfirst (((List.pairwise_cons.1 hrest).1 r' hmem).trans hbefore)).elim
  · intro k' c hopposite hk'
    exact hp.direction _ _ _ _ hopposite huses (hloaded k' c hk')

theorem Loading.next {start : PipelineUnit n} {loaded rest : List (UseRange Use)}
    {r : UseRange Use} (h : Loading start fu i loaded) (hp : p.Sound)
    (hcovers : ∀ k c, UseRange.Covered (loaded ++ r :: rest) k c ↔ p.Uses k c)
    (hsorted : (loaded ++ r :: rest).Pairwise fun r r' => r.start ≤ r'.start)
    (hseparate : UseRange.Separate (loaded ++ r :: rest)) (hpos : 0 < r.cycles) :
    ∃ fu', fu.loadUse i r = .ok fu' ∧ Loading start fu' i (loaded ++ [r]) := by
  have hchecks := h.checks hp hcovers hsorted hpos
  have hlast : p.Uses r.key (r.start + r.cycles - 1) :=
    (hcovers _ _).1 ⟨r, List.mem_append_right _ List.mem_cons_self, rfl, by omega, by omega⟩
  have hlt := hlast.lt_latency
  have hlatency := hp.latency_lt
  have hsum : (r.start : Int) + r.cycles < 2 ^ 31 := by omega
  have hstart : (r.start : Int).toNat = r.start := Int.toNat_natCast _
  have hstop : ((r.start : Int) + r.cycles).toNat = r.start + r.cycles := by omega
  have hfree : ∀ c, (r.start : Int).toNat ≤ c → c < ((r.start : Int) + r.cycles).toNat →
      ¬ (fu.pipelines i).Uses r.key c := by
    intro c hge hc hused
    obtain ⟨r', hr', hcover⟩ := (h.uses r.key c).1 hused
    rw [hstart] at hge
    rw [hstop] at hc
    exact (List.pairwise_append.1 hseparate).2.2 r' hr' r List.mem_cons_self r.key c hcover
      ⟨rfl, hge, hc⟩
  obtain ⟨fu', hok, hadds⟩ := addUse_ok (h.inv.sound i).trimmed hchecks hsum hfree
  refine ⟨fu', (loadUse_eq fu i r).trans hok, h.inv.addUse hok, ?_, ?_⟩
  · intro j hj
    rw [hadds.others j hj, h.others j hj]
  · intro k c
    rw [hadds.added.uses, h.uses, hstart, hstop]
    constructor
    · rintro (⟨r', hr', hcover⟩ | ⟨rfl, hge, hc⟩)
      · exact ⟨r', List.mem_append_left _ hr', hcover⟩
      · exact ⟨r, List.mem_append_right _ List.mem_cons_self, rfl, hge, hc⟩
    · rintro ⟨r', hr', hcover⟩
      rcases List.mem_append.1 hr' with hr' | hr'
      · exact .inl ⟨r', hr', hcover⟩
      · rw [List.mem_singleton.1 hr'] at hcover
        exact .inr ⟨hcover.1.symm, hcover.2⟩

theorem Loading.all {start : PipelineUnit n} {loaded rest : List (UseRange Use)}
    (h : Loading start fu i loaded) (hp : p.Sound)
    (hcovers : ∀ k c, UseRange.Covered (loaded ++ rest) k c ↔ p.Uses k c)
    (hsorted : (loaded ++ rest).Pairwise fun r r' => r.start ≤ r'.start)
    (hseparate : UseRange.Separate (loaded ++ rest)) (hpos : ∀ r ∈ rest, 0 < r.cycles) :
    ∃ fu', rest.foldlM (fun fu r => fu.loadUse i r) fu = .ok fu' ∧
      Loading start fu' i (loaded ++ rest) := by
  induction rest generalizing fu loaded with
  | nil =>
    rw [List.append_nil]
    exact ⟨fu, rfl, h⟩
  | cons r rest ih =>
    obtain ⟨fu', hok, hnext⟩ := h.next hp hcovers hsorted hseparate (hpos r List.mem_cons_self)
    rw [← List.singleton_append, ← List.append_assoc] at hcovers hsorted hseparate ⊢
    obtain ⟨fu'', hrest, hall⟩ := ih hnext hcovers hsorted hseparate
      fun r' hr' => hpos r' (List.mem_cons_of_mem r hr')
    refine ⟨fu'', ?_, hall⟩
    rw [List.singleton_append, List.foldlM_cons, hok]
    exact hrest

/-- A saved pipeline is loaded as it was, into a pipeline of any unit. -/
theorem loadState_saveState (h : fu.Inv) (i : Fin n) (hp : p.Sound) :
    ∃ fu', fu.loadState i p.saveState = .ok fu' ∧ fu'.Inv ∧
      fu'.pipelines = Function.update fu.pipelines i p := by
  have hperm := UseRange.sortByStart_perm p.saveState
  have hempty := removeAllResourceUses_pipelines fu i
  have hstart : Loading fu (fu.removeAllResourceUses i) i [] := by
    refine ⟨h.removeAllResourceUses i, ?_, ?_⟩
    · intro j hj
      rw [hempty, Function.update_of_ne hj]
    · intro k c
      rw [hempty, Function.update_self]
      constructor
      · intro hk
        exact (not_uses_new k c hk).elim
      · rintro ⟨_, hnil, _⟩
        cases hnil
  have hcovers : ∀ k c, UseRange.Covered ([] ++ UseRange.sortByStart p.saveState) k c ↔
      p.Uses k c := by
    intro k c
    rw [← covered_saveState, List.nil_append]
    apply exists_congr
    intro r
    rw [hperm.mem_iff]
  have hseparate : UseRange.Separate ([] ++ UseRange.sortByStart p.saveState) := by
    apply hperm.symm.pairwise p.separate_saveState
    intro r r' hrr' k c hr' hr
    exact hrr' k c hr hr'
  obtain ⟨fu', hok, hall⟩ := hstart.all hp hcovers (UseRange.sortByStart_sorted _) hseparate
    fun r hr => p.pos_saveState r (hperm.mem_iff.1 hr)
  refine ⟨fu', ?_, hall.inv, ?_⟩
  · rw [loadState, hok]
  · funext j
    by_cases hj : j = i
    · subst hj
      rw [Function.update_self]
      apply (hall.inv.sound j).trimmed.ext hp.trimmed
      intro k c
      rw [hall.uses, hcovers]
    · rw [Function.update_of_ne hj, hall.others j hj]

/-- The calls on the pipelines of a unit. -/
inductive Call where
  | addResourceUse (name : String) (start duration : Int)
  | addPortRead (operand start duration : Int)
  | addPortWrite (operand start duration : Int)
  | removeResourceUse (name : String)
  | removeResourceUseAt (name : String) (cycle : Int)
  | removeOperandUse (operand cycle : Int)
  | removeAllResourceUses

def call (fu : PipelineUnit n) (i : Fin n) : Call → Outcome (PipelineUnit n)
  | .addResourceUse name start duration => fu.addResourceUse i name start duration
  | .addPortRead operand start duration => fu.addPortRead i operand start duration
  | .addPortWrite operand start duration => fu.addPortWrite i operand start duration
  | .removeResourceUse name => fu.removeResourceUse i name
  | .removeResourceUseAt name cycle => fu.removeResourceUseAt i name cycle
  | .removeOperandUse operand cycle => fu.removeOperandUse i operand cycle
  | .removeAllResourceUses => .ok (fu.removeAllResourceUses i)

def step (fu : PipelineUnit n) (call : Fin n × Call) : Outcome (PipelineUnit n) :=
  attempt fu (fu.call call.1 call.2)

/-- The sum of the start cycle and the duration is an `int`, where a call comes to add them. -/
def Fits (fu : PipelineUnit n) (call : Fin n × Call) : Prop :=
  match call.2 with
  | .addResourceUse name start duration =>
    fu.AddChecks call.1 (.resource name) start duration → start + duration < 2 ^ 31
  | .addPortRead operand start duration =>
    fu.AddChecks call.1 (.read operand) start duration → start + duration < 2 ^ 31
  | .addPortWrite operand start duration =>
    fu.AddChecks call.1 (.write operand) start duration → start + duration < 2 ^ 31
  | _ => True

theorem Inv.call {call : Call} (h : fu.Inv) (hok : fu.call i call = .ok fu') : fu'.Inv := by
  cases call with
  | addResourceUse name start duration => exact h.addUse (k := .resource name) hok
  | addPortRead operand start duration => exact h.addUse (k := .read operand) hok
  | addPortWrite operand start duration => exact h.addUse (k := .write operand) hok
  | removeResourceUse name => exact removeResourceUse_inv h hok
  | removeResourceUseAt name cycle => exact removeResourceUseAt_inv h hok
  | removeOperandUse operand cycle => exact removeOperandUse_inv h hok
  | removeAllResourceUses =>
    cases hok
    exact h.removeAllResourceUses i

theorem call_defined {call : Fin n × Call} (hfits : fu.Fits call) :
    (fu.call call.1 call.2).Defined := by
  obtain ⟨i, call⟩ := call
  cases call with
  | addResourceUse name start duration => exact addUse_defined (k := .resource name) hfits
  | addPortRead operand start duration => exact addUse_defined (k := .read operand) hfits
  | addPortWrite operand start duration => exact addUse_defined (k := .write operand) hfits
  | removeResourceUse name =>
    exact Outcome.Defined.ite (fun _ => Outcome.defined_ok _) fun _ =>
      Outcome.Defined.ite (fun _ => Outcome.defined_exception _) fun _ => Outcome.defined_ok _
  | removeResourceUseAt name cycle =>
    apply Outcome.Defined.ite fun _ => Outcome.defined_ok _
    intro _
    apply Outcome.Defined.ite fun _ => Outcome.defined_exception _
    intro _
    apply Outcome.Defined.ite fun _ => Outcome.defined_ok _
    intro _
    exact Outcome.Defined.ite (fun _ => Outcome.defined_exception _) fun _ => Outcome.defined_ok _
  | removeOperandUse operand cycle =>
    apply Outcome.Defined.ite fun _ => Outcome.defined_exception _
    intro _
    apply Outcome.Defined.ite fun _ => Outcome.defined_ok _
    intro _
    exact Outcome.Defined.ite (fun _ => Outcome.defined_exception _) fun _ => Outcome.defined_ok _
  | removeAllResourceUses => exact Outcome.defined_ok _

theorem step_inv {call : Fin n × Call} (h : fu.Inv) (hfits : fu.Fits call) :
    ∃ fu', fu.step call = .ok fu' ∧ fu'.Inv := by
  obtain ⟨fu', hstep⟩ := (call_defined hfits).attempt_ok fu
  refine ⟨fu', hstep, ?_⟩
  rcases attempt_ok hstep with rfl | hok
  · exact h
  · exact h.call hok

/-- What the pipelines of a unit are to satisfy. -/
structure Right (fu : PipelineUnit n) : Prop where
  start : ∀ i c, (fu.pipelines i).StartsIn c → ∃ c' ≤ 1, (fu.pipelines i).StartsIn c'
  direction : ∀ i operand c c',
    ¬ ((fu.pipelines i).Uses (.read operand) c ∧ (fu.pipelines i).Uses (.write operand) c')
  latency : ∀ i, (∀ k c, (fu.pipelines i).Uses k c → c < (fu.pipelines i).latency) ∧
    ∀ c, (fu.pipelines i).latency = c + 1 → ∃ k, (fu.pipelines i).Uses k c
  elements : ∀ name, name ∈ fu.elements ↔ ∃ i c, (fu.pipelines i).Uses (.resource name) c
  reload : ∀ i, ∃ fu', fu.loadState i (fu.pipelines i).saveState = .ok fu' ∧
    fu'.pipelines = fu.pipelines

theorem Inv.right (h : fu.Inv) : fu.Right := by
  constructor
  · intro i
    exact (h.sound i).inTime
  · rintro i operand c c' ⟨hread, hwrite⟩
    exact (h.sound i).direction _ _ c c' rfl hread hwrite
  · intro i
    exact ⟨fun _ _ huses => huses.lt_latency, (h.sound i).trimmed⟩
  · exact h.exact.mem_iff
  · intro i
    obtain ⟨fu', hok, _, hpipelines⟩ := loadState_saveState h i (h.sound i)
    refine ⟨fu', hok, ?_⟩
    rw [hpipelines, Function.update_eq_self]

/-- The calls return or throw, and leave the unit as it is to be. -/
def RunsRight (calls : List (Fin n × Call)) : Prop :=
  ∃ fu, calls.foldlM step (new n) = .ok fu ∧ fu.Right

theorem runsRight_of_fits (calls : List (Fin n × Call)) (h : Along step Fits (new n) calls) :
    RunsRight calls := by
  obtain ⟨fu, hok, hinv⟩ := Along.run Inv (fun fu call _ => step_inv) (inv_new n) h
  exact ⟨fu, hok, hinv.right⟩

theorem multiplier_runsRight : RunsRight (n := 1) [(0, .addPortRead 1 0 1),
    (0, .addResourceUse "mul" 0 3), (0, .addPortWrite 2 2 1), (0, .removeOperandUse 1 0)] := by
  apply runsRight_of_fits
  have hread : (0 : Int) + 1 < 2 ^ 31 := by decide
  have hresource : (0 : Int) + 3 < 2 ^ 31 := by decide
  have hwrite : (2 : Int) + 1 < 2 ^ 31 := by decide
  exact ⟨fun _ => hread, fun _ _ => ⟨fun _ => hresource, fun _ _ => ⟨fun _ => hwrite, fun _ _ =>
    ⟨trivial, fun _ _ => trivial⟩⟩⟩⟩

/-- A use from cycle 1 on that lasts as long as an `int` can say. -/
theorem not_runsRight_longUse :
    ¬ RunsRight (n := 1) [(0, .addResourceUse "mul" 1 (2 ^ 31 - 1))] := by
  rintro ⟨fu, hok, _⟩
  have hundefined : (new 1).step (0, .addResourceUse "mul" 1 (2 ^ 31 - 1)) =
      .error .undefined := by
    decide +kernel
  rw [List.foldlM_cons, hundefined] at hok
  cases hok

end PipelineUnit
end MOM

end OpenAsip
