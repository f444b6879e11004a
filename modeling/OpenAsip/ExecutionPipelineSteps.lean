import OpenAsip.ExecutionPipelines

namespace OpenAsip
set_option autoImplicit true

namespace MOM

def CycleUsage.Has (u : CycleUsage) : Use → Prop
  | .resource name => name ∈ u.resources
  | .read operand => operand ∈ u.reads
  | .write operand => operand ∈ u.writes

/-- A pipeline starts with a resource or a read. -/
def Use.Starts : Use → Prop
  | .resource _ => True
  | .read _ => True
  | .write _ => False

namespace CycleUsage

theorem ext_has {u u' : CycleUsage} (h : ∀ k, u.Has k ↔ u'.Has k) : u = u' := by
  obtain ⟨resources, reads, writes⟩ := u
  obtain ⟨resources', reads', writes'⟩ := u'
  congr 1
  · exact Finset.ext fun name => h (.resource name)
  · exact Finset.ext fun operand => h (.read operand)
  · exact Finset.ext fun operand => h (.write operand)

theorem not_has_empty (k : Use) : ¬ empty.Has k := by
  cases k with
  | resource name => exact Finset.notMem_empty name
  | read operand => exact Finset.notMem_empty operand
  | write operand => exact Finset.notMem_empty operand

theorem isEmpty_iff {u : CycleUsage} : u.isEmpty = true ↔ u = empty := by
  obtain ⟨resources, reads, writes⟩ := u
  rw [isEmpty, decide_eq_true_iff, empty, mk.injEq]

theorem exists_has {u : CycleUsage} (h : u.isEmpty ≠ true) : ∃ k, u.Has k := by
  by_contra hnone
  apply h
  rw [isEmpty_iff]
  apply ext_has
  intro k
  constructor
  · intro hk
    exact (hnone ⟨k, hk⟩).elim
  · intro hk
    exact (not_has_empty k hk).elim

end CycleUsage

namespace ExecutionPipeline
variable {p q : ExecutionPipeline} {k : Use} {c n start stop : Nat}

def Uses (p : ExecutionPipeline) (k : Use) (c : Nat) : Prop := (p.usageAt c).Has k

def StartsIn (p : ExecutionPipeline) (c : Nat) : Prop := ∃ k : Use, k.Starts ∧ p.Uses k c

def Early (p : ExecutionPipeline) : Prop := ∃ c ≤ 1, p.StartsIn c

/-- The first resource or read, if any, is in cycle 0 or 1. -/
def InTime (p : ExecutionPipeline) : Prop := ∀ c, p.StartsIn c → p.Early

/-- Something is used in the last cycle. -/
def Trimmed (p : ExecutionPipeline) : Prop := ∀ c, p.latency = c + 1 → ∃ k, p.Uses k c

theorem usageAt_of_le (h : p.latency ≤ c) : p.usageAt c = .empty :=
  List.getD_eq_default _ _ h

theorem usageAt_eq (h : p.usage[c]? = some u) : p.usageAt c = u := by
  rw [usageAt, List.getD_eq_getElem?_getD, h]
  rfl

theorem usageAt_mem (h : c < p.latency) : p.usageAt c ∈ p.usage := by
  rw [usageAt_eq (List.getElem?_eq_getElem h)]
  exact List.getElem_mem h

theorem Uses.lt_latency (h : p.Uses k c) : c < p.latency := by
  apply Nat.lt_of_not_le
  intro hle
  rw [Uses, usageAt_of_le hle] at h
  exact CycleUsage.not_has_empty k h

theorem StartsIn.lt_latency (h : p.StartsIn c) : c < p.latency := by
  obtain ⟨k, _, hk⟩ := h
  exact hk.lt_latency

theorem startsIn_congr (h : p.usageAt c = q.usageAt c) : p.StartsIn c ↔ q.StartsIn c := by
  rw [StartsIn, StartsIn]
  simp only [Uses, h]

theorem StartsIn.mono (h : ∀ k, p.Uses k c → q.Uses k c) (hp : p.StartsIn c) : q.StartsIn c := by
  obtain ⟨k, hk, huses⟩ := hp
  exact ⟨k, hk, h k huses⟩

/-- Pipelines are known by their uses. -/
theorem Trimmed.ext (hp : p.Trimmed) (hq : q.Trimmed) (h : ∀ k c, p.Uses k c ↔ q.Uses k c) :
    p = q := by
  have hle : ∀ p q : ExecutionPipeline, p.Trimmed → (∀ k c, p.Uses k c → q.Uses k c) →
      p.latency ≤ q.latency := by
    intro p q hp h
    cases hl : p.latency with
    | zero => exact Nat.zero_le _
    | succ c =>
      obtain ⟨k, hk⟩ := hp c hl
      exact (h k c hk).lt_latency
  have hlatency : p.latency = q.latency := Nat.le_antisymm
    (hle p q hp fun k c => (h k c).1) (hle q p hq fun k c => (h k c).2)
  obtain ⟨usage⟩ := p
  obtain ⟨usage'⟩ := q
  congr 1
  apply List.ext_getElem hlatency
  intro c hc hc'
  have heq : usageAt ⟨usage⟩ c = usageAt ⟨usage'⟩ c := CycleUsage.ext_has fun k => h k c
  rw [usageAt_eq (List.getElem?_eq_getElem hc), usageAt_eq (List.getElem?_eq_getElem hc')] at heq
  exact heq

theorem usageAt_append_empty {l l' : List CycleUsage} (h : ∀ u ∈ l', u = .empty) (c : Nat) :
    usageAt ⟨l ++ l'⟩ c = usageAt ⟨l⟩ c := by
  rcases Nat.lt_or_ge c l.length with hc | hc
  · exact List.getD_append _ _ _ _ hc
  · rw [usageAt, List.getD_append_right _ _ _ _ hc, usageAt_of_le hc]
    rcases Nat.lt_or_ge (c - l.length) l'.length with hc' | hc'
    · rw [List.getD_eq_getElem _ _ hc']
      exact h _ (List.getElem_mem hc')
    · exact List.getD_eq_default _ _ hc'

theorem rdropWhile_append (l : List CycleUsage) :
    ∃ l', l = l.rdropWhile CycleUsage.isEmpty ++ l' ∧ ∀ u ∈ l', u = .empty := by
  refine ⟨(l.reverse.takeWhile CycleUsage.isEmpty).reverse, ?_, ?_⟩
  · rw [List.rdropWhile, ← List.reverse_append, List.takeWhile_append_dropWhile,
      List.reverse_reverse]
  · intro u hu
    exact CycleUsage.isEmpty_iff.1 (List.mem_takeWhile_imp (List.mem_reverse.1 hu))

/-- The size of the vectors tells nothing about the uses. -/
theorem usageAt_adjustLatency (p : ExecutionPipeline) (n c : Nat) :
    (p.adjustLatency n).usageAt c = p.usageAt c := by
  rw [adjustLatency]
  split
  · exact usageAt_append_empty (fun u hu => List.eq_of_mem_replicate hu) c
  · obtain ⟨l', hl, hempty⟩ := rdropWhile_append (p.usage.drop n)
    have hsplit : p.usage =
        (p.usage.take n ++ (p.usage.drop n).rdropWhile CycleUsage.isEmpty) ++ l' := by
      rw [List.append_assoc, ← hl, List.take_append_drop]
    have hrest := usageAt_append_empty
      (l := p.usage.take n ++ (p.usage.drop n).rdropWhile CycleUsage.isEmpty) hempty c
    rw [← hsplit] at hrest
    exact hrest.symm

theorem uses_adjustLatency : (p.adjustLatency n).Uses k c ↔ p.Uses k c := by
  rw [Uses, usageAt_adjustLatency, Uses]

theorem le_latency_adjustLatency (p : ExecutionPipeline) (n : Nat) :
    n ≤ (p.adjustLatency n).latency := by
  rw [adjustLatency]
  split
  · rename_i hlt
    simp only [latency, List.length_append, List.length_replicate]
    exact (Nat.add_sub_of_le (Nat.le_of_lt hlt)).ge
  · rename_i hge
    rw [latency, List.length_append, List.length_take_of_le (Nat.not_lt.1 hge)]
    exact Nat.le_add_right ..

theorem latency_adjustLatency_le (p : ExecutionPipeline) (n : Nat) :
    (p.adjustLatency n).latency ≤ max n p.latency := by
  rw [adjustLatency]
  split
  · rename_i hlt
    simp only [latency, List.length_append, List.length_replicate] at hlt ⊢
    omega
  · have hstart := (List.rdropWhile_prefix CycleUsage.isEmpty (p.usage.drop n)).length_le
    simp only [latency, List.length_append, List.length_take, List.length_drop] at hstart ⊢
    omega

theorem usageAt_last {l : List CycleUsage} (hne : l ≠ []) (h : l.length = c + 1) :
    usageAt ⟨l⟩ c = l.getLast hne := by
  apply usageAt_eq
  rw [← List.getLast?_eq_some_getLast hne, List.getLast?_eq_getElem?, h]
  rfl

/-- Beyond the new latency the vectors end with a use. -/
theorem adjustLatency_last (h : (p.adjustLatency n).latency = c + 1) (hn : n ≤ c) :
    ∃ k, p.Uses k c := by
  have hsame := usageAt_adjustLatency p n c
  rw [adjustLatency] at h hsame
  split at h
  · rename_i hlt
    simp only [latency, List.length_append, List.length_replicate] at h hlt
    omega
  · rename_i hge
    rw [if_neg hge] at hsame
    have hne : (p.usage.drop n).rdropWhile CycleUsage.isEmpty ≠ [] := by
      intro hnil
      rw [hnil, List.append_nil, latency, List.length_take_of_le (Nat.not_lt.1 hge)] at h
      omega
    have hused := CycleUsage.exists_has (List.rdropWhile_last_not CycleUsage.isEmpty _ hne)
    rw [usageAt_last (List.append_ne_nil_of_right_ne_nil _ hne) h,
      List.getLast_append_of_ne_nil _ hne] at hsame
    rw [hsame] at hused
    exact hused

theorem trimmed_adjustLatency_zero (p : ExecutionPipeline) : (p.adjustLatency 0).Trimmed := by
  intro c hc
  obtain ⟨k, hk⟩ := adjustLatency_last hc (Nat.zero_le c)
  exact ⟨k, uses_adjustLatency.2 hk⟩

theorem latency_update (f : CycleUsage → CycleUsage) :
    (p.update start stop f).latency = p.latency := by
  rw [update, latency, List.length_mapIdx, latency]

theorem usageAt_update (f : CycleUsage → CycleUsage) (hc : c < p.latency) :
    (p.update start stop f).usageAt c =
      if start ≤ c ∧ c < stop then f (p.usageAt c) else p.usageAt c := by
  have hget : p.usage[c]? = some (p.usageAt c) := by
    rw [List.getElem?_eq_getElem hc, usageAt_eq (List.getElem?_eq_getElem hc)]
  apply usageAt_eq
  rw [update, List.getElem?_mapIdx, hget]
  rfl

section Updates
variable {f : CycleUsage → CycleUsage} {use : Use} {gone : Use → Prop}

def Adds (f : CycleUsage → CycleUsage) (use : Use) : Prop :=
  ∀ u k, (f u).Has k ↔ u.Has k ∨ k = use

def Removes (f : CycleUsage → CycleUsage) (gone : Use → Prop) : Prop :=
  ∀ u k, (f u).Has k ↔ u.Has k ∧ ¬ gone k

theorem adds_resource (name : String) : Adds (addResource name) (.resource name) := by
  intro u k
  cases k with
  | resource name' => simp [addResource, CycleUsage.Has, or_comm]
  | read operand => simp [addResource, CycleUsage.Has]
  | write operand => simp [addResource, CycleUsage.Has]

theorem adds_read (operand : Int) : Adds (addRead operand) (.read operand) := by
  intro u k
  cases k with
  | resource name => simp [addRead, CycleUsage.Has]
  | read operand' => simp [addRead, CycleUsage.Has, or_comm]
  | write operand' => simp [addRead, CycleUsage.Has]

theorem adds_write (operand : Int) : Adds (addWrite operand) (.write operand) := by
  intro u k
  cases k with
  | resource name => simp [addWrite, CycleUsage.Has]
  | read operand' => simp [addWrite, CycleUsage.Has]
  | write operand' => simp [addWrite, CycleUsage.Has, or_comm]

theorem removes_resource (name : String) :
    Removes (removeResource name) fun k => k = .resource name := by
  intro u k
  cases k with
  | resource name' => simp [removeResource, CycleUsage.Has, and_comm]
  | read operand => simp [removeResource, CycleUsage.Has]
  | write operand => simp [removeResource, CycleUsage.Has]

theorem removes_operand (operand : Int) :
    Removes (removeOperand operand) fun k => k = .read operand ∨ k = .write operand := by
  intro u k
  cases k with
  | resource name => simp [removeOperand, CycleUsage.Has]
  | read operand' => simp [removeOperand, CycleUsage.Has, and_comm]
  | write operand' => simp [removeOperand, CycleUsage.Has, and_comm]

theorem uses_update_add (hf : Adds f use) (hstop : stop ≤ p.latency) :
    (p.update start stop f).Uses k c ↔ p.Uses k c ∨ k = use ∧ start ≤ c ∧ c < stop := by
  rcases Nat.lt_or_ge c p.latency with hc | hc
  · rw [Uses, usageAt_update f hc]
    split
    · rename_i hin
      rw [hf]
      exact or_congr_right (and_iff_left hin).symm
    · rename_i hout
      exact (or_iff_left fun h => hout h.2).symm
  · rw [Uses, usageAt_of_le ((latency_update f).le.trans hc), Uses, usageAt_of_le hc]
    constructor
    · exact .inl
    · rintro (h | ⟨_, _, hlt⟩)
      · exact h
      · omega

theorem uses_update_remove (hf : Removes f gone) :
    (p.update start stop f).Uses k c ↔ p.Uses k c ∧ ¬ (gone k ∧ start ≤ c ∧ c < stop) := by
  rcases Nat.lt_or_ge c p.latency with hc | hc
  · rw [Uses, usageAt_update f hc]
    split
    · rename_i hin
      rw [hf]
      exact and_congr_right' (not_congr (and_iff_left hin).symm)
    · rename_i hout
      exact (and_iff_left fun h => hout h.2).symm
  · rw [Uses, usageAt_of_le ((latency_update f).le.trans hc), Uses, usageAt_of_le hc]
    constructor
    · intro h
      exact (CycleUsage.not_has_empty k h).elim
    · exact And.left

/-- The pipeline when a use has been added to vectors that have room for it. -/
structure Added (p q : ExecutionPipeline) (use : Use) (start stop : Nat) : Prop where
  uses : ∀ k c, q.Uses k c ↔ p.Uses k c ∨ k = use ∧ start ≤ c ∧ c < stop
  trimmed : q.Trimmed
  latency : q.latency ≤ max stop p.latency

theorem Added.of_update (hf : Adds f use) (hlt : start < stop)
    (hsame : ∀ k c, q.Uses k c ↔ p.Uses k c) (hroom : stop ≤ q.latency)
    (hlatency : q.latency ≤ max stop p.latency)
    (hlast : ∀ c, q.latency = c + 1 → stop ≤ c → ∃ k, p.Uses k c) :
    Added p (q.update start stop f) use start stop := by
  constructor
  · intro k c
    rw [uses_update_add hf hroom, hsame]
  · intro c hc
    rw [latency_update] at hc
    by_cases hin : stop ≤ c
    · obtain ⟨k, hk⟩ := hlast c hc hin
      exact ⟨k, (uses_update_add hf hroom).2 (.inl ((hsame k c).2 hk))⟩
    · exact ⟨use, (uses_update_add hf hroom).2 (.inr ⟨rfl, by omega, by omega⟩)⟩
  · rw [latency_update]
    exact hlatency

/-- A resource is added after the latency has been adjusted. -/
theorem added_adjusted (hf : Adds f use) (hlt : start < stop) :
    Added p ((p.adjustLatency stop).update start stop f) use start stop := by
  apply Added.of_update hf hlt
  · intro k c
    exact uses_adjustLatency
  · exact le_latency_adjustLatency p stop
  · exact latency_adjustLatency_le p stop
  · intro c hc hin
    exact adjustLatency_last hc hin

theorem added_stretched (hf : Adds f use) (hlt : start < stop) (hp : p.Trimmed) :
    Added p ((if p.latency < stop then p.adjustLatency stop else p).update start stop f)
      use start stop := by
  split
  · exact added_adjusted hf hlt
  · rename_i hge
    apply Added.of_update hf hlt
    · intro k c
      rfl
    · exact Nat.not_lt.1 hge
    · exact Nat.le_max_right ..
    · intro c hc _
      exact hp c hc

/-- The pipeline when some of the uses have been removed. -/
structure Removed (p q : ExecutionPipeline) (gone : Use → Nat → Prop) : Prop where
  uses : ∀ k c, q.Uses k c ↔ p.Uses k c ∧ ¬ gone k c
  trimmed : q.Trimmed

theorem removed_adjusted (hf : Removes f gone) (start stop : Nat) :
    Removed p ((p.update start stop f).adjustLatency 0)
      fun k c => gone k ∧ start ≤ c ∧ c < stop := by
  constructor
  · intro k c
    rw [uses_adjustLatency, uses_update_remove hf]
  · exact trimmed_adjustLatency_zero _

theorem Removed.latency_le {gone : Use → Nat → Prop} (h : Removed p q gone) :
    q.latency ≤ p.latency := by
  cases hl : q.latency with
  | zero => exact Nat.zero_le _
  | succ c =>
    obtain ⟨k, hk⟩ := h.trimmed c hl
    exact ((h.uses k c).1 hk).1.lt_latency

end Updates

section Checks

theorem exists_starts_iff {u : CycleUsage} :
    startsWith u = true ↔ ∃ k : Use, k.Starts ∧ u.Has k := by
  rw [startsWith, decide_eq_true_iff, Finset.nonempty_iff_ne_empty.symm,
    Finset.nonempty_iff_ne_empty.symm]
  constructor
  · rintro (⟨name, hname⟩ | ⟨operand, hoperand⟩)
    · exact ⟨.resource name, trivial, hname⟩
    · exact ⟨.read operand, trivial, hoperand⟩
  · rintro ⟨k, hk, hhas⟩
    cases k with
    | resource name => exact .inl ⟨name, hhas⟩
    | read operand => exact .inr ⟨operand, hhas⟩
    | write operand => cases hk

theorem startsWith_iff : startsWith (p.usageAt c) = true ↔ p.StartsIn c := exists_starts_iff

theorem not_startsIn_iff :
    ¬ p.StartsIn c ↔ (p.usageAt c).resources = ∅ ∧ (p.usageAt c).reads = ∅ := by
  rw [← startsWith_iff, startsWith, decide_eq_true_iff, not_or, not_not, not_not]

theorem early_iff : p.Early ↔ p.StartsIn 0 ∨ p.StartsIn 1 := by
  constructor
  · rintro ⟨c, hc, h⟩
    rcases Nat.le_one_iff_eq_zero_or_eq_one.1 hc with rfl | rfl
    · exact .inl h
    · exact .inr h
  · rintro (h | h)
    · exact ⟨0, Nat.zero_le 1, h⟩
    · exact ⟨1, Nat.le_refl 1, h⟩

theorem empty_of_not_early (h : ¬ p.Early) (hc : c ≤ 1) :
    (p.usageAt c).resources = ∅ ∧ (p.usageAt c).reads = ∅ := by
  rw [← not_startsIn_iff]
  intro hstarts
  exact h ⟨c, hc, hstarts⟩

/-- A start is accepted in the first two cycles or when the pipeline has started there. -/
theorem checkStartCycle_ok {start : Int} :
    p.checkStartCycle start = .ok () ↔ 0 ≤ start ∧ (start ≤ 1 ∨ p.Early) := by
  rw [checkStartCycle, Except.check_ok, Int.not_lt]
  apply and_congr_right
  intro _
  split
  · rename_i hfirst
    exact iff_of_true rfl (.inl hfirst)
  · rename_i hlate
    rw [Except.check_ok, Except.check_ok, Except.check_ok, and_iff_left rfl, or_iff_right hlate]
    constructor
    · rintro ⟨hzero, hone, htwo⟩
      by_contra hnot
      obtain ⟨hresources, hreads⟩ := empty_of_not_early hnot (Nat.zero_le 1)
      obtain ⟨hresources', hreads'⟩ := empty_of_not_early hnot (Nat.le_refl 1)
      by_cases hlatency : p.latency = 1
      · exact hone ⟨hlatency, hresources, hreads⟩
      · exact htwo ⟨by omega, hresources, hresources', hreads, hreads'⟩
    · rw [early_iff]
      rintro (h | h)
      · have hlt := h.lt_latency
        refine ⟨Nat.ne_of_gt hlt, ?_, ?_⟩
        · rintro ⟨_, hempty⟩
          exact not_startsIn_iff.2 hempty h
        · rintro ⟨_, hresources, _, hreads, _⟩
          exact not_startsIn_iff.2 ⟨hresources, hreads⟩ h
      · have hlt := h.lt_latency
        refine ⟨by omega, ?_, ?_⟩
        · rintro ⟨hlatency, _⟩
          omega
        · rintro ⟨_, _, hresources, _, hreads⟩
          exact not_startsIn_iff.2 ⟨hresources, hreads⟩ h

theorem anyCycle_iff {f : CycleUsage → Bool} (hf : f .empty = false) :
    p.anyCycle start stop f = true ↔ ∃ c, start ≤ c ∧ c < stop ∧ f (p.usageAt c) = true := by
  rw [anyCycle, List.any_eq_true]
  constructor
  · rintro ⟨u, hu, hfu⟩
    obtain ⟨i, hi, rfl⟩ := List.getElem_of_mem hu
    rw [List.getElem_drop, List.getElem_take] at hfu
    rw [List.length_drop, List.length_take] at hi
    refine ⟨start + i, Nat.le_add_right .., by omega, ?_⟩
    rw [usageAt_eq (List.getElem?_eq_getElem (by omega))]
    exact hfu
  · rintro ⟨c, hstart, hstop, hfu⟩
    have hc : c < p.latency := by
      apply Nat.lt_of_not_le
      intro hle
      rw [usageAt_of_le hle, hf] at hfu
      cases hfu
    refine ⟨p.usageAt c, ?_, hfu⟩
    apply List.mem_iff_getElem?.2
    refine ⟨c - start, ?_⟩
    rw [List.getElem?_drop, Nat.add_sub_cancel' hstart, List.getElem?_take_of_lt hstop,
      List.getElem?_eq_getElem hc, usageAt_eq (List.getElem?_eq_getElem hc)]

theorem isOperandWritten_iff {operand : Int} :
    p.isOperandWritten operand = true ↔ ∃ c, p.Uses (.write operand) c := by
  rw [isOperandWritten, List.any_eq_true]
  constructor
  · rintro ⟨u, hu, hmem⟩
    obtain ⟨c, hc, rfl⟩ := List.getElem_of_mem hu
    rw [decide_eq_true_iff, ← usageAt_eq (List.getElem?_eq_getElem hc)] at hmem
    exact ⟨c, hmem⟩
  · rintro ⟨c, hc⟩
    refine ⟨p.usageAt c, usageAt_mem hc.lt_latency, ?_⟩
    rw [decide_eq_true_iff]
    exact hc

theorem isOperandRead_iff {operand : Int} :
    p.isOperandRead operand = true ↔ ∃ c, p.Uses (.read operand) c := by
  rw [isOperandRead, List.any_eq_true]
  constructor
  · rintro ⟨u, hu, hmem⟩
    obtain ⟨c, hc, rfl⟩ := List.getElem_of_mem hu
    rw [decide_eq_true_iff, ← usageAt_eq (List.getElem?_eq_getElem hc)] at hmem
    exact ⟨c, hmem⟩
  · rintro ⟨c, hc⟩
    refine ⟨p.usageAt c, usageAt_mem hc.lt_latency, ?_⟩
    rw [decide_eq_true_iff]
    exact hc

end Checks

section FirstCycle
variable {f : CycleUsage → Bool} {cycle : Nat} {name : String} {operand : Int}

/-- A set has an element besides the given one. -/
theorem exists_other_iff [DecidableEq α] {s : Finset α} {a : α} :
    (1 < s.card ∨ s.card = 1 ∧ a ∉ s) ↔ ∃ b ∈ s, b ≠ a := by
  constructor
  · rintro (hmany | ⟨hone, ha⟩)
    · exact Finset.exists_mem_ne hmany a
    · obtain ⟨b, rfl⟩ := Finset.card_eq_one.1 hone
      exact ⟨b, Finset.mem_singleton_self b, fun h => ha (Finset.mem_singleton.2 h.symm)⟩
  · rintro ⟨b, hb, hne⟩
    have hpos := Finset.card_pos.2 ⟨b, hb⟩
    rcases Nat.lt_or_ge 1 s.card with hmany | hone
    · exact .inl hmany
    · refine .inr ⟨by omega, fun ha => ?_⟩
      exact hne (Finset.card_le_one.1 hone b hb a ha)

theorem startsWithout_iff {u : CycleUsage} :
    startsWithout name u = true ↔ ∃ k : Use, k.Starts ∧ u.Has k ∧ k ≠ .resource name := by
  rw [startsWithout, decide_eq_true_iff, exists_other_iff, ← Finset.nonempty_iff_ne_empty]
  constructor
  · rintro (⟨operand, hoperand⟩ | ⟨name', hname', hne⟩)
    · refine ⟨.read operand, trivial, hoperand, ?_⟩
      intro h
      cases h
    · exact ⟨.resource name', trivial, hname', fun h => hne (Use.resource.inj h)⟩
  · rintro ⟨k, hk, hhas, hne⟩
    cases k with
    | resource name' => exact .inr ⟨name', hhas, fun h => hne (congrArg _ h)⟩
    | read operand => exact .inl ⟨operand, hhas⟩
    | write operand => cases hk

theorem early_of_findIdx (hf : f .empty = false) (h : isTooLate (p.usage.findIdx? f) = false)
    (hc : f (p.usageAt c) = true) : ∃ c' ≤ 1, f (p.usageAt c') = true := by
  have hlt : c < p.latency := by
    apply Nat.lt_of_not_le
    intro hle
    rw [usageAt_of_le hle, hf] at hc
    cases hc
  cases hfirst : p.usage.findIdx? f with
  | none =>
    rw [List.findIdx?_eq_none_iff.1 hfirst _ (usageAt_mem hlt)] at hc
    cases hc
  | some i =>
    obtain ⟨hi, hfi, _⟩ := List.findIdx?_eq_some_iff_getElem.1 hfirst
    rw [hfirst, isTooLate, Option.any_some, decide_eq_false_iff_not] at h
    refine ⟨i, Nat.not_lt.1 h, ?_⟩
    rw [usageAt_eq (List.getElem?_eq_getElem hi)]
    exact hfi

theorem startsWith_empty : startsWith .empty = false := by decide

theorem usageAt_drop : usageAt ⟨p.usage.drop n⟩ c = p.usageAt (n + c) := by
  rw [usageAt, usageAt, List.getD_eq_getElem?_getD, List.getD_eq_getElem?_getD,
    List.getElem?_drop]

theorem early_of_firstCycleAfter (h : isTooLate (p.firstCycleAfter cycle) = false)
    (hlt : cycle < c) (hc : p.StartsIn c) : ∃ c' ≤ 1, cycle < c' ∧ p.StartsIn c' := by
  have hrest : startsWith (usageAt ⟨p.usage.drop (cycle + 1)⟩ (c - (cycle + 1))) = true := by
    rw [usageAt_drop, Nat.add_sub_cancel' hlt]
    exact startsWith_iff.2 hc
  cases hfirst : (p.usage.drop (cycle + 1)).findIdx? startsWith with
  | none =>
    have hin := ((startsWith_iff (p := ⟨p.usage.drop (cycle + 1)⟩)).1 hrest).lt_latency
    rw [List.findIdx?_eq_none_iff.1 hfirst _ (usageAt_mem hin)] at hrest
    cases hrest
  | some i =>
    obtain ⟨hi, hfi, _⟩ := List.findIdx?_eq_some_iff_getElem.1 hfirst
    rw [firstCycleAfter, hfirst, isTooLate, Option.map_some, Option.any_some,
      decide_eq_false_iff_not] at h
    refine ⟨cycle + 1 + i, Nat.not_lt.1 h, by omega, ?_⟩
    rw [← startsWith_iff, ← usageAt_drop, usageAt_eq (List.getElem?_eq_getElem hi)]
    exact hfi

theorem firstCycle_some (h : p.firstCycle = some c) :
    p.StartsIn c ∧ ∀ c', p.StartsIn c' → c ≤ c' := by
  obtain ⟨hc, hfc, hbefore⟩ := List.findIdx?_eq_some_iff_getElem.1 h
  constructor
  · rw [← startsWith_iff, usageAt_eq (List.getElem?_eq_getElem hc)]
    exact hfc
  · intro c' hc'
    apply Nat.le_of_not_lt
    intro hlt
    have hnot := hbefore c' hlt
    rw [← usageAt_eq (List.getElem?_eq_getElem (Nat.lt_trans hlt hc))] at hnot
    exact hnot (startsWith_iff.2 hc')

theorem firstCycle_ne_none (h : p.StartsIn c) : p.firstCycle ≠ none := by
  intro hnone
  have hnot := List.findIdx?_eq_none_iff.1 hnone _ (usageAt_mem h.lt_latency)
  rw [startsWith_iff.2 h] at hnot
  cases hnot

/-- Uses in one cycle are removed: another cycle is first, or the cycle still starts the pipeline,
or the next start is early. -/
theorem InTime.of_first (hp : p.InTime) (hsub : ∀ c, q.StartsIn c → p.StartsIn c)
    (hsame : ∀ c, c ≠ cycle → p.StartsIn c → q.StartsIn c)
    (hfirst : p.firstCycle = some cycle →
      q.StartsIn cycle ∨ isTooLate (p.firstCycleAfter cycle) = false) : q.InTime := by
  intro c hc
  obtain ⟨early, hearly, hstarts⟩ := hp c (hsub c hc)
  cases hf : p.firstCycle with
  | none => exact (firstCycle_ne_none hstarts hf).elim
  | some first =>
    obtain ⟨hat, hleast⟩ := firstCycle_some hf
    have hle : first ≤ 1 := (hleast early hstarts).trans hearly
    by_cases hcycle : first = cycle
    · subst hcycle
      rcases hfirst hf with hkept | hafter
      · exact ⟨first, hle, hkept⟩
      · by_cases heq : c = first
        · exact ⟨c, heq ▸ hle, hc⟩
        · have hlt : first < c := Nat.lt_of_le_of_ne (hleast c (hsub c hc)) (Ne.symm heq)
          obtain ⟨next, hnext, hbehind, hat'⟩ := early_of_firstCycleAfter hafter hlt (hsub c hc)
          exact ⟨next, hnext, hsame next (Nat.ne_of_gt hbehind) hat'⟩
    · exact ⟨first, hle, hsame first hcycle hat⟩

/-- Uses that are removed in one cycle leave the other cycles as they are. -/
theorem Removed.startsIn {gone : Use → Prop}
    (hr : Removed p q fun k c => gone k ∧ cycle ≤ c ∧ c < cycle + 1) :
    (∀ c, q.StartsIn c → p.StartsIn c) ∧ (∀ c, c ≠ cycle → p.StartsIn c → q.StartsIn c) := by
  constructor
  · intro c hc
    exact hc.mono fun k hk => ((hr.uses k c).1 hk).1
  · intro c hne hc
    exact hc.mono fun k hk => (hr.uses k c).2 ⟨hk, fun hgone => hne (by omega)⟩

end FirstCycle

end ExecutionPipeline
end MOM

end OpenAsip
