import Mathlib.Data.Fintype.Pi
import Mathlib.Data.Fintype.Card
import OpenAsip.FSATransitions

namespace OpenAsip
set_option autoImplicit true

namespace ConflictDetection
open Reservations

namespace FUFiniteStateAutomaton
variable {fu : FunctionUnit} {fsa : FUFiniteStateAutomaton fu}

/-- The number of matrices that differ in their columns. -/
def stateBound (fu : FunctionUnit) : Nat :=
  Fintype.card (Fin fu.operationCount → Fin fu.maxLatency → Bool)

theorem Valid.length_le (h : fsa.Valid) : fsa.stateCollisionMatrices.length ≤ stateBound fu := by
  let bits (m : fu.CollisionMatrix) (j : Fin fu.operationCount) (c : Fin fu.maxLatency) : Bool :=
    m.bit j c
  have hnodup : (fsa.stateCollisionMatrices.map bits).Nodup := by
    rw [List.Nodup, List.pairwise_map]
    refine h.distinct.imp fun {m m'} hne he => ?_
    have hequal : m.equals m' = true := by
      rw [BitMatrix.equals_iff]
      intro j hj c hc
      exact congrFun (congrFun he ⟨j, hj⟩) ⟨c, hc⟩
    rw [hequal] at hne
    cases hne
  have hle := hnodup.length_le_card
  rwa [List.length_map] at hle

theorem Extends.length_le {fsa' : FUFiniteStateAutomaton fu} (h : fsa'.Extends fsa) :
    fsa.stateCollisionMatrices.length ≤ fsa'.stateCollisionMatrices.length :=
  List.IsPrefix.length_le h

/-- The first transitions of a state are resolved and lead to the given states. -/
def Leads (fsa : FUFiniteStateAutomaton fu) (source count : Nat) (targets : Nat → Prop) : Prop :=
  ∀ t, t < count → ∃ target, fsa.transition (.state source) t = .ok target ∧
    (target = .illegal ∨ ∃ k, target = .state k ∧ targets k)

theorem Leads.mono {targets : Nat → Prop} (h : fsa.Leads source count targets)
    (targets' : Nat → Prop) (ht : ∀ k, targets k → targets' k) :
    fsa.Leads source count targets' := by
  intro t hlt
  obtain ⟨target, htarget, rfl | ⟨k, rfl, hk⟩⟩ := h t hlt
  · exact ⟨.illegal, htarget, .inl rfl⟩
  · exact ⟨.state k, htarget, .inr ⟨k, rfl, ht k hk⟩⟩

/-- The unfinished states are none of the handled ones and not the state at hand, and the resolved
transitions lead to the states that are noted somewhere. -/
structure Round (fsa : FUFiniteStateAutomaton fu) (handled before : List Nat)
    (state count : Nat) (acc : FUFiniteStateAutomaton fu × List Nat) : Prop where
  valid : acc.1.Valid
  extend : acc.1.Extends fsa
  nodup : acc.2.Nodup
  unfinished : ∀ s ∈ acc.2, s ∉ handled ∧ s ≠ state ∧ s < acc.1.stateCollisionMatrices.length
  closed : ∀ s ∈ handled, acc.1.Leads s (fu.operationCount + 1) fun k =>
    k ∈ state :: handled ∨ k ∈ acc.2
  noted : ∀ s ∈ before, s ∈ acc.2
  resolved : acc.1.Leads state count fun k => k ∈ state :: handled ∨ k ∈ acc.2
  free : state ∉ handled

/-- A transition of the state at hand is resolved, and its target is noted. -/
theorem Round.next {fsa' : FUFiniteStateAutomaton fu} {states : List Nat}
    (h : Round fsa handled before state count acc)
    (hcount : count < fu.operationCount + 1)
    (hstate : state < acc.1.stateCollisionMatrices.length)
    (he : acc.1.resolveState (.state state) count = .ok (target, fsa')) (hvalid : fsa'.Valid)
    (hext : fsa'.Extends acc.1) (hnodup : states.Nodup) (hsub : ∀ s ∈ acc.2, s ∈ states)
    (hnew : ∀ s ∈ states, s ∉ handled ∧ s ≠ state ∧ s < fsa'.stateCollisionMatrices.length)
    (htarget : target = .illegal ∨
      ∃ k, target = .state k ∧ (k ∈ state :: handled ∨ k ∈ states)) :
    Round fsa handled before state (count + 1) (fsa', states) where
  valid := hvalid
  extend := hext.trans h.extend
  nodup := hnodup
  unfinished := hnew
  closed := by
    intro s hs t ht
    have hmono := (h.closed s hs).mono (fun k => k ∈ state :: handled ∨ k ∈ states)
      fun k hk => hk.imp_right (hsub k)
    obtain ⟨x, hx, hleads⟩ := hmono t ht
    refine ⟨x, resolveState_ne he ?_ hx, hleads⟩
    rintro ⟨rfl, -⟩
    exact h.free hs
  noted s hs := hsub s (h.noted s hs)
  resolved := by
    intro t ht
    rcases Nat.lt_succ_iff_lt_or_eq.1 ht with hlt | rfl
    · have hmono := h.resolved.mono (fun k => k ∈ state :: handled ∨ k ∈ states)
        fun k hk => hk.imp_right (hsub k)
      obtain ⟨x, hx, hleads⟩ := hmono t hlt
      refine ⟨x, resolveState_ne he ?_ hx, hleads⟩
      rintro ⟨-, rfl⟩
      exact Nat.lt_irrefl _ hlt
    · obtain ⟨old, hold⟩ := h.valid.transition_ok hstate (Nat.le_of_lt_succ hcount)
      exact ⟨target, resolveState_self he hold, htarget⟩
  free := h.free

theorem Round.resolve (hfits : fu.Fits) (h : Round fsa handled before state t acc)
    (hstate : state < fsa.stateCollisionMatrices.length) (ht : t < fu.operationCount + 1) :
    ∃ acc', resolveTransitions handled state acc t = .ok acc' ∧
      Round fsa handled before state (t + 1) acc' := by
  have hm := h.extend.get (List.getElem?_eq_getElem hstate)
  obtain ⟨target, fsa', he, hvalid, hext, hcorrect⟩ :=
    h.valid.resolveState hfits hm (Nat.le_of_lt_succ ht)
  have hstate' := Nat.lt_of_lt_of_le hstate h.extend.length_le
  have hold : ∀ s ∈ acc.2, s ∉ handled ∧ s ≠ state ∧ s < fsa'.stateCollisionMatrices.length := by
    intro s hs
    obtain ⟨hh, hne, hlt⟩ := h.unfinished s hs
    exact ⟨hh, hne, Nat.lt_of_lt_of_le hlt hext.length_le⟩
  rw [resolveTransitions, he]
  dsimp only [bind, Except.bind]
  cases target with
  | illegal =>
    exact ⟨_, rfl, h.next ht hstate' he hvalid hext h.nodup (fun _ => id) hold (.inl rfl)⟩
  | unknown => exact hcorrect.elim
  | state target =>
    dsimp only
    obtain ⟨-, m', -, hm', -⟩ := hcorrect
    obtain ⟨hlt, -⟩ := List.getElem?_eq_some_iff.1 hm'
    split
    · rename_i hnew
      refine ⟨_, rfl, h.next ht hstate' he hvalid hext h.nodup.insert
        (fun _ => List.mem_insert_of_mem) (fun s hs => ?_)
        (.inr ⟨target, rfl, .inr List.mem_insert_self⟩)⟩
      obtain rfl | hs := List.mem_insert_iff.1 hs
      · exact ⟨hnew.1, hnew.2, hlt⟩
      · exact hold s hs
    · rename_i hseen
      have hmem : target ∈ state :: handled := by
        rw [List.mem_cons]
        by_cases hs : target = state
        · exact .inl hs
        · exact .inr (Decidable.of_not_not fun hn => hseen ⟨hn, hs⟩)
      exact ⟨_, rfl, h.next ht hstate' he hvalid hext h.nodup (fun _ => id) hold
        (.inr ⟨target, rfl, .inl hmem⟩)⟩

theorem length_le_of_forall_lt {l : List Nat} (hn : l.Nodup) (h : ∀ s ∈ l, s < n) :
    l.length ≤ n := by
  have hsub : l ⊆ List.range n := fun s hs => List.mem_range.2 (h s hs)
  have hle := (hn.subperm hsub).length_le
  rwa [List.length_range] at hle

/-- All states in the list are handled: their transitions are resolved and stay in the list. -/
structure Closed (fsa : FUFiniteStateAutomaton fu) (states : List Nat) : Prop where
  lt : ∀ s ∈ states, s < fsa.stateCollisionMatrices.length
  leads : ∀ s ∈ states, fsa.Leads s (fu.operationCount + 1) (· ∈ states)

/-- Every round handles one more state, and there are not more states than matrices. -/
theorem buildLoop_ok (hfits : fu.Fits) (order : List Nat → Nat) (h : fsa.Valid)
    (hhandled : handled.Nodup) (hlt : ∀ s ∈ handled, s < fsa.stateCollisionMatrices.length)
    (hclosed : ∀ s ∈ handled, fsa.Leads s (fu.operationCount + 1) fun k =>
      k ∈ handled ∨ k ∈ unfinished)
    (hunfinished : unfinished.Nodup)
    (hnew : ∀ s ∈ unfinished, s ∉ handled ∧ s < fsa.stateCollisionMatrices.length)
    (hrounds : stateBound fu ≤ rounds + handled.length) :
    ∃ fsa' states, buildLoop order rounds fsa handled unfinished = .ok (some fsa') ∧
      fsa'.Valid ∧ fsa'.Extends fsa ∧ fsa'.Closed states ∧ handled ⊆ states ∧
      unfinished ⊆ states := by
  induction rounds generalizing fsa handled unfinished with
  | zero =>
    cases unfinished with
    | nil =>
      refine ⟨fsa, handled, by rw [buildLoop], h, Extends.refl fsa, ⟨hlt, fun s hs => ?_⟩,
        List.Subset.refl handled, List.nil_subset handled⟩
      exact (hclosed s hs).mono _ fun k hk => hk.resolve_right List.not_mem_nil
    | cons s l =>
      exfalso
      obtain ⟨hs, hs'⟩ := hnew s List.mem_cons_self
      have hle := length_le_of_forall_lt (List.nodup_cons.2 ⟨hs, hhandled⟩)
        (List.forall_mem_cons.2 ⟨hs', hlt⟩)
      have hbound := h.length_le
      rw [List.length_cons] at hle
      omega
  | succ rounds ih =>
    cases unfinished with
    | nil =>
      refine ⟨fsa, handled, by rw [buildLoop], h, Extends.refl fsa, ⟨hlt, fun s hs => ?_⟩,
        List.Subset.refl handled, List.nil_subset handled⟩
      exact (hclosed s hs).mono _ fun k hk => hk.resolve_right List.not_mem_nil
    | cons s l =>
      have hpos : order (s :: l) % (s :: l).length < (s :: l).length :=
        Nat.mod_lt _ (Nat.zero_lt_succ l.length)
      generalize hstate : (s :: l).getD (order (s :: l) % (s :: l).length) s = state
      have hmem : state ∈ s :: l := by
        rw [← hstate, List.getD_eq_getElem?_getD, List.getElem?_eq_getElem hpos]
        exact List.getElem_mem hpos
      have hsplit : ∀ k ∈ s :: l, k = state ∨ k ∈ (s :: l).erase state := by
        intro k hk
        by_cases hks : k = state
        · exact .inl hks
        · exact .inr (hunfinished.mem_erase_iff.2 ⟨hks, hk⟩)
      obtain ⟨hfree, hstate'⟩ := hnew state hmem
      have hstart : Round fsa handled ((s :: l).erase state) state 0
          (fsa, (s :: l).erase state) := by
        refine ⟨h, Extends.refl fsa, hunfinished.erase state, fun s' hs' => ?_, fun s' hs' => ?_,
          fun _ hk => hk, fun t ht => (Nat.not_lt_zero t ht).elim, hfree⟩
        · obtain ⟨hne, hs'⟩ := hunfinished.mem_erase_iff.1 hs'
          exact ⟨(hnew s' hs').1, hne, (hnew s' hs').2⟩
        · refine (hclosed s' hs').mono _ fun k hk => ?_
          rcases hk with hk | hk
          · exact .inl (List.mem_cons_of_mem _ hk)
          · rcases hsplit k hk with rfl | hk
            · exact .inl List.mem_cons_self
            · exact .inr hk
      obtain ⟨acc, he, hacc⟩ := foldlM_range_ok (Round fsa handled ((s :: l).erase state) state)
        (fun t ht acc hacc => hacc.resolve hfits hstate' ht) hstart
      have hlength := hacc.extend.length_le
      obtain ⟨fsa', states, he', hvalid, hext, hstates, hsub, hsub'⟩ := ih hacc.valid
        (List.nodup_cons.2 ⟨hfree, hhandled⟩)
        (List.forall_mem_cons.2 ⟨Nat.lt_of_lt_of_le hstate' hlength,
          fun s' hs' => Nat.lt_of_lt_of_le (hlt s' hs') hlength⟩)
        (List.forall_mem_cons.2 ⟨hacc.resolved, hacc.closed⟩) hacc.nodup
        (fun s' hs' => ⟨List.not_mem_cons_of_ne_of_not_mem (hacc.unfinished s' hs').2.1
          (hacc.unfinished s' hs').1, (hacc.unfinished s' hs').2.2⟩)
        (by rw [List.length_cons]; omega)
      refine ⟨fsa', states, ?_, hvalid, hext.trans hacc.extend, hstates,
        fun k hk => hsub (List.mem_cons_of_mem _ hk), fun k hk => ?_⟩
      · rw [buildLoop, hstate, he]
        exact he'
      · rcases hsplit k hk with rfl | hk
        · exact hsub List.mem_cons_self
        · exact hsub' (hacc.noted k hk)

theorem Valid.buildStateMachine (hfits : fu.Fits) (order : List Nat → Nat) (h : fsa.Valid)
    (hrounds : stateBound fu ≤ rounds) :
    ∃ fsa' states, fsa.buildStateMachine order rounds = .ok (some fsa') ∧ fsa'.Valid ∧
      fsa'.Extends fsa ∧ fsa'.Closed states ∧ 0 ∈ states := by
  obtain ⟨hpos, -⟩ := List.getElem?_eq_some_iff.1 h.start
  obtain ⟨fsa', states, he, hvalid, hext, hclosed, -, hsub⟩ := buildLoop_ok hfits order h
    List.nodup_nil (List.forall_mem_nil _) (List.forall_mem_nil _) (List.nodup_singleton 0)
    (List.forall_mem_singleton.2 ⟨List.not_mem_nil, hpos⟩) hrounds
  exact ⟨fsa', states, he, hvalid, hext, hclosed, hsub List.mem_cons_self⟩

end FUFiniteStateAutomaton

/-- Building all states keeps what the detector stands for. -/
theorem FSADetector.Ready.initializeAllStates {fu : FunctionUnit} {d : FSADetector fu}
    {hist : List (Fin fu.operationCount × Nat)} (hfits : fu.Fits) (h : d.Ready hist)
    (order : List Nat → Nat) (hrounds : FUFiniteStateAutomaton.stateBound fu ≤ rounds) :
    ∃ d', d.initializeAllStates order rounds = .ok (some d') ∧ d'.Ready hist := by
  obtain ⟨fsa', -, he, hvalid, hext, -, -⟩ := h.valid.buildStateMachine hfits order hrounds
  obtain ⟨k, m, hnext, hm, hbits⟩ := h.next
  obtain ⟨k', m', hcurrent, hm', hbits'⟩ := h.current
  refine ⟨{ d with fsa := fsa' }, ?_, ⟨hvalid, k, m, hnext, hext.get hm, hbits⟩, k', m', hcurrent,
    hext.get hm', hbits'⟩
  rw [FSADetector.initializeAllStates, he]
  rfl

end ConflictDetection
end OpenAsip
