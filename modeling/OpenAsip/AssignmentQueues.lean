import Mathlib.Algebra.Order.Ring.Int
import Mathlib.Data.List.Induction
import Mathlib.Data.Nat.ModEq
import OpenAsip.SimValues

namespace OpenAsip.Simulator
set_option autoImplicit true

/-- The ring of the waiting assignments, each the value and where it goes. -/
structure AssignmentQueue (ι : Type u) (α : Type v) where
  assignmentQueue : List (List (α × ι))
  position : Nat
  maxLatency : Nat

theorem mod_add_inj {m k n n' : Nat} (hn : 1 ≤ n) (hm : n ≤ m) (hn' : 1 ≤ n') (hm' : n' ≤ m)
    (h : (k + n) % m = (k + n') % m) : n = n' := by
  have hmod : n ≡ n' [MOD m] := Nat.ModEq.add_left_cancel' k h
  have hmod' : n - 1 ≡ n' - 1 [MOD m] := by
    apply Nat.ModEq.add_right_cancel' 1
    rwa [Nat.sub_add_cancel hn, Nat.sub_add_cancel hn']
  have heq : n - 1 = n' - 1 := hmod'.eq_of_lt_of_lt (by omega) (by omega)
  omega

namespace AssignmentQueue

variable {ι : Type u} {α : Type v} {σ : Type w} (assign : σ → α × ι → σ) {maxLatency n : Nat}

def create (maxLatency : Nat) : AssignmentQueue ι α :=
  ⟨List.replicate maxLatency [], 0, maxLatency⟩

/-- The numbers are those of `int`. -/
def addAssignment (q : AssignmentQueue ι α) (s : σ) (assignValue : α) (assignTarget : ι)
    (latency : Int) : Outcome (AssignmentQueue ι α × σ) :=
  if q.maxLatency = 0 then .ok (q, s)
  else if ¬ (0 ≤ latency ∧ latency ≤ q.maxLatency) then .error .assertion
  else if latency = 0 then .ok (q, assign s (assignValue, assignTarget))
  else if 2 ^ 31 ≤ q.position + latency.toNat then .error .undefined
  else
    let location := (q.position + latency.toNat) % q.maxLatency
    match q.assignmentQueue[location]? with
    | none => .error .undefined
    | some bucket =>
      let ring := q.assignmentQueue.set location (bucket ++ [(assignValue, assignTarget)])
      .ok ({ q with assignmentQueue := ring }, s)

/-- The loop does the assignments from the front until the bucket is empty. -/
def advanceClock (q : AssignmentQueue ι α) (s : σ) : Outcome (AssignmentQueue ι α × σ) :=
  if q.maxLatency = 0 then .ok (q, s)
  else
    let position := (q.position + 1) % q.maxLatency
    match q.assignmentQueue[position]? with
    | none => .error .undefined
    | some bucket =>
      .ok (⟨q.assignmentQueue.set position [], position, q.maxLatency⟩, bucket.foldl assign s)

inductive Call (ι : Type u) (α : Type v) where
  | addAssignment (assignValue : α) (assignTarget : ι) (latency : Int)
  | advanceClock
deriving DecidableEq

def call (qs : AssignmentQueue ι α × σ) : Call ι α → Outcome (AssignmentQueue ι α × σ)
  | .addAssignment v t latency => qs.1.addAssignment assign qs.2 v t latency
  | .advanceClock => qs.1.advanceClock assign qs.2

def run (maxLatency : Nat) (s : σ) (calls : List (Call ι α)) :
    Outcome (AssignmentQueue ι α × σ) :=
  calls.foldlM (call assign) (create maxLatency, s)

/-- The store of the targets. -/
def write [DecidableEq ι] (targets : ι → Tools.SimValue) (a : Tools.SimValue × ι) :
    ι → Tools.SimValue :=
  Function.update targets a.2 ((targets a.2).assign a.1)

/-- The record of the assignments in the order in which they are done. -/
def log (done : List (α × ι)) (a : α × ι) : List (α × ι) := done ++ [a]

def Call.Valid (maxLatency : Nat) : Call ι α → Prop
  | .addAssignment _ _ latency => 0 ≤ latency ∧ latency ≤ maxLatency
  | .advanceClock => True

/-- How often the clock has been advanced. -/
def clocks : List (Call ι α) → Nat
  | [] => 0
  | .addAssignment _ _ _ :: calls => clocks calls
  | .advanceClock :: calls => clocks calls + 1

/-- The assignments that are to be done when the clock has been advanced `n` times more, in the
order in which they have been added. -/
def waiting (n : Nat) : List (Call ι α) → List (α × ι)
  | [] => []
  | .addAssignment v t latency :: calls =>
    if latency = (clocks calls + n : Nat) then (v, t) :: waiting n calls else waiting n calls
  | .advanceClock :: calls => waiting n calls

/-- The assignments that are to be done by a call after the calls before it. -/
def due (before : List (Call ι α)) : Call ι α → List (α × ι)
  | .addAssignment v t latency => if latency = 0 then [(v, t)] else []
  | .advanceClock => waiting 1 before

/-- Every call does the assignments that are due and no others. -/
def InTime (maxLatency : Nat) (calls : List (Call ι α)) : Prop :=
  ∀ before c after, calls = before ++ c :: after → ∃ q q' done,
    run log maxLatency [] before = .ok (q, done) ∧
      call log (q, done) c = .ok (q', done ++ due before c)

/-- An assignment is only added to a ring that has a bucket, and its distance from the beginning
of the ring is an `int`. -/
def Fits (maxLatency : Nat) (before : List (Call ι α)) : Call ι α → Prop
  | .addAssignment _ _ latency => 0 < maxLatency ∧
      (latency = 0 ∨ clocks before % maxLatency + latency.toNat < 2 ^ 31)
  | .advanceClock => True

theorem clocks_append (calls calls' : List (Call ι α)) :
    clocks (calls ++ calls') = clocks calls + clocks calls' := by
  induction calls with
  | nil => exact (Nat.zero_add _).symm
  | cons c calls ih =>
    cases c with
    | addAssignment v t latency => exact ih
    | advanceClock =>
      rw [List.cons_append, clocks, clocks, ih]
      exact Nat.add_right_comm ..

theorem waiting_addAssignment (n : Nat) (calls : List (Call ι α)) (v : α) (t : ι) (latency : Int) :
    waiting n (calls ++ [.addAssignment v t latency]) =
      waiting n calls ++ if latency = n then [(v, t)] else [] := by
  induction calls with
  | nil => simp [waiting, clocks]
  | cons c calls ih =>
    cases c with
    | addAssignment v' t' latency' =>
      simp only [List.cons_append, waiting, clocks_append, clocks, Nat.add_zero, ih]
      split
      · exact (List.cons_append ..).symm
      · rfl
    | advanceClock => exact ih

theorem waiting_advanceClock (n : Nat) (calls : List (Call ι α)) :
    waiting n (calls ++ [.advanceClock]) = waiting (n + 1) calls := by
  induction calls with
  | nil => rfl
  | cons c calls ih =>
    cases c with
    | addAssignment v t latency =>
      have hcount : clocks calls + 1 + n = clocks calls + (n + 1) := Nat.add_right_comm ..
      simp only [List.cons_append, waiting, clocks_append, clocks, Nat.zero_add, ih, hcount]
    | advanceClock => exact ih

/-- Nothing waits longer than the maximum latency. -/
theorem waiting_of_lt {calls : List (Call ι α)} (hvalid : ∀ c ∈ calls, c.Valid maxLatency)
    (hn : maxLatency < n) : waiting n calls = [] := by
  induction calls with
  | nil => rfl
  | cons c calls ih =>
    replace ih := ih fun c' hc' => hvalid c' (List.mem_cons_of_mem c hc')
    cases c with
    | addAssignment v t latency =>
      obtain ⟨_, hle⟩ := hvalid _ List.mem_cons_self
      rw [waiting, if_neg, ih]
      omega
    | advanceClock => exact ih

/-- The bucket that is reached when the clock has been advanced `n` times more holds what is to be
done then. -/
structure Represents (maxLatency : Nat) (before : List (Call ι α)) (q : AssignmentQueue ι α) :
    Prop where
  maxLatency_eq : q.maxLatency = maxLatency
  position_eq : q.position = clocks before % maxLatency
  length_eq : q.assignmentQueue.length = maxLatency
  bucket : ∀ n, 1 ≤ n → n ≤ maxLatency →
    q.assignmentQueue[(clocks before + n) % maxLatency]? = some (waiting n before)

theorem create_represents (maxLatency : Nat) :
    Represents maxLatency [] (create maxLatency : AssignmentQueue ι α) where
  maxLatency_eq := rfl
  position_eq := (Nat.zero_mod _).symm
  length_eq := List.length_replicate ..
  bucket := by
    intro n hn hle
    have hlt : (0 + n) % maxLatency < maxLatency := Nat.mod_lt _ (by omega)
    rw [create, clocks, List.getElem?_replicate, if_pos hlt]
    rfl

/-- An assignment that has to wait is put after those already in its bucket. -/
theorem Represents.addAssignment (h : Represents maxLatency before q) (s : σ) (v : α) (t : ι)
    (hn : 1 ≤ n) (hle : n ≤ maxLatency) (hfits : clocks before % maxLatency + n < 2 ^ 31) :
    ∃ q', q.addAssignment assign s v t n = .ok (q', s) ∧
      Represents maxLatency (before ++ [.addAssignment v t n]) q' := by
  have hlocation : (q.position + (n : Int).toNat) % q.maxLatency =
      (clocks before + n) % maxLatency := by
    rw [h.position_eq, h.maxLatency_eq, Int.toNat_natCast, Nat.mod_add_mod]
  have hno : ¬ 2 ^ 31 ≤ q.position + (n : Int).toNat := by
    rw [h.position_eq, Int.toNat_natCast]
    exact Nat.not_le.2 hfits
  have hmax := h.maxLatency_eq
  rw [AssignmentQueue.addAssignment, if_neg (by omega), if_neg (by omega), if_neg (by omega),
    if_neg hno]
  simp only [hlocation, h.bucket n hn hle]
  refine ⟨_, rfl, ?_⟩
  constructor
  · exact hmax
  · rw [clocks_append]
    exact h.position_eq
  · simpa only [List.length_set] using h.length_eq
  · intro n' hn' hle'
    have hlt : (clocks before + n) % maxLatency < q.assignmentQueue.length := by
      rw [h.length_eq]
      exact Nat.mod_lt _ (by omega)
    rw [clocks_append, waiting_addAssignment]
    simp only [clocks, Nat.add_zero]
    by_cases heq : n = n'
    · subst heq
      rw [List.getElem?_set_self hlt, if_pos rfl]
    · have hne : (clocks before + n) % maxLatency ≠ (clocks before + n') % maxLatency := by
        intro hmod
        exact heq (mod_add_inj hn hle hn' hle' hmod)
      rw [List.getElem?_set_ne hne, h.bucket n' hn' hle', if_neg, List.append_nil]
      omega

/-- The clock reaches the bucket of what is due, and that bucket becomes the last one. -/
theorem Represents.advanceClock (h : Represents maxLatency before q) (hpos : 0 < maxLatency)
    (hvalid : ∀ c ∈ before, c.Valid maxLatency) (s : σ) :
    ∃ q', q.advanceClock assign s = .ok (q', (waiting 1 before).foldl assign s) ∧
      Represents maxLatency (before ++ [.advanceClock]) q' := by
  have hposition : (q.position + 1) % q.maxLatency = (clocks before + 1) % maxLatency := by
    rw [h.position_eq, h.maxLatency_eq, Nat.mod_add_mod]
  have hmax := h.maxLatency_eq
  rw [AssignmentQueue.advanceClock, if_neg (by omega)]
  simp only [hposition, h.bucket 1 (Nat.le_refl 1) hpos]
  refine ⟨_, rfl, ?_⟩
  constructor
  · exact hmax
  · rw [clocks_append]
    rfl
  · simpa only [List.length_set] using h.length_eq
  · intro n hn hle
    rw [clocks_append, waiting_advanceClock]
    simp only [clocks, Nat.zero_add, Nat.add_assoc (clocks before), Nat.add_comm 1 n]
    rcases Nat.lt_or_eq_of_le hle with hlt | heq
    · have hne : (clocks before + 1) % maxLatency ≠ (clocks before + (n + 1)) % maxLatency := by
        intro hmod
        have := mod_add_inj (Nat.le_refl 1) hpos (Nat.le_add_left 1 n) hlt hmod
        omega
      rw [List.getElem?_set_ne hne, h.bucket (n + 1) (Nat.le_add_left 1 n) hlt]
    · have hround : (clocks before + (n + 1)) % maxLatency = (clocks before + 1) % maxLatency := by
        rw [heq, Nat.add_comm maxLatency 1, ← Nat.add_assoc, Nat.add_mod_right]
      have hlt : (clocks before + 1) % maxLatency < q.assignmentQueue.length := by
        rw [h.length_eq]
        exact Nat.mod_lt _ hpos
      rw [hround, List.getElem?_set_self hlt, waiting_of_lt hvalid (by omega)]

theorem Represents.call_ok (h : Represents maxLatency before q)
    (hbefore : ∀ c ∈ before, c.Valid maxLatency) (hc : c.Valid maxLatency)
    (hpos : 0 < maxLatency) (hfits : Fits maxLatency before c) (s : σ) :
    ∃ q', call assign (q, s) c = .ok (q', (due before c).foldl assign s) ∧
      Represents maxLatency (before ++ [c]) q' := by
  cases c with
  | addAssignment v t latency =>
    obtain ⟨hnonneg, hle⟩ := hc
    obtain ⟨n, rfl⟩ := Int.eq_ofNat_of_zero_le hnonneg
    rcases Nat.eq_zero_or_pos n with rfl | hn
    · have hmax := h.maxLatency_eq
      refine ⟨q, ?_, ?_⟩
      · change q.addAssignment assign s v t 0 = _
        rw [AssignmentQueue.addAssignment, if_neg (by omega), if_neg (by omega)]
        rfl
      · constructor
        · exact hmax
        · rw [clocks_append]
          exact h.position_eq
        · exact h.length_eq
        · intro n' hn' hle'
          rw [clocks_append, waiting_addAssignment, if_neg (by omega), List.append_nil]
          exact h.bucket n' hn' hle'
    · obtain ⟨q', hcall, hq'⟩ := h.addAssignment assign s v t hn (Int.ofNat_le.1 hle)
        (hfits.2.resolve_left (by omega))
      refine ⟨q', ?_, hq'⟩
      rw [AssignmentQueue.call, hcall, due, if_neg (by omega)]
      rfl
  | advanceClock => exact h.advanceClock assign hpos hbefore s

/-- A distance that is no `int` overflows. -/
theorem Represents.call_undefined (h : Represents maxLatency before q) (hc : c.Valid maxLatency)
    (hpos : 0 < maxLatency) (hfits : ¬ Fits maxLatency before c) (s : σ) :
    call assign (q, s) c = .error .undefined := by
  cases c with
  | addAssignment v t latency =>
    obtain ⟨hnonneg, hle⟩ := hc
    have hmax := h.maxLatency_eq
    rw [Fits, not_and] at hfits
    replace hfits := not_or.1 (hfits hpos)
    change q.addAssignment assign s v t latency = _
    rw [AssignmentQueue.addAssignment, if_neg (by omega), if_neg (by omega), if_neg hfits.1, if_pos]
    rw [h.position_eq]
    exact Nat.not_lt.1 hfits.2
  | advanceClock => exact (hfits trivial).elim

theorem call_of_empty (q : AssignmentQueue ι α) (h : q.maxLatency = 0) (s : σ) (c : Call ι α) :
    call assign (q, s) c = .ok (q, s) := by
  cases c with
  | addAssignment v t latency => exact if_pos h
  | advanceClock => exact if_pos h

/-- A ring without buckets never does anything. -/
theorem run_of_empty (s : σ) (calls : List (Call ι α)) :
    run assign 0 s calls = .ok (create 0, s) := by
  rw [run]
  induction calls with
  | nil => rfl
  | cons c calls ih =>
    rw [List.foldlM_cons, call_of_empty assign (create 0) rfl]
    exact ih

theorem run_concat (s : σ) (calls : List (Call ι α)) (c : Call ι α) :
    run assign maxLatency s (calls ++ [c]) =
      run assign maxLatency s calls >>= fun qs => call assign qs c :=
  foldlM_concat ..

/-- A run that goes through, with the assignments in a ring that represents what is waiting. -/
theorem run_waiting {calls : List (Call ι α)} (hpos : 0 < maxLatency)
    (hvalid : ∀ c ∈ calls, c.Valid maxLatency) (s : σ)
    (hrun : run assign maxLatency s calls = .ok (q, s')) : Represents maxLatency calls q := by
  induction calls using List.reverseRecOn generalizing q s' with
  | nil =>
    cases hrun
    exact create_represents maxLatency
  | append_singleton calls c ih =>
    rw [run_concat] at hrun
    obtain ⟨⟨t, u⟩, ht, hc⟩ := Except.bind_ok hrun
    have hbefore : ∀ c' ∈ calls, c'.Valid maxLatency := by
      intro c' hc'
      exact hvalid c' (List.mem_append_left _ hc')
    have hlast : c.Valid maxLatency := hvalid c (List.mem_append_right _ List.mem_cons_self)
    have hreps := ih hbefore ht
    by_cases hfits : Fits maxLatency calls c
    · obtain ⟨q', hcall, hq'⟩ := hreps.call_ok assign hbefore hlast hpos hfits u
      rw [hcall] at hc
      cases hc
      exact hq'
    · rw [hreps.call_undefined assign hlast hpos hfits] at hc
      cases hc

/-- A run in which every assignment fits goes through. -/
theorem run_ok {calls : List (Call ι α)} (hpos : 0 < maxLatency)
    (hvalid : ∀ c ∈ calls, c.Valid maxLatency) (s : σ)
    (hfits : ∀ before c after, calls = before ++ c :: after → Fits maxLatency before c) :
    ∃ q s', run assign maxLatency s calls = .ok (q, s') := by
  induction calls using List.reverseRecOn with
  | nil => exact ⟨_, _, rfl⟩
  | append_singleton calls c ih =>
    have hbefore : ∀ c' ∈ calls, c'.Valid maxLatency := by
      intro c' hc'
      exact hvalid c' (List.mem_append_left _ hc')
    have hlast : c.Valid maxLatency := hvalid c (List.mem_append_right _ List.mem_cons_self)
    obtain ⟨q, s', hrun⟩ := ih hbefore fun before c' after heq => by
      apply hfits before c' (after ++ [c])
      rw [heq, List.append_assoc, List.cons_append]
    have hreps := run_waiting assign hpos hbefore s hrun
    obtain ⟨q', hcall, _⟩ := hreps.call_ok assign hbefore hlast hpos (hfits calls c [] rfl) s'
    refine ⟨q', (due calls c).foldl assign s', ?_⟩
    rw [run_concat, hrun]
    exact hcall

/-- Recorded assignments are put after those recorded before. -/
theorem foldl_log (done l : List (α × ι)) : l.foldl log done = done ++ l := by
  induction l generalizing done with
  | nil => exact (List.append_nil done).symm
  | cons a l ih =>
    rw [List.foldl_cons, ih, log, List.append_assoc]
    rfl

/-- What the recorded assignments make of the targets is what the call makes of them. -/
theorem call_of_log (hcall : call log (q, done) c = .ok (q', done')) :
    ∃ l, done' = done ++ l ∧ ∀ s : σ, call assign (q, s) c = .ok (q', l.foldl assign s) := by
  cases c with
  | addAssignment v t latency =>
    change q.addAssignment log done v t latency = _ at hcall
    change ∃ l, done' = done ++ l ∧
      ∀ s : σ, q.addAssignment assign s v t latency = .ok (q', l.foldl assign s)
    simp only [addAssignment] at hcall ⊢
    split at hcall
    · rename_i hempty
      cases hcall
      exact ⟨[], (List.append_nil _).symm, fun s => if_pos hempty⟩
    · rename_i hempty
      simp only [if_neg hempty]
      split at hcall
      · cases hcall
      · rename_i hvalid
        simp only [if_neg hvalid]
        split at hcall
        · rename_i hzero
          cases hcall
          exact ⟨[(v, t)], rfl, fun s => if_pos hzero⟩
        · rename_i hzero
          simp only [if_neg hzero]
          split at hcall
          · cases hcall
          · rename_i hfits
            simp only [if_neg hfits]
            split at hcall
            · cases hcall
            · cases hcall
              exact ⟨[], (List.append_nil _).symm, fun s => rfl⟩
  | advanceClock =>
    change q.advanceClock log done = _ at hcall
    change ∃ l, done' = done ++ l ∧ ∀ s : σ, q.advanceClock assign s = .ok (q', l.foldl assign s)
    simp only [advanceClock] at hcall ⊢
    split at hcall
    · rename_i hempty
      cases hcall
      exact ⟨[], (List.append_nil _).symm, fun s => if_pos hempty⟩
    · rename_i hempty
      simp only [if_neg hempty]
      split at hcall
      · cases hcall
      · rename_i bucket _
        cases hcall
        exact ⟨bucket, foldl_log done bucket, fun s => rfl⟩

/-- The targets of a run hold what the recorded assignments leave in them. -/
theorem run_of_log (calls : List (Call ι α)) (s : σ)
    (hrun : run log maxLatency [] calls = .ok (q, done)) :
    run assign maxLatency s calls = .ok (q, done.foldl assign s) := by
  induction calls using List.reverseRecOn generalizing q done with
  | nil =>
    cases hrun
    rfl
  | append_singleton calls c ih =>
    rw [run_concat] at hrun
    obtain ⟨⟨q', done'⟩, hbefore, hcall⟩ := Except.bind_ok hrun
    obtain ⟨l, rfl, hassign⟩ := call_of_log assign hcall
    rw [run_concat, ih hbefore, List.foldl_append]
    exact hassign _

theorem run_write [DecidableEq ι] (calls : List (Call ι Tools.SimValue))
    (targets : ι → Tools.SimValue)
    (hrun : run log maxLatency [] calls = .ok (q, done)) :
    run write maxLatency targets calls = .ok (q, done.foldl write targets) :=
  run_of_log write calls targets hrun

end AssignmentQueue

end OpenAsip.Simulator
