import OpenAsip.Outcomes
import Mathlib.Data.Int.Interval
import Mathlib.Data.Finset.Card

namespace OpenAsip.Simulator
set_option autoImplicit true

/-- A result of a function unit with the cycle at which it is ready. -/
structure FUResultElement (α : Type u) where
  cycles : Int
  value : α
  used : Bool

/-- The results of a port in a compiled simulation. -/
structure FUResults (α : Type u) where
  data : List (FUResultElement α)
  numberOfElements : Int

namespace FUResults
variable {α : Type u}

/-- The generated code makes room for one result more than the latency of the unit. -/
def create (maxLatency : Nat) (value : α) : FUResults α :=
  ⟨List.replicate (maxLatency + 1) ⟨0, value, false⟩, 0⟩

def put (r : FUResults α) (i : Nat) (result : FUResultElement α) (numberOfElements : Int) :
    FUResults α :=
  ⟨r.data.set i result, numberOfElements⟩

/-- The loop of `addFUResult` over the results with their places. The second argument is the first
old result that it has met. -/
def addFrom (r : FUResults α) (cycleCount : Int) (new : FUResultElement α) :
    List (FUResultElement α × Nat) → Option (FUResultElement α × Nat) → Outcome (FUResults α)
  | [], _ => .error .assertion
  | (result, i) :: rest, old =>
    if result.used then
      if result.cycles ≤ cycleCount then
        match old with
        | none => addFrom r cycleCount new rest (some (result, i))
        | some (oldResult, oldResultIndex) =>
          if oldResult.cycles < result.cycles then .ok (r.put oldResultIndex new r.numberOfElements)
          else .ok (r.put i new (r.numberOfElements - 1 + 1))
      else addFrom r cycleCount new rest old
    else .ok (r.put i new (r.numberOfElements + 1))

def addFUResult (r : FUResults α) (cycleCount : Int) (value : α) (latency : Int) :
    Outcome (FUResults α) :=
  r.addFrom cycleCount ⟨cycleCount + latency, value, true⟩ r.data.zipIdx none

/-- `static_cast<int>`. -/
def toInt (n : Int) : Int := n.bmod (2 ^ 32)

/-- Whether a result that is used is ready. -/
def due (cycles : Int) (result : FUResultElement α) : Bool :=
  result.used && toInt (result.cycles - cycles) ≤ 0

/-- The loop of `FUResult`, with the number of the results, the greatest difference so far and the
target. -/
def readFrom (cycles : Int) : List (FUResultElement α) → Int → Int → α →
    List (FUResultElement α) × Int × α
  | [], numberOfElements, _, target => ([], numberOfElements, target)
  | result :: rest, numberOfElements, maxDiff, target =>
    if numberOfElements = 0 then (result :: rest, numberOfElements, target)
    else if due cycles result then
      let diff := toInt (result.cycles - cycles)
      let read := readFrom cycles rest (numberOfElements - 1)
        (if maxDiff ≤ diff then diff else maxDiff) (if maxDiff ≤ diff then result.value else target)
      ({ result with used := false } :: read.1, read.2)
    else
      let read := readFrom cycles rest numberOfElements maxDiff target
      (result :: read.1, read.2)

def FUResult (target : α) (r : FUResults α) (cycles : Int) : FUResults α × α :=
  let read := readFrom cycles r.data r.numberOfElements (-2147483647) target
  (⟨read.1, read.2.1⟩, read.2.2)

def clearFUResults (r : FUResults α) : FUResults α :=
  if r.numberOfElements = 0 then r
  else ⟨r.data.map fun result => { result with used := false }, 0⟩

/-- What the generated code does with the results of a port and with the port. -/
inductive Event (α : Type u) where
  | addFUResult (cycle latency : Int) (value : α)
  | FUResult (cycle : Int)
  | assign (value : α)

def step (s : FUResults α × α) : Event α → Outcome (FUResults α × α)
  | .addFUResult cycle latency value =>
    (s.1.addFUResult cycle value latency).map fun r => (r, s.2)
  | .FUResult cycle => .ok (s.1.FUResult s.2 cycle)
  | .assign value => .ok (s.1.clearFUResults, value)

def run (s : FUResults α × α) (events : List (Event α)) : Outcome (FUResults α × α) :=
  events.foldlM step s

end FUResults

/-- An operation that has been triggered. -/
structure Triggered (α : Type u) where
  cycle : Int
  latency : Int
  value : α

def Triggered.ready (x : Triggered α) : Int := x.cycle + x.latency

/-- What a port is to show: the operations since it was assigned to, what it had then, and the cycle
at which it was read last. -/
structure PortHistory (α : Type u) where
  log : List (Triggered α)
  initial : α
  lastRead : Int

namespace PortHistory
variable {α : Type u}

/-- The value of a port at a cycle is that of the last result that is ready. -/
def Shows (h : PortHistory α) (cycle : Int) (value : α) : Prop :=
  (∃ x ∈ h.log, x.value = value ∧ x.ready ≤ cycle ∧
    ∀ y ∈ h.log, y.ready ≤ cycle → y.ready ≤ x.ready) ∨
  (∀ y ∈ h.log, cycle < y.ready) ∧ value = h.initial

def next (h : PortHistory α) : FUResults.Event α → PortHistory α
  | .addFUResult cycle latency value => { h with log := ⟨cycle, latency, value⟩ :: h.log }
  | .FUResult cycle => { h with lastRead := cycle }
  | .assign value => { h with log := [], initial := value }

/-- An operation is triggered in a cycle of its own, and its result is ready in a cycle of its own.
A result does not wait longer than the greatest `int` for being read. -/
def Valid (maxLatency : Nat) (h : PortHistory α) : FUResults.Event α → Prop
  | .addFUResult cycle latency _ => h.lastRead ≤ cycle ∧ 1 ≤ latency ∧ latency ≤ maxLatency ∧
    ∀ x ∈ h.log, x.cycle < cycle ∧ x.ready ≠ cycle + latency
  | .FUResult cycle => h.lastRead ≤ cycle ∧
    ∀ x ∈ h.log, x.cycle ≤ cycle ∧ (h.lastRead < x.ready → cycle - x.ready ≤ 2147483647)
  | .assign _ => True

def ValidEvents (maxLatency : Nat) : PortHistory α → List (FUResults.Event α) → Prop
  | _, [] => True
  | h, event :: events => h.Valid maxLatency event ∧ ValidEvents maxLatency (h.next event) events

def after (h : PortHistory α) (events : List (FUResults.Event α)) : PortHistory α :=
  events.foldl next h

end PortHistory

namespace FUResults
variable {α : Type u} {r r' : FUResults α} {new : FUResultElement α} {cycleCount : Int}

/-- A result is put where there is none, or in the place of an old one that another old one is no
earlier than. -/
def Replaces (r : FUResults α) (cycleCount : Int) (new : FUResultElement α) (r' : FUResults α) :
    Prop :=
  ∃ i e, r.data[i]? = some e ∧ r'.data = r.data.set i new ∧
    (e.used = false ∧ r'.numberOfElements = r.numberOfElements + 1 ∨
      (e.used = true ∧ e.cycles ≤ cycleCount ∧ r'.numberOfElements = r.numberOfElements) ∧
      ∃ j e', j ≠ i ∧ r.data[j]? = some e' ∧ e'.used = true ∧ e'.cycles ≤ cycleCount ∧
        e.cycles ≤ e'.cycles)

theorem addFrom_ok {l : List (FUResultElement α × Nat)}
    {old : Option (FUResultElement α × Nat)} (hl : ∀ x ∈ l, r.data[x.2]? = some x.1)
    (hnodup : (l.map Prod.snd).Nodup)
    (hold : ∀ x ∈ old, r.data[x.2]? = some x.1 ∧ x.1.used = true ∧ x.1.cycles ≤ cycleCount ∧
      x.2 ∉ l.map Prod.snd)
    (h : r.addFrom cycleCount new l old = .ok r') : r.Replaces cycleCount new r' := by
  induction l generalizing old with
  | nil => cases h
  | cons x l ih =>
    obtain ⟨result, i⟩ := x
    obtain ⟨hi, hl⟩ := List.forall_mem_cons.1 hl
    rw [List.map_cons, List.nodup_cons] at hnodup
    rw [addFrom.eq_def] at h
    dsimp only at h
    split at h
    · next hused =>
      split at h
      · next hready =>
        split at h
        · apply ih hl hnodup.2 ?_ h
          intro x hx
          cases hx
          exact ⟨hi, hused, hready, hnodup.1⟩
        · next oldResult o =>
          obtain ⟨ho, houtused, hoready, hnot⟩ := hold _ rfl
          have hne : o ≠ i := fun heq => hnot (heq ▸ List.mem_cons_self)
          split at h
          · next hlt =>
            cases h
            exact ⟨o, oldResult, ho, rfl, .inr ⟨⟨houtused, hoready, rfl⟩,
              i, result, hne.symm, hi, hused, hready, hlt.le⟩⟩
          · next hle =>
            cases h
            exact ⟨i, result, hi, rfl, .inr ⟨⟨hused, hready, Int.sub_add_cancel _ _⟩,
              o, oldResult, hne, ho, houtused, hoready, not_lt.1 hle⟩⟩
      · apply ih hl hnodup.2 ?_ h
        intro x hx
        obtain ⟨h₁, h₂, h₃, h₄⟩ := hold x hx
        exact ⟨h₁, h₂, h₃, fun hmem => h₄ (List.mem_cons_of_mem _ hmem)⟩
    · next hused =>
      cases h
      exact ⟨i, result, hi, rfl, .inl ⟨Bool.eq_false_of_not_eq_true hused, rfl⟩⟩

/-- Where no result can be put all places are used, and all but one by results that are not ready
yet. -/
theorem addFrom_error {l : List (FUResultElement α × Nat)}
    {old : Option (FUResultElement α × Nat)}
    (h : r.addFrom cycleCount new l old = .error fault) :
    (∀ x ∈ l, x.1.used = true) ∧
      ∀ x ∈ l, x.1.cycles ≤ cycleCount → old = none ∧ ∀ y ∈ l, y.1.cycles ≤ cycleCount → y = x := by
  induction l generalizing old with
  | nil => exact ⟨fun x hx => absurd hx List.not_mem_nil, fun x hx => absurd hx List.not_mem_nil⟩
  | cons x l ih =>
    obtain ⟨result, i⟩ := x
    rw [addFrom.eq_def] at h
    dsimp only at h
    split at h
    · next hused =>
      split at h
      · next hready =>
        split at h
        · obtain ⟨hall, hone⟩ := ih h
          have hnone : ∀ y ∈ l, ¬y.1.cycles ≤ cycleCount := by
            intro y hy hle
            cases (hone y hy hle).1
          refine ⟨List.forall_mem_cons.2 ⟨hused, hall⟩, fun x hx hle => ⟨rfl, fun y hy hle' => ?_⟩⟩
          rcases List.mem_cons.1 hx with rfl | hx
          · rcases List.mem_cons.1 hy with rfl | hy
            · rfl
            · exact absurd hle' (hnone y hy)
          · exact absurd hle (hnone x hx)
        · split at h
          · cases h
          · cases h
      · next hready =>
        obtain ⟨hall, hone⟩ := ih h
        refine ⟨List.forall_mem_cons.2 ⟨hused, hall⟩, fun x hx hle => ?_⟩
        rcases List.mem_cons.1 hx with rfl | hx
        · exact absurd hle hready
        · refine ⟨(hone x hx hle).1, fun y hy hle' => ?_⟩
          rcases List.mem_cons.1 hy with rfl | hy
          · exact absurd hle' hready
          · exact (hone x hx hle).2 y hy hle'
    · cases h

theorem addFUResult_ok (h : r.addFUResult cycleCount value latency = .ok r') :
    r.Replaces cycleCount ⟨cycleCount + latency, value, true⟩ r' := by
  apply addFrom_ok ?_ ?_ ?_ h
  · exact fun x hx => List.mem_zipIdx_iff_getElem?.1 hx
  · rw [List.zipIdx_map_snd]
    exact List.nodup_range'
  · intro x hx
    cases hx

theorem addFUResult_error (h : r.addFUResult cycleCount value latency = .error fault) :
    (∀ e ∈ r.data, e.used = true) ∧ ∀ (i j : Nat) (e e' : FUResultElement α),
      r.data[i]? = some e → r.data[j]? = some e' → e.cycles ≤ cycleCount →
        e'.cycles ≤ cycleCount → i = j := by
  obtain ⟨hall, hone⟩ := addFrom_error h
  constructor
  · intro e he
    obtain ⟨i, hi⟩ := List.mem_iff_getElem?.1 he
    exact hall (e, i) (List.mem_zipIdx_iff_getElem?.2 hi)
  · intro i j e e' hi hj hle hle'
    have heq := (hone (e, i) (List.mem_zipIdx_iff_getElem?.2 hi) hle).2 (e', j)
      (List.mem_zipIdx_iff_getElem?.2 hj) hle'
    cases heq
    rfl

def release (cycles : Int) (e : FUResultElement α) : FUResultElement α :=
  if due cycles e then { e with used := false } else e

def usedCount (l : List (FUResultElement α)) : Nat := l.countP fun e => e.used

theorem usedCount_cons (e : FUResultElement α) (l : List (FUResultElement α)) :
    usedCount (e :: l) = usedCount l + if e.used then 1 else 0 :=
  List.countP_cons

theorem usedCount_due {cycles : Int} {e : FUResultElement α} (h : due cycles e = true)
    (l : List (FUResultElement α)) (k : Nat) :
    ((usedCount (e :: l) + k : Nat) : Int) - 1 = (usedCount l + k : Nat) := by
  rw [usedCount_cons, if_pos (Bool.and_eq_true_iff.1 h).1]
  omega

theorem release_of_unused (cycles : Int) {l : List (FUResultElement α)} (h : usedCount l = 0) :
    ∀ e ∈ l, due cycles e = false := by
  intro e he
  have hunused := List.countP_eq_zero.1 h e he
  rw [due, Bool.eq_false_of_not_eq_true hunused]
  rfl

/-- The loop at the rest of the results, where `k` of those before stay used. -/
theorem readFrom_data (cycles : Int) (l : List (FUResultElement α)) (k : Nat) (maxDiff : Int)
    (target : α) :
    (readFrom cycles l (usedCount l + k : Nat) maxDiff target).1 = l.map (release cycles) ∧
      (readFrom cycles l (usedCount l + k : Nat) maxDiff target).2.1 =
        (usedCount (l.map (release cycles)) + k : Nat) := by
  induction l generalizing k maxDiff target with
  | nil => exact ⟨rfl, rfl⟩
  | cons e l ih =>
    rw [readFrom, List.map_cons]
    split
    · next hzero =>
      have hcount : usedCount (e :: l) = 0 := by omega
      have hnone : ∀ e' ∈ e :: l, release cycles e' = id e' :=
        fun e' he' => if_neg (Bool.eq_false_iff.1 (release_of_unused cycles hcount e' he'))
      rw [← List.map_cons, List.map_congr_left hnone, List.map_id]
      exact ⟨rfl, rfl⟩
    · by_cases hdue : due cycles e = true
      · have hrelease : release cycles e = { e with used := false } := if_pos hdue
        rw [if_pos hdue, usedCount_due hdue l k, hrelease]
        refine ⟨congrArg _ (ih k _ _).1, ?_⟩
        rw [usedCount_cons]
        exact (ih k _ _).2
      · have hrelease : release cycles e = e := if_neg hdue
        rw [if_neg hdue, hrelease, usedCount_cons, usedCount_cons, Nat.add_right_comm _ _ k,
          Nat.add_assoc _ k, Nat.add_right_comm _ _ k, Nat.add_assoc _ k]
        exact ⟨congrArg _ (ih _ _ _).1, (ih _ _ _).2⟩

/-- The value that is read is that of the last result that is due. -/
theorem readFrom_target (cycles : Int) (l : List (FUResultElement α)) (k : Nat) (maxDiff : Int)
    (target : α) :
    (∃ e ∈ l, due cycles e = true ∧ maxDiff ≤ toInt (e.cycles - cycles) ∧
      (readFrom cycles l (usedCount l + k : Nat) maxDiff target).2.2 = e.value ∧
      ∀ e' ∈ l, due cycles e' = true → toInt (e'.cycles - cycles) ≤ toInt (e.cycles - cycles)) ∨
    (∀ e ∈ l, due cycles e = true → toInt (e.cycles - cycles) < maxDiff) ∧
      (readFrom cycles l (usedCount l + k : Nat) maxDiff target).2.2 = target := by
  induction l generalizing k maxDiff target with
  | nil => exact .inr ⟨fun e he => absurd he List.not_mem_nil, rfl⟩
  | cons e l ih =>
    rw [readFrom]
    split
    · next hzero =>
      have hcount : usedCount (e :: l) = 0 := by omega
      refine .inr ⟨fun e' he' hdue => ?_, rfl⟩
      rw [release_of_unused cycles hcount e' he'] at hdue
      cases hdue
    · by_cases hdue : due cycles e = true
      · rw [if_pos hdue, usedCount_due hdue l k]
        dsimp only
        by_cases hle : maxDiff ≤ toInt (e.cycles - cycles)
        · rw [if_pos hle, if_pos hle]
          rcases ih k (toInt (e.cycles - cycles)) e.value with
            ⟨e₁, he₁, hdue₁, hle₁, hvalue, hmax⟩ | ⟨hlt, hvalue⟩
          · refine .inl ⟨e₁, List.mem_cons_of_mem _ he₁, hdue₁, hle.trans hle₁, hvalue, ?_⟩
            exact List.forall_mem_cons.2 ⟨fun _ => hle₁, hmax⟩
          · refine .inl ⟨e, List.mem_cons_self, hdue, hle, hvalue, ?_⟩
            exact List.forall_mem_cons.2
              ⟨fun _ => le_rfl, fun e' he' hdue' => (hlt e' he' hdue').le⟩
        · rw [if_neg hle, if_neg hle]
          rcases ih k maxDiff target with ⟨e₁, he₁, hdue₁, hle₁, hvalue, hmax⟩ | ⟨hlt, hvalue⟩
          · refine .inl ⟨e₁, List.mem_cons_of_mem _ he₁, hdue₁, hle₁, hvalue, ?_⟩
            exact List.forall_mem_cons.2 ⟨fun _ => (not_le.1 hle).le.trans hle₁, hmax⟩
          · exact .inr ⟨List.forall_mem_cons.2 ⟨fun _ => not_le.1 hle, hlt⟩, hvalue⟩
      · rw [if_neg hdue, usedCount_cons, Nat.add_right_comm _ _ k, Nat.add_assoc _ k]
        dsimp only
        rcases ih _ maxDiff target with ⟨e₁, he₁, hdue₁, hle₁, hvalue, hmax⟩ | ⟨hlt, hvalue⟩
        · refine .inl ⟨e₁, List.mem_cons_of_mem _ he₁, hdue₁, hle₁, hvalue, ?_⟩
          exact List.forall_mem_cons.2 ⟨fun h => absurd h hdue, hmax⟩
        · exact .inr ⟨List.forall_mem_cons.2 ⟨fun h => absurd h hdue, hlt⟩, hvalue⟩

/-- The results that are kept against what the port is to show. -/
structure Follows (maxLatency : Nat) (r : FUResults α) (target : α) (h : PortHistory α) : Prop where
  length : r.data.length = maxLatency + 1
  count : r.numberOfElements = usedCount r.data
  latency : ∀ x ∈ h.log, 1 ≤ x.latency ∧ x.latency ≤ maxLatency
  apart : ∀ x ∈ h.log, ∀ y ∈ h.log, x.ready = y.ready ∨ x.cycle = y.cycle → x = y
  logged : ∀ e ∈ r.data, e.used = true →
    ∃ x ∈ h.log, x.ready = e.cycles ∧ x.value = e.value ∧ h.lastRead < x.ready
  places : ∀ (i j : Nat) (e e' : FUResultElement α), r.data[i]? = some e → r.data[j]? = some e' →
    e.used = true → e'.used = true → e.cycles = e'.cycles → i = j
  -- a result that has not been read is kept, or a later one that was ready at some trigger
  covered : ∀ x ∈ h.log, h.lastRead < x.ready → ∃ e ∈ r.data, e.used = true ∧
    x.ready ≤ e.cycles ∧ (e.cycles = x.ready ∨ ∃ y ∈ h.log, e.cycles ≤ y.cycle)
  shows : h.Shows h.lastRead target

theorem create_follows (maxLatency : Nat) (value initial : α) :
    (create maxLatency value).Follows maxLatency initial ⟨[], initial, 0⟩ where
  length := List.length_replicate
  count := by
    have hcount : usedCount (create maxLatency value).data = 0 := by
      apply List.countP_eq_zero.2
      intro e he
      rw [List.eq_of_mem_replicate he]
      exact Bool.false_ne_true
    rw [hcount]
    rfl
  latency x hx := absurd hx List.not_mem_nil
  apart x hx := absurd hx List.not_mem_nil
  logged e he hused := by
    rw [List.eq_of_mem_replicate he] at hused
    cases hused
  places i j e e' hi hj hused := by
    rw [List.eq_of_mem_replicate (List.mem_of_getElem? hi)] at hused
    cases hused
  covered x hx := absurd hx List.not_mem_nil
  shows := .inr ⟨fun x hx => absurd hx List.not_mem_nil, rfl⟩

/-- There is room, since only as many results are waiting as cycles have gone by. -/
theorem Follows.addFUResult_ok {h : PortHistory α} {latency : Int}
    (hr : r.Follows maxLatency target h) (value : α)
    (hlatency : 1 ≤ latency ∧ latency ≤ maxLatency) (hcycle : ∀ x ∈ h.log, x.cycle < cycleCount) :
    ∃ r', r.addFUResult cycleCount value latency = .ok r' := by
  cases hadd : r.addFUResult cycleCount value latency with
  | ok r' => exact ⟨r', rfl⟩
  | error fault =>
    exfalso
    obtain ⟨hall, hone⟩ := addFUResult_error hadd
    have hget : ∀ i < maxLatency + 1, ∃ e, r.data[i]? = some e := by
      intro i hi
      rw [← hr.length] at hi
      exact ⟨_, List.getElem?_eq_getElem hi⟩
    -- the trigger of the result in a place
    have htrigger : ∀ i : Nat, ∃ c : Int, ∀ e, r.data[i]? = some e →
        ∃ x ∈ h.log, x.ready = e.cycles ∧ x.cycle = c := by
      intro i
      cases he : r.data[i]? with
      | none => exact ⟨0, fun e h => by cases h⟩
      | some e =>
        have hmem := List.mem_of_getElem? he
        obtain ⟨x, hx, hready, _⟩ := hr.logged e hmem (hall e hmem)
        refine ⟨x.cycle, fun e' he' => ?_⟩
        cases he'
        exact ⟨x, hx, hready, rfl⟩
    choose trigger htrigger using htrigger
    let waiting := (Finset.range (maxLatency + 1)).filter fun i =>
      ∀ e ∈ r.data[i]?, cycleCount < e.cycles
    have hwaiting : maxLatency ≤ waiting.card := by
      have hcard := Finset.card_filter_add_card_filter_not (s := Finset.range (maxLatency + 1))
        fun i => ∀ e ∈ r.data[i]?, cycleCount < e.cycles
      have hold : ((Finset.range (maxLatency + 1)).filter fun i =>
          ¬∀ e ∈ r.data[i]?, cycleCount < e.cycles).card ≤ 1 := by
        apply Finset.card_le_one.2
        intro i hi j hj
        obtain ⟨_, hi⟩ := Finset.mem_filter.1 hi
        obtain ⟨_, hj⟩ := Finset.mem_filter.1 hj
        push Not at hi hj
        obtain ⟨e, he, hle⟩ := hi
        obtain ⟨e', he', hle'⟩ := hj
        exact hone i j e e' he he' hle hle'
      rw [Finset.card_range] at hcard
      change maxLatency ≤ Finset.card (Finset.filter _ _)
      omega
    have hmaps : Set.MapsTo trigger waiting (Finset.Ioo (cycleCount - maxLatency) cycleCount) := by
      intro i hi
      obtain ⟨hi, hwait⟩ := Finset.mem_filter.1 hi
      obtain ⟨e, he⟩ := hget i (Finset.mem_range.1 hi)
      obtain ⟨x, hx, hready, hx'⟩ := htrigger i e he
      have hlt := hwait e he
      have hbefore := hcycle x hx
      have hle := (hr.latency x hx).2
      rw [Triggered.ready] at hready
      apply Finset.mem_coe.2
      rw [Finset.mem_Ioo]
      omega
    have hcard : (Finset.Ioo (cycleCount - maxLatency) cycleCount).card < waiting.card := by
      rw [Int.card_Ioo]
      omega
    obtain ⟨i, hi, j, hj, hne, heq⟩ := Finset.exists_ne_map_eq_of_card_lt_of_maps_to hcard hmaps
    obtain ⟨e, he⟩ := hget i (Finset.mem_range.1 (Finset.mem_filter.1 hi).1)
    obtain ⟨e', he'⟩ := hget j (Finset.mem_range.1 (Finset.mem_filter.1 hj).1)
    obtain ⟨x, hx, hready, hxi⟩ := htrigger i e he
    obtain ⟨y, hy, hready', hyj⟩ := htrigger j e' he'
    have hxy := hr.apart x hx y hy (.inr (by rw [hxi, hyj, heq]))
    apply hne
    apply hr.places i j e e' he he' (hall e (List.mem_of_getElem? he))
      (hall e' (List.mem_of_getElem? he'))
    rw [← hready, ← hready', hxy]

theorem usedCount_set {l : List (FUResultElement α)} (new : FUResultElement α)
    (hi : l[i]? = some e) (hnew : new.used = true) :
    usedCount (l.set i new) + (if e.used then 1 else 0) = usedCount l + 1 := by
  induction l generalizing i with
  | nil => cases hi
  | cons a l ih =>
    cases i with
    | zero =>
      cases hi
      rw [List.set_cons_zero, usedCount_cons, usedCount_cons, if_pos hnew]
      omega
    | succ i =>
      have h := ih hi
      rw [List.set_cons_succ, usedCount_cons, usedCount_cons]
      omega

theorem Follows.add {h : PortHistory α} {cycle latency : Int} (hr : r.Follows maxLatency target h)
    (hvalid : h.Valid maxLatency (.addFUResult cycle latency value))
    (hadd : r.addFUResult cycle value latency = .ok r') :
    r'.Follows maxLatency target (h.next (.addFUResult cycle latency value)) := by
  obtain ⟨hread, hpos, hle, hnew⟩ := hvalid
  obtain ⟨i, e, hi, hdata, hplace⟩ := FUResults.addFUResult_ok hadd
  have hlog : (h.next (.addFUResult cycle latency value)).log =
      ⟨cycle, latency, value⟩ :: h.log := rfl
  have hlastRead : (h.next (.addFUResult cycle latency value)).lastRead = h.lastRead := rfl
  have hlt := (List.getElem?_eq_some_iff.1 hi).1
  have hfresh : ∀ e ∈ r.data, e.used = true → e.cycles ≠ cycle + latency := by
    intro e he hused heq
    obtain ⟨x, hx, hready, _⟩ := hr.logged e he hused
    exact (hnew x hx).2 (hready.trans heq)
  have hself : ⟨cycle + latency, value, true⟩ ∈ r'.data := by
    rw [hdata]
    exact List.mem_set hlt _
  have hkept : ∀ (j : Nat) e', j ≠ i → r.data[j]? = some e' → e' ∈ r'.data := by
    intro j e' hne hj
    rw [hdata]
    apply List.mem_of_getElem?
    rw [List.getElem?_set_ne hne.symm]
    exact hj
  constructor
  · rw [hdata, List.length_set, hr.length]
  · have hcount := usedCount_set ⟨cycle + latency, value, true⟩ hi rfl
    rw [hdata]
    rcases hplace with ⟨hused, hnumber⟩ | ⟨⟨hused, _, hnumber⟩, _⟩
    · rw [hused, if_neg Bool.false_ne_true] at hcount
      rw [hnumber, hr.count]
      omega
    · rw [hused, if_pos rfl] at hcount
      rw [hnumber, hr.count]
      omega
  · exact List.forall_mem_cons.2 ⟨⟨hpos, hle⟩, hr.latency⟩
  · rw [hlog]
    refine List.forall_mem_cons.2 ⟨?_, fun x hx => ?_⟩
    · refine List.forall_mem_cons.2 ⟨fun _ => rfl, fun y hy heq => ?_⟩
      rcases heq with heq | heq
      · exact absurd heq.symm (hnew y hy).2
      · exact absurd heq.symm (hnew y hy).1.ne
    · refine List.forall_mem_cons.2 ⟨fun heq => ?_, hr.apart x hx⟩
      rcases heq with heq | heq
      · exact absurd heq (hnew x hx).2
      · exact absurd heq (hnew x hx).1.ne
  · intro e' he' hused
    rw [hdata] at he'
    rw [hlog, hlastRead]
    rcases List.mem_or_eq_of_mem_set he' with he' | rfl
    · obtain ⟨x, hx, hx'⟩ := hr.logged e' he' hused
      exact ⟨x, List.mem_cons_of_mem _ hx, hx'⟩
    · refine ⟨_, List.mem_cons_self, rfl, rfl, ?_⟩
      change h.lastRead < cycle + latency
      omega
  · intro j k e₁ e₂ hj hk hused₁ hused₂ heq
    rw [hdata, List.getElem?_set] at hj hk
    split at hj
    · next hji =>
      split at hk
      · next hki => exact hji.symm.trans hki
      · cases hj
        exact absurd heq.symm (hfresh e₂ (List.mem_of_getElem? hk) hused₂)
    · split at hk
      · cases hk
        exact absurd heq (hfresh e₁ (List.mem_of_getElem? hj) hused₁)
      · exact hr.places j k e₁ e₂ hj hk hused₁ hused₂ heq
  · rw [hlog, hlastRead]
    refine List.forall_mem_cons.2 ⟨?_, fun x hx hwait => ?_⟩
    · exact fun _ => ⟨_, hself, rfl, le_rfl, .inl rfl⟩
    · obtain ⟨e₁, he₁, hused₁, hle₁, hor⟩ := hr.covered x hx hwait
      obtain ⟨j, hj⟩ := List.mem_iff_getElem?.1 he₁
      by_cases hji : j = i
      · subst hji
        cases hi.symm.trans hj
        rcases hplace with ⟨hused, _⟩ | ⟨_, k, e₂, hne, hk, hused₂, hready₂, hle₂⟩
        · rw [hused] at hused₁
          cases hused₁
        · exact ⟨e₂, hkept k e₂ hne hk, hused₂, hle₁.trans hle₂,
            .inr ⟨_, List.mem_cons_self, hready₂⟩⟩
      · refine ⟨e₁, hkept j e₁ hji hj, hused₁, hle₁, hor.imp id ?_⟩
        rintro ⟨y, hy, hle⟩
        exact ⟨y, List.mem_cons_of_mem _ hy, hle⟩
  · -- the new result is not ready when the port was read last
    have hlate : h.lastRead < (⟨cycle, latency, value⟩ : Triggered α).ready := by
      change h.lastRead < cycle + latency
      omega
    rw [hlastRead]
    rcases hr.shows with ⟨x, hx, hvalue, hready, hmax⟩ | ⟨hnone, hvalue⟩
    · refine .inl ⟨x, List.mem_cons_of_mem _ hx, hvalue, hready, ?_⟩
      exact List.forall_mem_cons.2 ⟨fun h => absurd h (not_le.2 hlate), hmax⟩
    · exact .inr ⟨List.forall_mem_cons.2 ⟨hlate, hnone⟩, hvalue⟩

theorem release_eq {cycles : Int} {e : FUResultElement α} (hused : (release cycles e).used = true) :
    release cycles e = e := by
  by_cases hdue : due cycles e = true
  · rw [release, if_pos hdue] at hused
    cases hused
  · exact if_neg hdue

theorem mem_release {cycles : Int} {l : List (FUResultElement α)} {e : FUResultElement α}
    (he : e ∈ l.map (release cycles)) (hused : e.used = true) : e ∈ l ∧ due cycles e = false := by
  obtain ⟨e', he', rfl⟩ := List.mem_map.1 he
  have heq := release_eq hused
  rw [heq]
  refine ⟨he', Bool.eq_false_iff.2 fun hdue => ?_⟩
  rw [release, if_pos hdue] at hused
  cases hused

theorem Follows.read {h : PortHistory α} {cycle : Int} (hr : r.Follows maxLatency target h)
    (hmax : maxLatency < 2147483647) (hvalid : h.Valid maxLatency (.FUResult cycle)) :
    (r.FUResult target cycle).1.Follows maxLatency (r.FUResult target cycle).2
      (h.next (.FUResult cycle)) := by
  obtain ⟨hread, hlog⟩ := hvalid
  -- no difference is too great for an `int`
  have hdiff : ∀ e ∈ r.data, e.used = true → toInt (e.cycles - cycle) = e.cycles - cycle ∧
      -2147483647 ≤ e.cycles - cycle := by
    intro e he hused
    obtain ⟨x, hx, hready, _, hwait⟩ := hr.logged e he hused
    obtain ⟨hcycle, hage⟩ := hlog x hx
    have hage := hage hwait
    have hle := (hr.latency x hx).2
    have hsum : x.ready = x.cycle + x.latency := rfl
    refine ⟨Int.bmod_eq_of_le_mul_two ?_ ?_, ?_⟩ <;> omega
  have hdue : ∀ e ∈ r.data, due cycle e = true ↔ e.used = true ∧ e.cycles ≤ cycle := by
    intro e he
    rw [due, Bool.and_eq_true, decide_eq_true_iff]
    apply and_congr_right
    intro hused
    rw [(hdiff e he hused).1]
    omega
  obtain ⟨hdata, hnumber⟩ := readFrom_data cycle r.data 0 (-2147483647) target
  have htarget := readFrom_target cycle r.data 0 (-2147483647) target
  rw [Nat.add_zero, ← hr.count] at hdata hnumber htarget
  have hdata : (r.FUResult target cycle).1.data = r.data.map (release cycle) := hdata
  constructor
  · rw [hdata, List.length_map, hr.length]
  · rw [hdata]
    exact hnumber
  · exact hr.latency
  · exact hr.apart
  · intro e he hused
    rw [hdata] at he
    obtain ⟨he, hnot⟩ := mem_release he hused
    obtain ⟨x, hx, hready, hvalue, _⟩ := hr.logged e he hused
    refine ⟨x, hx, hready, hvalue, ?_⟩
    by_contra hle
    rw [Bool.eq_false_iff, ne_eq, hdue e he] at hnot
    exact hnot ⟨hused, hready ▸ not_lt.1 hle⟩
  · intro j k e₁ e₂ hj hk hused₁ hused₂ heq
    rw [hdata, List.getElem?_map, Option.map_eq_some_iff] at hj hk
    obtain ⟨e₁', hj, rfl⟩ := hj
    obtain ⟨e₂', hk, rfl⟩ := hk
    rw [release_eq hused₁, release_eq hused₂] at heq
    rw [release_eq hused₁] at hused₁
    rw [release_eq hused₂] at hused₂
    exact hr.places j k e₁' e₂' hj hk hused₁ hused₂ heq
  · intro x hx hwait
    have hwait : cycle < x.ready := hwait
    obtain ⟨e, he, hused, hle, hor⟩ := hr.covered x hx (hread.trans_lt hwait)
    have hkept : release cycle e = e := by
      apply if_neg
      rw [hdue e he]
      exact fun h => absurd (hle.trans h.2) (not_le.2 hwait)
    refine ⟨e, ?_, hused, hle, hor⟩
    rw [hdata, ← hkept]
    exact List.mem_map_of_mem he
  · -- what was shown and what has become ready since
    have hlater : ∀ y ∈ h.log, h.lastRead < y.ready → y.ready ≤ cycle →
        ∃ e ∈ r.data, due cycle e = true ∧ y.ready ≤ e.cycles := by
      intro y hy hwait hready
      obtain ⟨e, he, hused, hle, hor⟩ := hr.covered y hy hwait
      refine ⟨e, he, (hdue e he).2 ⟨hused, ?_⟩, hle⟩
      rcases hor with heq | ⟨z, hz, hle'⟩
      · exact heq ▸ hready
      · exact hle'.trans (hlog z hz).1
    rcases htarget with ⟨e, he, hdue', _, hvalue, hlast⟩ | ⟨hnone, hvalue⟩
    · obtain ⟨hused, hready'⟩ := (hdue e he).1 hdue'
      obtain ⟨x, hx, hready, hvalue', hwait⟩ := hr.logged e he hused
      refine .inl ⟨x, hx, hvalue'.trans hvalue.symm, hready ▸ hready', fun y hy hle => ?_⟩
      by_cases hy' : h.lastRead < y.ready
      · obtain ⟨e', he', hdue'', hle'⟩ := hlater y hy hy' hle
        have hlast := hlast e' he' hdue''
        rw [(hdiff e' he' ((hdue e' he').1 hdue'').1).1, (hdiff e he hused).1] at hlast
        omega
      · exact (not_lt.1 hy').trans hwait.le
    · have hnot : ∀ y ∈ h.log, h.lastRead < y.ready → ¬y.ready ≤ cycle := by
        intro y hy hwait hle
        obtain ⟨e, he, hdue', _⟩ := hlater y hy hwait hle
        have hlt := hnone e he hdue'
        have hused := ((hdue e he).1 hdue').1
        rw [(hdiff e he hused).1] at hlt
        exact absurd (hdiff e he hused).2 (not_le.2 hlt)
      have htarget : (r.FUResult target cycle).2 = target := hvalue
      rw [htarget]
      change h.Shows cycle target
      rcases hr.shows with ⟨x, hx, hvalue, hready, hmax⟩ | ⟨hnone, hvalue⟩
      · refine .inl ⟨x, hx, hvalue, hready.trans hread, fun y hy hle => ?_⟩
        by_cases hy' : h.lastRead < y.ready
        · exact absurd hle (hnot y hy hy')
        · exact hmax y hy (not_lt.1 hy')
      · exact .inr ⟨fun y hy => not_le.1 (hnot y hy (hnone y hy)), hvalue⟩

theorem Follows.assign {h : PortHistory α} (hr : r.Follows maxLatency target h) (value : α) :
    r.clearFUResults.Follows maxLatency value (h.next (.assign value)) := by
  obtain ⟨hlength, hcount, hunused⟩ : r.clearFUResults.data.length = r.data.length ∧
      r.clearFUResults.numberOfElements = usedCount r.clearFUResults.data ∧
      ∀ e ∈ r.clearFUResults.data, e.used = false := by
    by_cases hzero : r.numberOfElements = 0
    · rw [clearFUResults, if_pos hzero]
      refine ⟨rfl, hr.count, fun e he => Bool.eq_false_iff.2 ?_⟩
      rw [hr.count] at hzero
      exact List.countP_eq_zero.1 (Int.ofNat_eq_zero.1 hzero) e he
    · have hunused : ∀ e ∈ r.clearFUResults.data, e.used = false := by
        intro e he
        rw [clearFUResults, if_neg hzero] at he
        obtain ⟨e', _, rfl⟩ := List.mem_map.1 he
        rfl
      have hcount : usedCount r.clearFUResults.data = 0 :=
        List.countP_eq_zero.2 fun e he => Bool.eq_false_iff.1 (hunused e he)
      refine ⟨?_, ?_, hunused⟩
      · rw [clearFUResults, if_neg hzero]
        exact List.length_map _
      · rw [hcount, clearFUResults, if_neg hzero]
        rfl
  exact
    { length := hlength.trans hr.length
      count := hcount
      latency := fun x hx => absurd hx List.not_mem_nil
      apart := fun x hx => absurd hx List.not_mem_nil
      logged := fun e he hused => by
        rw [hunused e he] at hused
        cases hused
      places := fun i j e e' hi _ hused => by
        rw [hunused e (List.mem_of_getElem? hi)] at hused
        cases hused
      covered := fun x hx => absurd hx List.not_mem_nil
      shows := .inr ⟨fun x hx => absurd hx List.not_mem_nil, rfl⟩ }

theorem Follows.step {h : PortHistory α} (hr : r.Follows maxLatency target h)
    (hmax : maxLatency < 2147483647) {event : Event α} (hvalid : h.Valid maxLatency event) :
    ∃ r' target', step (r, target) event = .ok (r', target') ∧
      r'.Follows maxLatency target' (h.next event) := by
  cases event with
  | addFUResult cycle latency value =>
    have hcycle : ∀ x ∈ h.log, x.cycle < cycle := fun x hx => (hvalid.2.2.2 x hx).1
    obtain ⟨r', hadd⟩ := hr.addFUResult_ok value ⟨hvalid.2.1, hvalid.2.2.1⟩ hcycle
    refine ⟨r', target, ?_, hr.add hvalid hadd⟩
    rw [FUResults.step, hadd]
    rfl
  | FUResult cycle => exact ⟨_, _, rfl, hr.read hmax hvalid⟩
  | assign value => exact ⟨_, _, rfl, hr.assign value⟩

theorem Follows.run {h : PortHistory α} (hr : r.Follows maxLatency target h)
    (hmax : maxLatency < 2147483647) {events : List (Event α)}
    (hvalid : h.ValidEvents maxLatency events) :
    ∃ r' target', run (r, target) events = .ok (r', target') ∧
      r'.Follows maxLatency target' (h.after events) := by
  induction events generalizing r target h with
  | nil => exact ⟨r, target, rfl, hr⟩
  | cons event events ih =>
    obtain ⟨hevent, hvalid⟩ := hvalid
    obtain ⟨r₁, target₁, hstep, hr₁⟩ := hr.step hmax hevent
    obtain ⟨r', target', hrun, hr'⟩ := ih hr₁ hvalid
    refine ⟨r', target', ?_, hr'⟩
    rw [FUResults.run, List.foldlM_cons, hstep]
    exact hrun

/-- The results of a port never run out of room, and what is read of it is the value of the last
result that is ready. -/
theorem run_shows {maxLatency : Nat} (hmax : maxLatency < 2147483647) (value initial : α)
    {events : List (Event α)}
    (hvalid : (⟨[], initial, 0⟩ : PortHistory α).ValidEvents maxLatency events) :
    ∃ r target, run (create maxLatency value, initial) events = .ok (r, target) ∧
      ((⟨[], initial, 0⟩ : PortHistory α).after events).Shows
        ((⟨[], initial, 0⟩ : PortHistory α).after events).lastRead target := by
  obtain ⟨r, target, hrun, hr⟩ := (create_follows maxLatency value initial).run hmax hvalid
  exact ⟨r, target, hrun, hr.shows⟩

/-- The second operation is faster than the first one. -/
def overtaking : List (Event Nat) :=
  [.addFUResult 0 3 5, .addFUResult 1 1 7, .FUResult 2, .FUResult 3]

theorem run_shows_overtaking :
    ∃ r target, run (create 3 0, 0) overtaking = .ok (r, target) ∧
      ((⟨[], 0, 0⟩ : PortHistory Nat).after overtaking).Shows
        ((⟨[], 0, 0⟩ : PortHistory Nat).after overtaking).lastRead target := by
  apply run_shows (by decide)
  simp [overtaking, PortHistory.ValidEvents, PortHistory.Valid, PortHistory.next, Triggered.ready]

end FUResults

end OpenAsip.Simulator
