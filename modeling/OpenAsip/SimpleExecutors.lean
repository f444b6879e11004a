import Mathlib.Data.List.Basic
import OpenAsip.Deliveries
import OpenAsip.OperationExecutors

namespace OpenAsip
set_option autoImplicit true

namespace Simulator

/-- The value of an output as it stands in its port. The values of a `SimpleOperationExecutor` are
kept in a register of the width of the operand before. -/
def HWOperation.portValue (op : HWOperation) (width : Nat → Nat) (o : Output) (value : Nat) : Nat :=
  match op.executor with
  | .simple => value % 2 ^ o.width % 2 ^ width o.port
  | _ => value % 2 ^ width o.port

/-- An operation that is started with the given inputs has a result of this latency for a port. -/
def HWOperation.Yields (op : HWOperation) (width : Nat → Nat) (inputs : List Nat)
    (latency port value : Nat) : Prop :=
  ∃ k o, op.outputs[k]? = some o ∧ latency = o.latency ∧ port = o.port ∧
    value = op.portValue width o (op.simulateTrigger inputs k)

theorem HWOperation.getElem?_storedOutputs (op : HWOperation) (inputs : List Nat)
    (h : op.outputs[k]? = some o) :
    (op.storedOutputs inputs)[k]? = some (op.simulateTrigger inputs k % 2 ^ o.width) := by
  rw [storedOutputs, List.getElem?_mapIdx, h]
  rfl

theorem writePorts_delivered (width : Nat → Nat) (ports : Ports) (writes : List (Nat × Nat)) :
    Delivered ports (writePorts width ports writes)
      fun p v => ∃ x ∈ writes, p = x.1 ∧ v = x.2 % 2 ^ width x.1 := by
  apply (Delivered.foldl_update (fun x => (x.1, x.2 % 2 ^ width x.1)) ports writes).congr
  intro p v
  constructor
  · rintro ⟨x, hx, hg⟩
    cases hg
    exact ⟨x, hx, rfl, rfl⟩
  · rintro ⟨x, hx, rfl, rfl⟩
    exact ⟨x, hx, rfl⟩

namespace SimpleOperationExecutor

/-- The executor is in a state that its operations lead to. -/
structure Ok (op : HWOperation) (e : SimpleOperationExecutor) : Prop where
  length_eq : e.buffer.length = op.latency
  nextSlot_lt : e.nextSlot < op.latency
  pending_eq : e.pendingOperations = e.buffer.countP Option.isSome
  flagged : 0 < e.pendingOperations → e.hasPendingOperations = true

/-- The slot of the next operation is empty. -/
def Ready (e : SimpleOperationExecutor) : Prop := e.buffer[e.nextSlot]? = some none

/-- A value is written to a port when the clock has advanced `r` times. -/
def InFlight (width : Nat → Nat) (op : HWOperation) (e : SimpleOperationExecutor)
    (r port value : Nat) : Prop :=
  1 ≤ r ∧ r ≤ op.latency ∧
    ∃ values, e.buffer[(e.nextSlot + r) % op.latency]? = some (some values) ∧
      ∃ (k : Nat) (o : Output) (x : Nat), op.outputs[k]? = some o ∧ values[k]? = some x ∧
        port = o.port ∧ value = x % 2 ^ width o.port

/-- The slots after the next one, around the ring. -/
theorem slot_cases {n r length : Nat} (hn : n < length) (hr : r ≤ length) :
    (n + r < length ∧ (n + r) % length = n + r) ∨
      (length ≤ n + r ∧ (n + r) % length = n + r - length) := by
  rcases Nat.lt_or_ge (n + r) length with hlt | hge
  · exact .inl ⟨hlt, Nat.mod_eq_of_lt hlt⟩
  · refine .inr ⟨hge, ?_⟩
    rw [Nat.mod_eq_sub_mod hge, Nat.mod_eq_of_lt (by omega)]

theorem slot_ne {n r length : Nat} (hn : n < length) (hr : 1 ≤ r) (hlt : r < length) :
    n ≠ (n + r) % length := by
  rcases slot_cases hn (Nat.le_of_lt hlt) with ⟨-, hmod⟩ | ⟨hge, hmod⟩
  · omega
  · omega

theorem new_ok (op : HWOperation) : Ok op (new op.latency) where
  length_eq := List.length_replicate
  nextSlot_lt := op.latency_pos
  pending_eq := by
    rw [new, List.countP_replicate]
    rfl
  flagged := fun _ => rfl

theorem new_ready (op : HWOperation) : Ready (new op.latency) := by
  rw [Ready, new, List.getElem?_replicate, if_pos op.latency_pos]

theorem not_inFlight_new : ¬ InFlight width op (new op.latency) r port value := by
  rintro ⟨-, -, values, hslot, -⟩
  rw [new] at hslot
  have hmem := List.mem_of_getElem? hslot
  cases List.eq_of_mem_replicate hmem

theorem InFlight.pending (h : InFlight width op e r port value) (hok : Ok op e) :
    0 < e.pendingOperations := by
  obtain ⟨-, -, values, hslot, -⟩ := h
  rw [hok.pending_eq]
  exact List.countP_pos_iff.2 ⟨_, List.mem_of_getElem? hslot, rfl⟩

theorem startOperation_spec (width : Nat → Nat) (hop : op.executor = .simple) (hok : Ok op e)
    (hready : e.Ready) (inputs : List Nat) :
    ∃ e', e.startOperation op inputs = .ok e' ∧ Ok op e' ∧ e'.hasPendingOperations = true ∧
      0 < e'.pendingOperations ∧ ∀ r port value,
        InFlight width op e' r port value ↔
          InFlight width op e r port value ∨ op.Yields width inputs r port value := by
  have hlt : e.nextSlot < e.buffer.length := hok.length_eq ▸ hok.nextSlot_lt
  have hempty : e.buffer[e.nextSlot] = none := by
    have hget := hready
    rw [Ready, List.getElem?_eq_getElem hlt] at hget
    exact Option.some.inj hget
  rw [startOperation, if_neg (Nat.not_lt.2 (op.operands_le hop)), if_pos hlt]
  refine ⟨_, rfl, ⟨?_, hok.nextSlot_lt, ?_, fun _ => rfl⟩, rfl, Nat.succ_pos _, ?_⟩
  · rw [List.length_set, hok.length_eq]
  · rw [List.countP_set hlt, hempty, hok.pending_eq]
    rfl
  intro r port value
  constructor
  · rintro ⟨hr, hle, values, hslot, k, o, x, ho, hx, rfl, rfl⟩
    rcases slot_cases hok.nextSlot_lt hle with ⟨-, hmod⟩ | ⟨hge, hmod⟩
    · dsimp only at hslot
      rw [hmod, List.getElem?_set_ne (by omega), ← hmod] at hslot
      exact .inl ⟨hr, hle, values, hslot, k, o, x, ho, hx, rfl, rfl⟩
    · dsimp only at hslot
      by_cases hlast : r = op.latency
      · -- the last slot around the ring is the one that has just been filled
        have hself : e.nextSlot = e.nextSlot + r - op.latency := by omega
        rw [hmod, ← hself, List.getElem?_set_self hlt] at hslot
        cases hslot
        rw [op.getElem?_storedOutputs inputs ho] at hx
        cases hx
        refine .inr ⟨k, o, ho, ?_, rfl, ?_⟩
        · rw [hlast, op.output_eq (by rw [hop]; decide) o (List.mem_of_getElem? ho)]
        · rw [HWOperation.portValue, hop]
      · rw [hmod, List.getElem?_set_ne (by omega), ← hmod] at hslot
        exact .inl ⟨hr, hle, values, hslot, k, o, x, ho, hx, rfl, rfl⟩
  · rintro (⟨hr, hle, values, hslot, hrest⟩ | ⟨k, o, ho, rfl, rfl, rfl⟩)
    · refine ⟨hr, hle, values, ?_, hrest⟩
      dsimp only
      rw [List.getElem?_set_ne, hslot]
      intro he
      rw [← he, hready] at hslot
      cases hslot
    · have hlast := op.output_eq (by rw [hop]; decide) o (List.mem_of_getElem? ho)
      refine ⟨op.output_pos o (List.mem_of_getElem? ho), Nat.le_of_eq hlast,
        op.storedOutputs inputs, ?_, k, o, _, ho, op.getElem?_storedOutputs inputs ho, rfl, ?_⟩
      · dsimp only
        rw [hlast, Nat.add_mod_right, Nat.mod_eq_of_lt hok.nextSlot_lt,
          List.getElem?_set_self hlt]
      · rw [HWOperation.portValue, hop]

theorem advanceClock_spec (width : Nat → Nat) (hok : Ok op e) (ports : Ports) :
    ∃ e' ports', e.advanceClock width op ports = .ok (e', ports') ∧ Ok op e' ∧ e'.Ready ∧
      Delivered ports ports' (InFlight width op e 1) ∧
      (∀ r port value, InFlight width op e' r port value ↔
        1 ≤ r ∧ InFlight width op e (r + 1) port value) ∧
      (e.hasPendingOperations = decide (0 < e.pendingOperations) →
        e'.hasPendingOperations = decide (0 < e'.pendingOperations)) := by
  have hpos := op.latency_pos
  have hindex : (e.nextSlot + 1) % op.latency < op.latency := Nat.mod_lt _ hpos
  have hlt : (e.nextSlot + 1) % op.latency < e.buffer.length := by
    rw [hok.length_eq]
    exact hindex
  -- the slots of the new ring are those of the old one, a step further
  have hring (r : Nat) : ((e.nextSlot + 1) % op.latency + r) % op.latency =
      (e.nextSlot + (r + 1)) % op.latency := by
    rw [Nat.mod_add_mod, Nat.add_assoc, Nat.add_comm 1 r]
  have hself : ((e.nextSlot + 1) % op.latency + op.latency) % op.latency =
      (e.nextSlot + 1) % op.latency := by
    rw [Nat.add_mod_right, Nat.mod_mod]
  rw [advanceClock, hok.length_eq]
  cases hslot : e.buffer[(e.nextSlot + 1) % op.latency] with
  | none =>
    rw [List.getElem?_eq_getElem hlt, hslot]
    refine ⟨_, _, rfl, ⟨hok.length_eq, hindex, hok.pending_eq, hok.flagged⟩, ?_, ?_, ?_, id⟩
    · rw [Ready, List.getElem?_eq_getElem hlt, hslot]
    · apply Delivered.none
      rintro port value ⟨-, -, values, hval, -⟩
      rw [List.getElem?_eq_getElem hlt, hslot] at hval
      cases hval
    · intro r port value
      constructor
      · rintro ⟨hr, hle, values, hval, hrest⟩
        dsimp only at hval
        have hne : r ≠ op.latency := by
          intro he
          rw [he, hself, List.getElem?_eq_getElem hlt, hslot] at hval
          cases hval
        rw [hring] at hval
        exact ⟨hr, by omega, by omega, values, hval, hrest⟩
      · rintro ⟨hr, -, hle, values, hval, hrest⟩
        rw [← hring] at hval
        exact ⟨hr, by omega, values, hval, hrest⟩
  | some values =>
    rw [List.getElem?_eq_getElem hlt, hslot]
    have hcount : 0 < e.buffer.countP Option.isSome :=
      List.countP_pos_iff.2 ⟨some values, hslot ▸ List.getElem_mem hlt, rfl⟩
    refine ⟨_, _, rfl, ⟨?_, hindex, ?_, fun h => decide_eq_true h⟩, ?_, ?_, ?_, fun _ => rfl⟩
    · rw [List.length_set, hok.length_eq]
    · dsimp only
      rw [List.countP_set hlt, hslot, hok.pending_eq]
      rfl
    · rw [Ready, List.getElem?_set_self hlt]
    · apply (writePorts_delivered width ports _).congr
      intro port value
      constructor
      · rintro ⟨x, hx, rfl, rfl⟩
        obtain ⟨k, hk⟩ := List.mem_iff_getElem?.1 hx
        rw [List.getElem?_zip_eq_some, List.getElem?_map] at hk
        obtain ⟨hport, hvalue⟩ := hk
        obtain ⟨o, ho, ho'⟩ := Option.map_eq_some_iff.1 hport
        refine ⟨Nat.le_refl 1, hpos, values, ?_, k, o, x.2, ho, hvalue, ho'.symm, ?_⟩
        · rw [List.getElem?_eq_getElem hlt, hslot]
        · rw [ho']
      · rintro ⟨-, -, values', hval, k, o, x, ho, hx, rfl, rfl⟩
        rw [List.getElem?_eq_getElem hlt, hslot] at hval
        cases hval
        refine ⟨(o.port, x), ?_, rfl, rfl⟩
        apply List.mem_of_getElem? (i := k)
        rw [List.getElem?_zip_eq_some, List.getElem?_map, ho]
        exact ⟨rfl, hx⟩
    · intro r port value
      constructor
      · rintro ⟨hr, hle, values', hval, hrest⟩
        dsimp only at hval
        have hne : r ≠ op.latency := by
          intro he
          rw [he, hself, List.getElem?_set_self hlt] at hval
          cases hval
        rw [List.getElem?_set_ne (slot_ne hindex hr (by omega)), hring] at hval
        exact ⟨hr, by omega, by omega, values', hval, hrest⟩
      · rintro ⟨hr, -, hle, values', hval, hrest⟩
        rw [← hring, ← List.getElem?_set_ne (slot_ne hindex hr (by omega))] at hval
        exact ⟨hr, by omega, values', hval, hrest⟩

end SimpleOperationExecutor

end Simulator

end OpenAsip
