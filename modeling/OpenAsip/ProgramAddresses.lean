import OpenAsip.Programs

namespace OpenAsip
set_option autoImplicit true

namespace TTAProgram

namespace Program
open Tiled

def size (s : Program) (proc : Nat) : Nat := (s.instructions proc).length

/-- The first address behind the procedures. -/
def stop (s : Program) : Nat := s.start + extent s.size s.procedures

def allInstructions (s : Program) : List Nat := s.procedures.flatMap s.instructions

/-- Every instruction is registered in the one procedure that has it, and the procedures lie one
after the other within the addresses there are. -/
structure Inv (s : Program) : Prop where
  nodup : s.procedures.Nodup
  registered : ∀ ins proc, s.parent ins = some proc ↔ ins ∈ s.instructions proc
  distinct : ∀ proc, (s.instructions proc).Nodup
  tiled : Tiled s.startAddr s.size s.start s.procedures
  stop_lt : s.stop < 2 ^ 32
  size_lt : ∀ proc ∈ s.procedures, s.size proc < 2 ^ 31

variable {s : Program}

theorem length_flatMap (s : Program) (procs : List Nat) :
    (procs.flatMap s.instructions).length = extent s.size procs := by
  rw [List.length_flatMap]
  rfl

/-- An instruction is in one procedure. -/
theorem Inv.proc_unique (h : s.Inv) (hmem : ins ∈ s.instructions proc)
    (hmem' : ins ∈ s.instructions proc') : proc = proc' :=
  Option.some.inj (((h.registered ins proc).2 hmem).symm.trans ((h.registered ins proc').2 hmem'))

theorem Inv.startAddr_lt (h : s.Inv) (hproc : proc ∈ s.procedures) :
    s.startAddr proc + s.size proc < 2 ^ 32 :=
  Nat.lt_of_le_of_lt (h.tiled.bounds hproc).2 h.stop_lt

theorem Inv.endAddress_eq (h : s.Inv) (hproc : proc ∈ s.procedures) :
    s.endAddress proc = s.startAddr proc + s.size proc :=
  Nat.mod_eq_of_lt (h.startAddr_lt hproc)

theorem Inv.newStart_eq (h : s.Inv) : s.newStart = s.stop := by
  rw [newStart, stop]
  cases hlast : s.procedures.getLast? with
  | none => rw [List.getLast?_eq_none_iff.1 hlast, extent_nil, Nat.add_zero]
  | some last =>
    obtain ⟨before, hprocs⟩ := List.getLast?_eq_some_iff.1 hlast
    have ht := h.tiled
    have hmem : last ∈ s.procedures := List.mem_of_getLast? hlast
    rw [hprocs, append_iff] at ht
    obtain ⟨-, hstart, -⟩ := ht
    change s.endAddress last = _
    rw [h.endAddress_eq hmem, hstart, hprocs, extent_append, extent_cons, extent_nil,
      Nat.add_zero, Nat.add_assoc]

theorem Inv.address_eq (h : s.Inv) (hproc : proc ∈ s.procedures)
    (hm : (s.instructions proc)[m]? = some ins) : s.address ins = .ok (s.startAddr proc + m) := by
  obtain ⟨hlt, rfl⟩ := List.getElem?_eq_some_iff.1 hm
  have hmem := List.getElem_mem hlt
  have hstart := h.startAddr_lt hproc
  have hidx := (h.distinct proc).idxOf_getElem m hlt
  rw [size] at hstart
  rw [address, (h.registered _ proc).2 hmem]
  change (if _ then _ else _) = _
  rw [if_pos hmem, hidx, Nat.mod_eq_of_lt (by omega)]

theorem Inv.instructionAtIn_eq (h : s.Inv) (hproc : proc ∈ s.procedures)
    (hm : (s.instructions proc)[m]? = some ins) :
    s.instructionAtIn proc (s.startAddr proc + m) = .ok ins := by
  obtain ⟨hlt, _⟩ := List.getElem?_eq_some_iff.1 hm
  have hsize := h.size_lt proc hproc
  rw [size] at hsize
  have hindex : (BitVec.ofNat 32 (s.startAddr proc + m) -
      BitVec.ofNat 32 (s.startAddr proc)).toInt = m := by
    rw [BitVec.ofNat_add, BitVec.add_comm, BitVec.add_sub_cancel, BitVec.toInt_ofNat',
      Int.bmod_def]
    omega
  rw [instructionAtIn, hindex, Int.toNat_natCast, hm]
  exact if_pos (Int.natCast_nonneg m)

theorem Inv.nextInstructionIn_eq (h : s.Inv) (hproc : proc ∈ s.procedures)
    (hm : (s.instructions proc)[m]? = some ins) :
    s.nextInstructionIn proc ins = .ok (s.instructions proc)[m + 1]? := by
  obtain ⟨hlt, hget⟩ := List.getElem?_eq_some_iff.1 hm
  have hmem : ins ∈ s.instructions proc := hget ▸ List.getElem_mem hlt
  have hstart := h.startAddr_lt hproc
  have hsize := h.size_lt proc hproc
  rw [size] at hsize hstart
  have hcurrent : (s.startAddr proc + m + (2 ^ 32 - s.startAddr proc)) % 2 ^ 32 = m := by omega
  rw [nextInstructionIn, if_neg (not_not.2 ((h.registered ins proc).2 hmem)),
    Except.bind_of_ok (h.address_eq hproc hm)]
  simp only [hcurrent]
  rw [Nat.mod_eq_of_lt (by omega)]

/-- Where an instruction is: its procedure, its address and the instruction after it there. -/
theorem located {procs : List Nat} (ht : Tiled s.startAddr s.size b procs)
    (hk : (procs.flatMap s.instructions)[k]? = some ins) :
    ∃ proc ∈ procs, ∃ m, (s.instructions proc)[m]? = some ins ∧ s.startAddr proc + m = b + k ∧
      ∀ next, (s.instructions proc)[m + 1]? = some next →
        (procs.flatMap s.instructions)[k + 1]? = some next := by
  induction procs generalizing b k with
  | nil => cases hk
  | cons p procs ih =>
    obtain ⟨hb, ht⟩ := ht
    rw [List.flatMap_cons] at hk ⊢
    by_cases hlt : k < (s.instructions p).length
    · rw [List.getElem?_append_left hlt] at hk
      refine ⟨p, List.mem_cons_self, k, hk, by rw [hb], fun next hnext => ?_⟩
      have hlt' := (List.getElem?_eq_some_iff.1 hnext).1
      rw [List.getElem?_append_left hlt', hnext]
    · rw [List.getElem?_append_right (by omega)] at hk
      obtain ⟨proc, hproc, m, hm, hm', hnext⟩ := ih ht hk
      refine ⟨proc, List.mem_cons_of_mem p hproc, m, hm, ?_, fun next hn => ?_⟩
      · rw [size] at hm'
        omega
      · rw [List.getElem?_append_right (by omega), ← hnext next hn]
        congr 1
        omega

section Loops
variable {procs : List Nat} (h : s.Inv) (hprocs : ∀ proc ∈ procs, proc ∈ s.procedures)
  (ht : Tiled s.startAddr s.size b procs)

include h hprocs ht

theorem instructionAtLoop_eq (hk : (procs.flatMap s.instructions)[k]? = some ins) :
    s.instructionAtLoop (b + k) procs = .ok ins := by
  induction procs generalizing b k with
  | nil => cases hk
  | cons p procs ih =>
    obtain ⟨hb, ht⟩ := ht
    have hp := hprocs p List.mem_cons_self
    have hend := h.endAddress_eq hp
    rw [size, hb] at hend
    rw [List.flatMap_cons] at hk
    rw [instructionAtLoop, hb, hend]
    by_cases hlt : k < (s.instructions p).length
    · rw [List.getElem?_append_left hlt] at hk
      rw [if_pos (by omega), ← hb]
      exact h.instructionAtIn_eq hp hk
    · rw [List.getElem?_append_right (by omega)] at hk
      have hrest := ih (fun q hq => hprocs q (List.mem_cons_of_mem p hq)) ht hk
      rw [size] at hrest
      rw [if_neg (by omega), ← hrest]
      congr 1
      omega

omit ht in
/-- The first instruction of the procedures that are left. -/
theorem first_of_rest : (match procs.find? (s.instructions · ≠ []) with
    | some next => do
      let first ← s.instructionAtIn next (s.startAddr next)
      .ok (some first)
    | none => .ok none) = (.ok (procs.flatMap s.instructions)[0]? : Outcome (Option Nat)) := by
  induction procs with
  | nil => rfl
  | cons p procs ih =>
    rw [List.flatMap_cons]
    cases hp : s.instructions p with
    | nil =>
      rw [List.find?_cons_of_neg (by simp [hp]), List.nil_append]
      exact ih fun q hq => hprocs q (List.mem_cons_of_mem p hq)
    | cons ins l =>
      have hfirst : (s.instructions p)[0]? = some ins := by rw [hp, List.getElem?_cons_zero]
      have hat := h.instructionAtIn_eq (hprocs p List.mem_cons_self) hfirst
      rw [Nat.add_zero] at hat
      rw [List.find?_cons_of_pos (by simp [hp])]
      exact Except.bind_of_ok hat _

theorem nextInstructionLoop_eq (hk : (procs.flatMap s.instructions)[k]? = some ins) :
    s.nextInstructionLoop ins (b + k) procs = .ok (procs.flatMap s.instructions)[k + 1]? := by
  induction procs generalizing b k with
  | nil => cases hk
  | cons p procs ih =>
    obtain ⟨hb, ht⟩ := ht
    have hp := hprocs p List.mem_cons_self
    have hend := h.endAddress_eq hp
    have hrest := fun q hq => hprocs q (List.mem_cons_of_mem p hq)
    rw [size, hb] at hend
    rw [List.flatMap_cons] at hk ⊢
    rw [nextInstructionLoop, hb, hend]
    by_cases hlt : k < (s.instructions p).length
    · rw [List.getElem?_append_left hlt] at hk
      rw [if_pos (by omega), Except.bind_of_ok (h.nextInstructionIn_eq hp hk)]
      by_cases hlast : k + 1 < (s.instructions p).length
      · rw [List.getElem?_append_left hlast, List.getElem?_eq_getElem hlast]
      · have hzero : k + 1 - (s.instructions p).length = 0 := by omega
        rw [List.getElem?_append_right (by omega), hzero, List.getElem?_eq_none (by omega)]
        exact first_of_rest h hrest
    · rw [List.getElem?_append_right (by omega)] at hk
      have hnext := ih hrest ht hk
      rw [if_neg (by omega), List.getElem?_append_right (by omega)]
      have hsub : k - (s.instructions p).length + 1 = k + 1 - (s.instructions p).length := by omega
      have hsum : b + s.size p + (k - (s.instructions p).length) = b + k := by
        rw [size]
        omega
      rw [hsub, hsum] at hnext
      exact hnext

end Loops

section Queries
variable (h : s.Inv)
include h

theorem address_of_get (hk : s.allInstructions[k]? = some ins) :
    s.address ins = .ok (s.start + k) := by
  obtain ⟨proc, hproc, m, hm, heq, _⟩ := located h.tiled hk
  rw [h.address_eq hproc hm, heq]

theorem instructionAt_of_get (hk : s.allInstructions[k]? = some ins) :
    s.instructionAt (s.start + k) = .ok ins :=
  instructionAtLoop_eq h (fun _ hp => hp) h.tiled hk

theorem nextInstruction_of_get (hk : s.allInstructions[k]? = some ins) :
    s.nextInstruction ins = .ok s.allInstructions[k + 1]? := by
  obtain ⟨proc, hproc, m, hm, heq, hnext⟩ := located h.tiled hk
  obtain ⟨hlt, hget⟩ := List.getElem?_eq_some_iff.1 hm
  have hparent := (h.registered ins proc).2 (hget ▸ List.getElem_mem hlt)
  rw [nextInstruction, hparent]
  change (if _ then _ else _) = _
  rw [if_neg (not_not.2 hproc), Except.bind_of_ok (address_of_get h hk),
    Except.bind_of_ok (h.nextInstructionIn_eq hproc hm)]
  cases hn : (s.instructions proc)[m + 1]? with
  | some next => rw [allInstructions, hnext next hn]
  | none => exact nextInstructionLoop_eq h (fun _ hp => hp) h.tiled hk

theorem allInstructions_nodup : s.allInstructions.Nodup := by
  apply List.pairwise_iff_getElem.2
  intro i j hi hj hij heq
  have haddress := address_of_get h (List.getElem?_eq_getElem hi)
  rw [heq, address_of_get h (List.getElem?_eq_getElem hj)] at haddress
  have hsum := Except.ok.inj haddress
  omega

theorem walk_of_get (hall : s.allInstructions = before ++ ins :: rest) :
    s.walk (rest.length + 1) ins = .ok (ins :: rest) := by
  induction rest generalizing before ins with
  | nil =>
    have hk : s.allInstructions[before.length]? = some ins := by
      rw [hall, List.getElem?_append_right (Nat.le_refl _), Nat.sub_self, List.getElem?_cons_zero]
    have hnext := nextInstruction_of_get h hk
    have hnone : s.allInstructions[before.length + 1]? = none := by
      rw [hall]
      exact List.getElem?_eq_none (Nat.le_of_eq List.length_append)
    rw [hnone] at hnext
    rw [walk, Except.bind_of_ok hnext]
  | cons next rest ih =>
    have hk : s.allInstructions[before.length]? = some ins := by
      rw [hall, List.getElem?_append_right (Nat.le_refl _), Nat.sub_self, List.getElem?_cons_zero]
    have hnext := nextInstruction_of_get h hk
    have hsome : s.allInstructions[before.length + 1]? = some next := by
      rw [hall, List.getElem?_append_right (Nat.le_add_right _ _), Nat.add_sub_cancel_left,
        List.getElem?_cons_succ, List.getElem?_cons_zero]
    rw [hsome] at hnext
    have hall' : s.allInstructions = (before ++ [ins]) ++ next :: rest := by
      rw [hall, List.append_assoc]
      rfl
    have hrest := ih hall'
    rw [walk, Except.bind_of_ok hnext]
    exact Except.bind_of_ok hrest _

end Queries

/-- What is claimed of the addresses in a state. -/
structure Right (s : Program) : Prop where
  tiled : Tiled s.startAddr s.size s.start s.procedures
  ordered : ∀ k ins, s.allInstructions[k]? = some ins → s.address ins = .ok (s.start + k)
  found : ∀ a, s.start ≤ a → a < s.stop → ∃ ins ∈ s.allInstructions, s.instructionAt a = .ok ins ∧
    ∀ other ∈ s.allInstructions, s.address other = .ok a ↔ other = ins
  once : s.allInstructions.Nodup
  walked : ∀ first rest, s.allInstructions = first :: rest →
    s.walk (rest.length + 1) first = .ok (first :: rest)

theorem Inv.right (h : s.Inv) : s.Right := by
  constructor
  · exact h.tiled
  · exact fun k ins hk => address_of_get h hk
  · intro a hle hlt
    have hlength : a - s.start < s.allInstructions.length := by
      rw [stop] at hlt
      rw [allInstructions, length_flatMap]
      omega
    have hget := List.getElem?_eq_getElem hlength
    have ha : s.start + (a - s.start) = a := by omega
    have hat := instructionAt_of_get h hget
    have haddress := address_of_get h hget
    rw [ha] at hat haddress
    refine ⟨_, List.getElem_mem hlength, hat, fun other hother => ⟨fun hothera => ?_, ?_⟩⟩
    · obtain ⟨j, hj, rfl⟩ := List.getElem_of_mem hother
      rw [address_of_get h (List.getElem?_eq_getElem hj)] at hothera
      have hsum := Except.ok.inj hothera
      congr 1
      omega
    · rintro rfl
      exact haddress
  · exact allInstructions_nodup h
  · intro first rest hall
    have hall' : s.allInstructions = [] ++ first :: rest := hall
    exact walk_of_get h hall'

end Program

end TTAProgram

end OpenAsip
