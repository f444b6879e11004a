import OpenAsip.ProgramRuns

namespace OpenAsip
set_option autoImplicit true

namespace TTAProgram

namespace Program
open Tiled

variable {s s' : Program}

/-- The program as it is constructed. Procedures and instructions are made empty, on their own. -/
def new (start : UInt32) (startAddr moveCount : Nat → Nat) : Program where
  start := start.toNat
  procedures := []
  startAddr := startAddr
  instructions _ := []
  parent _ := none
  deleted _ := false
  moveCount := moveCount
  moves := []

theorem inv_new (start : UInt32) (startAddr moveCount : Nat → Nat) :
    (new start startAddr moveCount).Inv := by
  constructor
  · exact List.nodup_nil
  · intro ins proc
    exact ⟨(fun he => by cases he), fun hmem => absurd hmem List.not_mem_nil⟩
  · intro proc
    exact List.nodup_nil
  · trivial
  · exact start.toNat_lt
  · intro proc hproc
    exact absurd hproc List.not_mem_nil

/-- What a caller sees to. -/
def Fits (s : Program) (c : Call) : Prop :=
  (∀ ins ∈ c.given, s.deleted ins = false) ∧
    match c with
    | .addProcedure proc => s.stop + s.size proc < 2 ^ 32 ∧ s.size proc < 2 ^ 31
    | .addInstruction _ => ∀ last ∈ s.procedures.getLast?, s.Room last 1
    | .add proc ins => s.parent ins ≠ some proc ∧ s.Room proc 1
    | .addFront _ _ => False
    | .insertBefore proc pos ins =>
      (s.parent ins = none → pos ∈ s.instructions proc) ∧ s.Room proc 1
    | .insertAfter proc _ _ => s.Room proc 1
    | .remove proc ins => s.instructions proc = [ins] → proc ∈ s.procedures
    | .clear _ => True

instance Fits.decidable (s : Program) : ∀ c, Decidable (s.Fits c)
  | .addProcedure _ => inferInstanceAs (Decidable (_ ∧ _ ∧ _))
  | .addInstruction _ => inferInstanceAs (Decidable (_ ∧ ∀ last ∈ _, _ ∈ _ → _ ∧ _))
  | .add _ _ | .insertBefore _ _ _ => inferInstanceAs (Decidable (_ ∧ _ ∧ (_ ∈ _ → _ ∧ _)))
  | .addFront _ _ => inferInstanceAs (Decidable (_ ∧ False))
  | .insertAfter _ _ _ => inferInstanceAs (Decidable (_ ∧ (_ ∈ _ → _ ∧ _)))
  | .remove _ _ => inferInstanceAs (Decidable (_ ∧ (_ = _ → _ ∈ _)))
  | .clear _ => inferInstanceAs (Decidable (_ ∧ True))

/-- The call comes back with the invariant, and only the list of the moves differs if it throws. -/
def Sound (s : Program) (r : Called) : Prop :=
  ∃ s' thrown, r = .ok (s', thrown) ∧ s'.Inv ∧ (thrown ≠ none → s' = { s with moves := s'.moves })

theorem sound_returned (h : s'.Inv) : s.Sound s'.returned :=
  ⟨s', none, rfl, h, fun hne => (hne rfl).elim⟩

theorem sound_threw (h : s.Inv) (e : ExceptionClass) : s.Sound (s.threw e) :=
  ⟨s, some e, rfl, h, fun _ => rfl⟩

section Calls
variable (h : s.Inv)
include h

theorem add_sound (hin : s.parent ins ≠ some proc) (hroom : s.Room proc 1) :
    s.Sound (s.add proc ins) := by
  rw [add]
  by_cases hfree : s.parent ins = none
  · rw [if_pos (.inl hfree)]
    exact sound_returned (h.place hfree (List.perm_append_singleton ins _) hroom)
  · rw [if_neg (not_or.2 ⟨hfree, hin⟩)]
    exact sound_threw h _

theorem insertAfter_sound (hroom : s.Room proc 1) : s.Sound (s.insertAfter proc pos ins) := by
  rw [insertAfter]
  by_cases hfree : s.parent ins = none
  · rw [if_pos hfree]
    by_cases hpos : pos ∈ s.instructions proc
    · rw [if_pos hpos]
      by_cases hlast : (s.instructions proc).idxOf pos + 1 < (s.instructions proc).length
      · rw [if_pos hlast]
        exact sound_returned
          (h.place hfree (List.perm_insertIdx ins _ (Nat.le_of_lt hlast)) hroom)
      · rw [if_neg hlast]
        exact add_sound h (by rw [hfree]; exact fun he => by cases he) hroom
    · rw [if_neg hpos]
      exact sound_threw h _
  · rw [if_neg hfree]
    exact sound_threw h _

theorem insertBefore_sound (hpos : s.parent ins = none → pos ∈ s.instructions proc)
    (hroom : s.Room proc 1) : s.Sound (s.insertBefore proc pos ins) := by
  rw [insertBefore]
  by_cases hfree : s.parent ins = none
  · rw [if_pos hfree, if_pos (hpos hfree)]
    exact sound_returned (h.place hfree (List.perm_insertIdx ins _ List.idxOf_le_length) hroom)
  · rw [if_neg hfree]
    exact sound_threw h _

theorem remove_sound (hlast : s.instructions proc = [ins] → proc ∈ s.procedures) :
    s.Sound (s.remove proc ins) := by
  rw [remove]
  by_cases hparent : s.parent ins = some proc
  · have hmem := (h.registered ins proc).1 hparent
    have hlone : ¬((s.instructions proc).erase ins = [] ∧ proc ∉ s.procedures) := by
      rintro ⟨hnil, hproc⟩
      rcases List.erase_eq_nil_iff.1 hnil with hnil | hone
      · rw [hnil] at hmem
        exact absurd hmem List.not_mem_nil
      · exact hproc (hlast hone)
    rw [if_neg (not_not.2 hparent)]
    change s.Sound (if _ then _ else if _ then if _ then _ else _ else _)
    rw [if_neg (List.ne_nil_of_mem hmem), if_pos hmem, if_neg hlone]
    exact sound_returned (h.takeOut hmem)
  · rw [if_pos hparent]
    exact sound_threw h _

theorem addProcedure_sound (hstop : s.stop + s.size proc < 2 ^ 32) (hsize : s.size proc < 2 ^ 31) :
    s.Sound (s.addProcedure proc) := by
  rw [addProcedure]
  by_cases hproc : proc ∈ s.procedures
  · rw [if_pos hproc]
    exact sound_threw h _
  · rw [if_neg hproc]
    apply sound_returned
    constructor
    · exact List.nodup_append.2 ⟨h.nodup, List.pairwise_singleton _ proc, fun a ha b hb => by
        rw [List.mem_singleton.1 hb]
        exact fun he => hproc (he ▸ ha)⟩
    · exact h.registered
    · exact h.distinct
    · apply append_iff.2
      refine ⟨h.tiled.congr (fun k hk => ?_) (fun _ _ => rfl), ?_, trivial⟩
      · exact Function.update_of_ne (fun he : k = proc => hproc (he ▸ hk)) ..
      · exact (Function.update_self ..).trans h.newStart_eq
    · change s.start + extent s.size (s.procedures ++ [proc]) < 2 ^ 32
      rw [extent_append, extent_cons, extent_nil, ← Nat.add_assoc]
      exact hstop
    · intro k hk
      rcases List.mem_append.1 hk with hk | hk
      · exact h.size_lt k hk
      · rw [List.mem_singleton.1 hk]
        exact hsize

theorem addInstruction_sound (hroom : ∀ last ∈ s.procedures.getLast?, s.Room last 1) :
    s.Sound (s.addInstruction ins) := by
  rw [addInstruction]
  cases hlast : s.procedures.getLast? with
  | none => exact sound_threw h _
  | some last =>
    let t : Program := { s with moves := s.moves ++ (List.range (s.moveCount ins)).map (ins, ·) }
    have ht : t.Inv := ⟨h.nodup, h.registered, h.distinct, h.tiled, h.stop_lt, h.size_lt⟩
    change s.Sound (if s.parent ins = none then t.add last ins else t.threw .invalidData)
    by_cases hfree : s.parent ins = none
    · rw [if_pos hfree]
      have hnotIn : t.parent ins ≠ some last := by
        change s.parent ins ≠ _
        rw [hfree]
        exact fun he => by cases he
      obtain ⟨s', thrown, hadd, hinv, hmoves⟩ := add_sound ht hnotIn (hroom last hlast)
      refine ⟨s', thrown, hadd, hinv, fun hne => ?_⟩
      rw [hmoves hne]
    · rw [if_neg hfree]
      exact ⟨t, _, rfl, ht, fun _ => rfl⟩

theorem call_sound (hfits : s.Fits c) : s.Sound (s.call c) := by
  obtain ⟨hgiven, hfits⟩ := hfits
  have hlive : ¬∃ ins ∈ c.given, s.deleted ins = true := by
    rintro ⟨ins, hmem, hdeleted⟩
    rw [hgiven ins hmem] at hdeleted
    cases hdeleted
  unfold call
  rw [if_neg hlive]
  cases c with
  | addProcedure proc => exact addProcedure_sound h hfits.1 hfits.2
  | addInstruction ins => exact addInstruction_sound h hfits
  | add proc ins => exact add_sound h hfits.1 hfits.2
  | addFront proc ins => exact hfits.elim
  | insertBefore proc pos ins => exact insertBefore_sound h hfits.1 hfits.2
  | insertAfter proc pos ins => exact insertAfter_sound h hfits
  | remove proc ins => exact remove_sound h hfits
  | clear proc => exact sound_returned (h.empty rfl)

end Calls

/-- A call that throws is survived by its caller. -/
def step (s : Program) (c : Call) : Outcome Program := do
  let (s', _) ← s.call c
  .ok s'

/-- The addresses are right before and after each of the calls, all of which come back, and one that
throws changes nothing but the list of the moves. -/
def RunsRight (s : Program) : List Call → Prop
  | [] => s.Right
  | c :: calls => s.Right ∧ ∃ s' thrown, s.call c = .ok (s', thrown) ∧
    (thrown ≠ none → s' = { s with moves := s'.moves }) ∧ RunsRight s' calls

theorem Inv.runs (h : s.Inv) (hcalls : Along step Fits s calls) : s.RunsRight calls := by
  induction calls generalizing s with
  | nil => exact h.right
  | cons c calls ih =>
    obtain ⟨hfits, hrest⟩ := hcalls
    obtain ⟨s', thrown, hcall, hinv, hmoves⟩ := call_sound h hfits
    exact ⟨h.right, s', thrown, hcall, hmoves, ih hinv (hrest s' (Except.bind_of_ok hcall _))⟩

end Program

end TTAProgram

end OpenAsip
