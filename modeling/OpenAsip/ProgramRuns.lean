import Mathlib.Data.List.TakeWhile
import OpenAsip.ProgramAddresses

namespace OpenAsip
set_option autoImplicit true

namespace TTAProgram

namespace Program
open Tiled

variable {s t : Program}

section Moving

theorem dropWhile_ne {pre post : List Nat} (h : proc ∉ pre) :
    (pre ++ proc :: post).dropWhile (· ≠ proc) = proc :: post := by
  induction pre with
  | nil => rw [List.nil_append, List.dropWhile_cons_of_neg (by simp)]
  | cons q pre ih =>
    have hq : q ≠ proc := fun hq => h (hq ▸ List.mem_cons_self)
    rw [List.cons_append, List.dropWhile_cons_of_pos (by simp [hq])]
    exact ih fun hmem => h (List.mem_cons_of_mem q hmem)

theorem nextProcedure_eq {pre post : List Nat} (h : s.procedures = pre ++ proc :: post)
    (hproc : proc ∉ pre) : s.nextProcedure proc = post.head? := by
  rw [nextProcedure, h, dropWhile_ne hproc, List.tail_cons]

theorem nextProcedure_none (h : proc ∉ s.procedures) : s.nextProcedure proc = none := by
  have hnil : s.procedures.dropWhile (· ≠ proc) = [] := by
    rw [List.dropWhile_eq_nil_iff]
    intro q hq
    simp only [ne_eq, decide_eq_true_eq]
    exact fun he => h (he ▸ hq)
  rw [nextProcedure, hnil]
  rfl

theorem startAddr_moveProcedure {pre post : List Nat} (h : s.procedures = pre ++ proc :: post)
    (hnodup : s.procedures.Nodup) (d : Int) (k : Nat) : (s.moveProcedure proc d).startAddr k =
      if k ∈ proc :: post then (((s.startAddr k : Int) + d) % 2 ^ 32).toNat else s.startAddr k := by
  rw [h] at hnodup
  obtain ⟨_, hpost, hdisjoint⟩ := List.nodup_append.1 hnodup
  have hproc : proc ∉ pre := fun hmem => hdisjoint proc hmem proc List.mem_cons_self rfl
  rw [moveProcedure, h, dropWhile_ne hproc]
  exact foldl_update (fun a : Nat => (((a : Int) + d) % 2 ^ 32).toNat) hpost s.startAddr k

/-- The procedures behind one whose length has changed are moved so that they fit again. -/
theorem tiled_moveFollowing {len : Nat → Nat} {d : Int} (hnodup : s.procedures.Nodup)
    (ht : Tiled s.startAddr len s.start s.procedures)
    (hlen : ∀ k ≠ proc, s.size k = len k) (hd : (s.size proc : Int) = len proc + d)
    (hstop : s.stop < 2 ^ 32) :
    Tiled (s.moveFollowing proc d).startAddr s.size s.start s.procedures := by
  by_cases hproc : proc ∈ s.procedures
  · obtain ⟨pre, post, h, hpre⟩ := List.eq_append_cons_of_mem hproc
    have hnext := nextProcedure_eq h hpre
    rw [h] at hnodup ht
    obtain ⟨_, hrest, hdisjoint⟩ := List.nodup_append.1 hnodup
    obtain ⟨hpost, _⟩ := List.nodup_cons.1 hrest
    have hpreLen : ∀ k ∈ pre, s.size k = len k := fun k hk =>
      hlen k fun he => hpre (he ▸ hk)
    have hpostLen : ∀ k ∈ post, s.size k = len k := fun k hk =>
      hlen k fun he => hpost (he ▸ hk)
    obtain ⟨htpre, hstart, htpost⟩ := append_iff.1 ht
    -- the starts of the procedures up to this one stay, those behind it move
    have hmoved : (∀ k ∈ pre ++ [proc], (s.moveFollowing proc d).startAddr k = s.startAddr k) ∧
        ∀ k ∈ post, ((s.moveFollowing proc d).startAddr k : Int) = s.startAddr k + d := by
      rw [moveFollowing, hnext]
      cases post with
      | nil => exact ⟨fun _ _ => rfl, fun k hk => absurd hk List.not_mem_nil⟩
      | cons q post =>
        have h' : s.procedures = (pre ++ [proc]) ++ q :: post := by
          rw [h, List.append_assoc]
          rfl
        have hnodup' : s.procedures.Nodup := h ▸ hnodup
        have hmove := startAddr_moveProcedure h' hnodup' d
        rw [h'] at hnodup'
        obtain ⟨_, _, hdisjoint'⟩ := List.nodup_append.1 hnodup'
        constructor
        · intro k hk
          exact (hmove k).trans (if_neg fun hmem => hdisjoint' k hk k hmem rfl)
        · intro k hk
          have hbounds := htpost.bounds hk
          have hextent : extent s.size s.procedures =
              extent len pre + (s.size proc + extent len (q :: post)) := by
            rw [h, extent_append, extent_cons, extent_congr hpreLen, extent_congr hpostLen]
          rw [stop, hextent] at hstop
          change ((s.moveProcedure q d).startAddr k : Int) = _
          rw [hmove k, if_pos hk]
          omega
    rw [h, append_iff]
    refine ⟨htpre.congr (fun k hk => hmoved.1 k (List.mem_append_left _ hk)) hpreLen, ?_, ?_⟩
    · rw [hmoved.1 proc (List.mem_append_right _ List.mem_cons_self), hstart,
        extent_congr hpreLen]
    · apply htpost.move hmoved.2 hpostLen
      rw [extent_congr hpreLen]
      omega
  · have hsame : s.moveFollowing proc d = s := by rw [moveFollowing, nextProcedure_none hproc]
    rw [hsame]
    exact ht.congr (fun _ _ => rfl) fun k hk => hlen k fun he => hproc (he ▸ hk)

/-- Nothing else is changed. -/
theorem moveFollowing_fields (s : Program) (proc : Nat) (d : Int) :
    (s.moveFollowing proc d).start = s.start ∧
    (s.moveFollowing proc d).procedures = s.procedures ∧
    (s.moveFollowing proc d).instructions = s.instructions ∧
    (s.moveFollowing proc d).parent = s.parent := by
  rw [moveFollowing]
  split
  · exact ⟨rfl, rfl, rfl, rfl⟩
  · exact ⟨rfl, rfl, rfl, rfl⟩

end Moving

section Steps

/-- The program stays within the addresses with so many instructions more. -/
def Room (s : Program) (proc n : Nat) : Prop :=
  proc ∈ s.procedures → s.stop + n < 2 ^ 32 ∧ s.size proc + n < 2 ^ 31

theorem extent_replace {len len' : Nat → Nat} {d : Int} {ks : List Nat} (hnodup : ks.Nodup)
    (hk : k ∈ ks) (hlen : ∀ j ≠ k, len' j = len j) (hd : (len' k : Int) = len k + d) :
    (extent len' ks : Int) = extent len ks + d := by
  obtain ⟨pre, post, rfl, hpre⟩ := List.eq_append_cons_of_mem hk
  obtain ⟨_, hrest, _⟩ := List.nodup_append.1 hnodup
  obtain ⟨hpost, _⟩ := List.nodup_cons.1 hrest
  rw [extent_append, extent_append, extent_cons, extent_cons,
    extent_congr fun j hj => hlen j fun he => hpre (he ▸ hj),
    extent_congr fun j hj => hlen j fun he => hpost (he ▸ hj)]
  push_cast
  omega

/-- A procedure whose instructions have changed, before the others are moved. -/
theorem Inv.replace {d : Int} (h : s.Inv) (hstart : t.start = s.start)
    (hprocs : t.procedures = s.procedures) (haddr : t.startAddr = s.startAddr)
    (hothers : ∀ k ≠ proc, t.instructions k = s.instructions k)
    (hreg : ∀ ins k, t.parent ins = some k ↔ ins ∈ t.instructions k)
    (hdistinct : (t.instructions proc).Nodup) (hd : (t.size proc : Int) = s.size proc + d)
    (hroom : proc ∈ s.procedures → (s.stop : Int) + d < 2 ^ 32 ∧ t.size proc < 2 ^ 31) :
    (t.moveFollowing proc d).Inv := by
  obtain ⟨hstart', hprocs', hinstructions', hparent'⟩ := moveFollowing_fields t proc d
  have hlen : ∀ k ≠ proc, t.size k = s.size k := fun k hk => by rw [size, size, hothers k hk]
  have hsize : (t.moveFollowing proc d).size = t.size := by
    funext k
    rw [size, size, hinstructions']
  have hstop : t.stop < 2 ^ 32 := by
    rw [stop, hstart, hprocs]
    by_cases hproc : proc ∈ s.procedures
    · have hextent := extent_replace h.nodup hproc hlen hd
      have := (hroom hproc).1
      rw [stop] at this
      push_cast at this
      omega
    · rw [extent_congr fun k hk => hlen k fun he => hproc (he ▸ hk)]
      exact h.stop_lt
  constructor
  · rw [hprocs', hprocs]
    exact h.nodup
  · rw [hparent', hinstructions']
    exact hreg
  · intro k
    rw [hinstructions']
    by_cases hk : k = proc
    · rw [hk]
      exact hdistinct
    · rw [hothers k hk]
      exact h.distinct k
  · rw [hsize, hstart', hprocs']
    apply tiled_moveFollowing (hprocs ▸ h.nodup) _ hlen hd hstop
    rw [haddr, hstart, hprocs]
    exact h.tiled
  · rw [stop, hsize, hstart', hprocs']
    exact hstop
  · intro k hk
    rw [hprocs', hprocs] at hk
    rw [hsize]
    by_cases hkp : k = proc
    · subst hkp
      exact (hroom hk).2
    · rw [hlen k hkp]
      exact h.size_lt k hk

/-- An instruction that is in no procedure is put into one. -/
theorem Inv.place (h : s.Inv) (hfree : s.parent ins = none)
    (hl : l.Perm (ins :: s.instructions proc)) (hroom : s.Room proc 1) :
    (((s.setParent ins (some proc)).setInstructions proc l).moveFollowing proc 1).Inv := by
  have hnew : ∀ k, ins ∉ s.instructions k := by
    intro k hmem
    rw [(h.registered ins k).2 hmem] at hfree
    cases hfree
  have hself : ((s.setParent ins (some proc)).setInstructions proc l).instructions proc = l :=
    Function.update_self ..
  have hother {k : Nat} (hk : k ≠ proc) :
      ((s.setParent ins (some proc)).setInstructions proc l).instructions k = s.instructions k :=
    Function.update_of_ne hk ..
  have hsize : ((s.setParent ins (some proc)).setInstructions proc l).size proc =
      s.size proc + 1 := by
    rw [size, hself, hl.length_eq, List.length_cons, size]
  apply h.replace (t := (s.setParent ins (some proc)).setInstructions proc l) rfl rfl rfl
    (fun k hk => hother hk)
  · intro i k
    change Function.update s.parent ins (some proc) i = some k ↔ _
    by_cases hi : i = ins
    · subst hi
      rw [Function.update_self]
      by_cases hk : k = proc
      · subst hk
        rw [hself, hl.mem_iff]
        exact ⟨fun _ => List.mem_cons_self, fun _ => rfl⟩
      · rw [hother hk]
        exact ⟨fun he => absurd (Option.some.inj he).symm hk, fun hmem => absurd hmem (hnew k)⟩
    · rw [Function.update_of_ne hi, h.registered]
      by_cases hk : k = proc
      · subst hk
        rw [hself, hl.mem_iff, List.mem_cons, or_iff_right hi]
      · rw [hother hk]
  · rw [hself, hl.nodup_iff, List.nodup_cons]
    exact ⟨hnew proc, h.distinct proc⟩
  · rw [hsize]
    push_cast
    rfl
  · intro hproc
    have := hroom hproc
    rw [hsize]
    omega

/-- An instruction is taken out of its procedure. -/
theorem Inv.takeOut (h : s.Inv) (hmem : ins ∈ s.instructions proc) :
    (((s.setInstructions proc ((s.instructions proc).erase ins)).setParent ins none).moveFollowing
      proc (-1)).Inv := by
  let t := (s.setInstructions proc ((s.instructions proc).erase ins)).setParent ins none
  have hself : t.instructions proc = (s.instructions proc).erase ins := Function.update_self ..
  have hother {k : Nat} (hk : k ≠ proc) : t.instructions k = s.instructions k :=
    Function.update_of_ne hk ..
  have hpos := List.length_pos_of_mem hmem
  have hsize : t.size proc = s.size proc - 1 := by
    rw [size, hself, List.length_erase_of_mem hmem, size]
  rw [← size] at hpos
  apply h.replace (t := t) rfl rfl rfl (fun k hk => hother hk)
  · intro i k
    change Function.update s.parent ins none i = some k ↔ _
    by_cases hi : i = ins
    · subst hi
      rw [Function.update_self]
      by_cases hk : k = proc
      · subst hk
        rw [hself]
        exact ⟨(fun he => by cases he), fun hmem => absurd hmem (h.distinct k).not_mem_erase⟩
      · rw [hother hk]
        exact ⟨(fun he => by cases he), fun hmem' => absurd (h.proc_unique hmem' hmem) hk⟩
    · rw [Function.update_of_ne hi, h.registered]
      by_cases hk : k = proc
      · subst hk
        rw [hself, List.mem_erase_of_ne hi]
      · rw [hother hk]
  · rw [hself]
    exact (h.distinct proc).erase ins
  · rw [hsize]
    omega
  · intro hproc
    have := h.size_lt proc hproc
    have := h.stop_lt
    rw [hsize]
    omega

/-- A procedure loses all its instructions. -/
theorem Inv.empty (h : s.Inv) (ht : t = { s.setInstructions proc [] with
      parent := fun ins => if ins ∈ s.instructions proc then none else s.parent ins
      deleted := fun ins => decide (ins ∈ s.instructions proc) || s.deleted ins }) :
    (t.moveFollowing proc (-(s.instructions proc).length)).Inv := by
  have hself : t.instructions proc = [] := by
    rw [ht]
    exact Function.update_self ..
  have hother {k : Nat} (hk : k ≠ proc) : t.instructions k = s.instructions k := by
    rw [ht]
    exact Function.update_of_ne hk ..
  have hparent (ins : Nat) :
      t.parent ins = if ins ∈ s.instructions proc then none else s.parent ins := by rw [ht]
  have hsize : t.size proc = 0 := by
    rw [size, hself]
    rfl
  apply h.replace (by rw [ht]; rfl) (by rw [ht]; rfl) (by rw [ht]; rfl) (fun k hk => hother hk)
  · intro i k
    rw [hparent]
    by_cases hk : k = proc
    · subst hk
      rw [hself]
      split
      · exact ⟨(fun he => by cases he), fun hmem => absurd hmem List.not_mem_nil⟩
      · next hmem =>
        exact ⟨fun he => absurd ((h.registered i k).1 he) hmem,
          fun hmem => absurd hmem List.not_mem_nil⟩
    · rw [hother hk]
      split
      · next hmem =>
        exact ⟨(fun he => by cases he), fun hmem' => absurd (h.proc_unique hmem' hmem) hk⟩
      · exact h.registered i k
  · rw [hself]
    exact List.nodup_nil
  · rw [hsize, size]
    omega
  · intro _
    have := h.stop_lt
    rw [hsize]
    omega

end Steps

end Program

end TTAProgram

end OpenAsip
