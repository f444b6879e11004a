import Mathlib.Data.List.Sort
import Mathlib.Logic.Function.Basic
import OpenAsip.Outcomes

namespace OpenAsip
set_option autoImplicit true

namespace TTAProgram

/-- What the references to one instruction share. -/
structure InstructionReferenceImpl (ι ρ : Type) where
  ins : ι
  /-- In the order of the set. -/
  refs : List ρ

/-- The manager with the objects of the two other classes at their addresses. -/
structure InstructionReferenceManager (ι ρ κ : Type) where
  /-- In the order of the map. -/
  references : List (ι × κ)
  /-- An impl that is deleted is no longer there. -/
  heap : κ → Option (InstructionReferenceImpl ι ρ)
  /-- The pointer of a reference, which is `none` in a null reference, if there is the reference. -/
  impl : ρ → Option (Option κ)

namespace InstructionReferenceManager

variable {ι ρ κ : Type} [LinearOrder ι] [LinearOrder ρ] [DecidableEq κ]

/-- The manager of a new program, before there are references. -/
def empty : InstructionReferenceManager ι ρ κ where
  references := []
  heap _ := none
  impl _ := none

section Code

variable (s : InstructionReferenceManager ι ρ κ)

def find (ins : ι) : Option κ := (s.references.find? fun e => e.1 = ins).map Prod.snd

def store (p : κ) (x : Option (InstructionReferenceImpl ι ρ)) :
    InstructionReferenceManager ι ρ κ :=
  { s with heap := Function.update s.heap p x }

def setReference (r : ρ) (pointer : Option (Option κ)) : InstructionReferenceManager ι ρ κ :=
  { s with impl := Function.update s.impl r pointer }

def insertEntry (ins : ι) (p : κ) : InstructionReferenceManager ι ρ κ :=
  { s with references := s.references.orderedInsert (fun e e' => e.1 ≤ e'.1) (ins, p) }

def eraseEntry (ins : ι) : InstructionReferenceManager ι ρ κ :=
  { s with references := s.references.filter fun e => e.1 ≠ ins }

/-- The destructor of the impl asserts once more that it has no references. -/
def referenceDied (ins : ι) : Outcome (InstructionReferenceManager ι ρ κ) :=
  match s.find ins with
  | none => .error .assertion
  | some p =>
    match s.heap p with
    | none => .error .undefined
    | some x => if x.refs = [] then .ok ((s.store p none).eraseEntry ins) else .error .assertion

def addRef (p : κ) (r : ρ) : Outcome (InstructionReferenceManager ι ρ κ) :=
  match s.heap p with
  | none => .error .undefined
  | some x => .ok (s.store p (some { x with
      refs := if r ∈ x.refs then x.refs else x.refs.orderedInsert (· ≤ ·) r }))

/-- The impl may be deleted, which the result tells: it is true if the impl stays alive. -/
def removeRef (p : κ) (r : ρ) : Outcome (InstructionReferenceManager ι ρ κ × Bool) :=
  match s.heap p with
  | none => .error .undefined
  | some x =>
    if r ∈ x.refs then
      let s' := s.store p (some { x with refs := x.refs.erase r })
      if x.refs.erase r = [] then do
        let s'' ← s'.referenceDied x.ins
        .ok (s'', false)
      else .ok (s', true)
    else .error .assertion

/-- A reference stops pointing where it points, unless it is null. -/
def leave (r : ρ) : Option κ → Outcome (InstructionReferenceManager ι ρ κ × Bool)
  | none => .ok (s, true)
  | some p => s.removeRef p r

/-- A reference gets its pointer, which the constructors, the assignment and `setImpl` end with. -/
def join (r : ρ) (pointer : Option κ) : Outcome (InstructionReferenceManager ι ρ κ) :=
  match pointer with
  | none => .ok (s.setReference r (some none))
  | some p => (s.setReference r (some (some p))).addRef p r

/-- The copy constructor. -/
def copy (r ref : ρ) : Outcome (InstructionReferenceManager ι ρ κ) :=
  match s.impl ref with
  | none => .error .undefined
  | some pointer => s.join r pointer

/-- The assignment operator. -/
def assign (r ref : ρ) : Outcome (InstructionReferenceManager ι ρ κ) :=
  match s.impl r, s.impl ref with
  | some old, some new =>
    if new = old then .ok s
    else do
      let (s', _) ← s.leave r old
      s'.join r new
  | _, _ => .error .undefined

/-- The destructor. -/
def destroy (r : ρ) : Outcome (InstructionReferenceManager ι ρ κ) :=
  match s.impl r with
  | none => .error .undefined
  | some old => do
    let (s', _) ← s.leave r old
    .ok (s'.setReference r none)

def setImpl (r : ρ) (newImpl : Option κ) : Outcome (InstructionReferenceManager ι ρ κ × Bool) :=
  match s.impl r with
  | none => .error .undefined
  | some old =>
    if newImpl = old then .error .assertion
    else do
      let (s', staysAlive) ← s.leave r old
      let s'' ← s'.join r newImpl
      .ok (s'', staysAlive)

/-- A new impl gets the address `p`. -/
def createReference (r : ρ) (ins : ι) (p : κ) : Outcome (InstructionReferenceManager ι ρ κ) :=
  match s.find ins with
  | none => ((s.store p (some ⟨ins, []⟩)).insertEntry ins p).join r (some p)
  | some q => s.join r (some q)

/-- The references of `other` are copied before the loop. -/
def merge (p other : κ) : Outcome (InstructionReferenceManager ι ρ κ) :=
  match s.heap other with
  | none => .error .undefined
  | some x => x.refs.foldlM
      (fun s r => do
        let (s', _) ← s.setImpl r (some p)
        .ok s') s

def replace (insA insB : ι) : Outcome (InstructionReferenceManager ι ρ κ) :=
  match s.find insA with
  | none => .error (.exception .notAvailable)
  | some a =>
    match s.find insB with
    | none =>
      match s.heap a with
      | none => .error .undefined
      | some x => .ok (((s.store a (some { x with ins := insB })).eraseEntry insA).insertEntry insB a)
    | some b => s.merge b a

/-- The loop of `nullify`. One that is not through after so many iterations counts as a failure. -/
def nullifyLoop (p : κ) : Nat → InstructionReferenceManager ι ρ κ →
    Outcome (InstructionReferenceManager ι ρ κ)
  | 0, _ => .error .undefined
  | n + 1, s =>
    match s.heap p with
    | none => .error .undefined
    | some x =>
      match x.refs with
      | [] => .ok s
      | r :: _ => do
        let (s', staysAlive) ← s.setImpl r none
        if staysAlive then nullifyLoop p n s' else .ok s'

def nullify (p : κ) : Outcome (InstructionReferenceManager ι ρ κ) :=
  match s.heap p with
  | none => .error .undefined
  | some x => nullifyLoop p (x.refs.length + 1) s

/-- The loop of `clearReferences`, with the same bound on the iterations. -/
def clearLoop : Nat → InstructionReferenceManager ι ρ κ →
    Outcome (InstructionReferenceManager ι ρ κ)
  | 0, _ => .error .undefined
  | n + 1, s =>
    match s.references with
    | [] => .ok s
    | (_, p) :: _ => do
      let s' ← s.nullify p
      clearLoop n s'

def clearReferences : Outcome (InstructionReferenceManager ι ρ κ) := do
  let s' ← clearLoop (s.references.length + 1) s
  .ok { s' with references := [] }

def hasReference (ins : ι) : Bool := (s.find ins).isSome

def referenceCount (ins : ι) : Outcome Nat :=
  match s.find ins with
  | none => .ok 0
  | some p =>
    match s.heap p with
    | none => .error .undefined
    | some x => .ok x.refs.length

/-- A null reference stands for the null instruction, `none` here. -/
def instruction (r : ρ) : Outcome (Option ι) :=
  match s.impl r with
  | none => .error .undefined
  | some none => .ok none
  | some (some p) =>
    match s.heap p with
    | none => .error .undefined
    | some x => .ok (some x.ins)

end Code

end InstructionReferenceManager

end TTAProgram

end OpenAsip
