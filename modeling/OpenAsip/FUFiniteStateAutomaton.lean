import OpenAsip.ConflictDetectors

namespace OpenAsip
set_option autoImplicit true

namespace ConflictDetection

/-- `FSAStateIndex` with the constants `ILLEGAL_STATE` and `UNKNOWN_STATE`. -/
inductive FSAStateIndex where
  | state (index : Nat)
  | illegal
  | unknown
deriving DecidableEq, Repr

/-- The automaton of a function unit. The last transition is the one of the pseudo no-operation. -/
structure FUFiniteStateAutomaton (fu : FunctionUnit) where
  operationCollisionMatrices : List fu.CollisionMatrix
  stateCollisionMatrices : List fu.CollisionMatrix
  transitions : List (List FSAStateIndex)

namespace FUFiniteStateAutomaton
variable {fu : FunctionUnit}

def startState : FSAStateIndex := .state 0

/-- `transitions_[source][transition]`. -/
def transition (fsa : FUFiniteStateAutomaton fu) (source : FSAStateIndex) (transition : Nat) :
    Outcome FSAStateIndex :=
  match source with
  | .state index =>
    match fsa.transitions[index]? with
    | some row =>
      match row[transition]? with
      | some target => .ok target
      | none => .error .undefined
    | none => .error .undefined
  | _ => .error .undefined

/-- `addState` and `addCollisionMatrixForState`. -/
def addState (fsa : FUFiniteStateAutomaton fu) (m : fu.CollisionMatrix) :
    FUFiniteStateAutomaton fu :=
  { fsa with
    stateCollisionMatrices := fsa.stateCollisionMatrices ++ [m]
    transitions := fsa.transitions ++ [List.replicate (fu.operationCount + 1) .unknown] }

def setTransition (fsa : FUFiniteStateAutomaton fu) (source : Nat) (destination : FSAStateIndex)
    (transition : Nat) : FUFiniteStateAutomaton fu :=
  { fsa with transitions := fsa.transitions.modify source fun row => row.set transition destination }

/-- The state of `collisionMatrixStates_` with the matrix. -/
def findState (fsa : FUFiniteStateAutomaton fu) (m : fu.CollisionMatrix) : Option Nat :=
  fsa.stateCollisionMatrices.findIdx? fun m' => m'.equals m

/-- The constructor of a lazily built automaton. -/
def create (fu : FunctionUnit) : Outcome (FUFiniteStateAutomaton fu) := do
  let matrices ← collisionMatrices fu
  let nop ← vectorAt matrices fu.operationCount
  .ok (addState ⟨matrices, [], []⟩ nop)

/-- The row of the operation is tested in column 1, the cycle after the one of the state. The
pseudo no-operation has no row and is legal. -/
def isIllegal (stateMatrix : fu.CollisionMatrix) (transition : Nat) : Outcome Bool :=
  if transition = fu.operationCount then .ok false else stateMatrix.bitAt 1 transition

def resolveState (fsa : FUFiniteStateAutomaton fu) (source : FSAStateIndex) (transition : Nat) :
    Outcome (FSAStateIndex × FUFiniteStateAutomaton fu) := do
  let operationCollisionMatrix ← vectorAt fsa.operationCollisionMatrices transition
  match source with
  | .state index =>
    match fsa.stateCollisionMatrices[index]? with
    | some stateMatrix =>
      let illegal ← isIllegal stateMatrix transition
      if illegal then .ok (.illegal, fsa.setTransition index .illegal transition)
      else
        let newMatrix := stateMatrix.shiftLeft.orWith operationCollisionMatrix
        match fsa.findState newMatrix with
        | some target => .ok (.state target, fsa.setTransition index (.state target) transition)
        | none =>
          let target := fsa.stateCollisionMatrices.length
          .ok (.state target, (fsa.addState newMatrix).setTransition index (.state target) transition)
    | none => .error .undefined
  | _ => .error .undefined

/-- An unknown transition is resolved when it is asked for. -/
def destinationState (fsa : FUFiniteStateAutomaton fu) (source : FSAStateIndex)
    (transition : Nat) : Outcome (FSAStateIndex × FUFiniteStateAutomaton fu) := do
  let target ← fsa.transition source transition
  if target = .unknown then fsa.resolveState source transition else .ok (target, fsa)

/-- The transitions of one state are resolved, and the states they lead to are noted. -/
def resolveTransitions (handledStates : List Nat) (state : Nat)
    (acc : FUFiniteStateAutomaton fu × List Nat) (transition : Nat) :
    Outcome (FUFiniteStateAutomaton fu × List Nat) := do
  let (resolvedState, fsa) ← acc.1.resolveState (.state state) transition
  match resolvedState with
  | .state target =>
    if target ∉ handledStates ∧ target ≠ state then .ok (fsa, acc.2.insert target)
    else .ok (fsa, acc.2)
  | _ => .ok (fsa, acc.2)

/-- The loop of `buildStateMachine` for a number of rounds. A hash set may give its elements in any
order, which `order` stands for. The result is `none` when there are unfinished states left. -/
def buildLoop (order : List Nat → Nat) :
    Nat → FUFiniteStateAutomaton fu → List Nat → List Nat →
      Outcome (Option (FUFiniteStateAutomaton fu))
  | _, fsa, _, [] => .ok (some fsa)
  | 0, _, _, _ :: _ => .ok none
  | rounds + 1, fsa, handledStates, s :: l => do
    let state := (s :: l).getD (order (s :: l) % (s :: l).length) s
    let (fsa, unfinished) ← (List.range (fu.operationCount + 1)).foldlM
      (resolveTransitions handledStates state) (fsa, (s :: l).erase state)
    buildLoop order rounds fsa (state :: handledStates) unfinished

def buildStateMachine (order : List Nat → Nat) (rounds : Nat) (fsa : FUFiniteStateAutomaton fu) :
    Outcome (Option (FUFiniteStateAutomaton fu)) :=
  buildLoop order rounds fsa [] [0]

end FUFiniteStateAutomaton

/-- The state of `FSAFUResourceConflictDetector`. -/
structure FSADetector (fu : FunctionUnit) where
  fsa : FUFiniteStateAutomaton fu
  currentState : FSAStateIndex
  nextState : FSAStateIndex

namespace FSADetector
variable {fu : FunctionUnit}

/-- A transition that is taken for the first time is resolved. -/
def transitionLazy (d : FSADetector fu) (transition : Nat) :
    Outcome (FSAStateIndex × FUFiniteStateAutomaton fu) := do
  let target ← d.fsa.transition d.currentState transition
  if target = .unknown then d.fsa.resolveState d.currentState transition
  else .ok (target, d.fsa)

def issueOperationLazyInline (d : FSADetector fu) (id : Nat) :
    Outcome (Bool × FSADetector fu) := do
  let (target, fsa) ← d.transitionLazy id
  if target = .illegal then .ok (false, { d with fsa := fsa, nextState := .state 0 })
  else .ok (true, { d with fsa := fsa, nextState := target })

def advanceCycleLazyInline (d : FSADetector fu) : Outcome (FSADetector fu) := do
  let d := { d with currentState := d.nextState }
  let (target, fsa) ← d.transitionLazy fu.operationCount
  .ok { d with fsa := fsa, nextState := target }

def isIdle (d : FSADetector fu) : Bool :=
  d.currentState = FUFiniteStateAutomaton.startState ∧ d.currentState = d.nextState

/-- The constructor of the lazy detector. -/
def create (fu : FunctionUnit) : Outcome (FSADetector fu) := do
  let fsa ← FUFiniteStateAutomaton.create fu
  let (_, d) ← issueOperationLazyInline
    ⟨fsa, FUFiniteStateAutomaton.startState, .unknown⟩ fu.operationCount
  .ok d

def initializeAllStates (order : List Nat → Nat) (rounds : Nat) (d : FSADetector fu) :
    Outcome (Option (FSADetector fu)) := do
  let built ← d.fsa.buildStateMachine order rounds
  .ok (built.map fun fsa => { d with fsa := fsa })

/-- The simulation may leave out the advance of an idle detector. -/
def detector (fu : FunctionUnit) (skipIdle : Bool) :
    Detector Fault (FSADetector fu) (Fin fu.operationCount) where
  issue d id := d.issueOperationLazyInline id
  advance d := if skipIdle && d.isIdle then .ok d else d.advanceCycleLazyInline

end FSADetector
end ConflictDetection
end OpenAsip
