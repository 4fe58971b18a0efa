import FiniteState.Automaton.Edit
import FiniteState.Problem.Reader

/-! # Formats of automata

Nondeterministic automata declare all their states. Deterministic ones declare only the start;
final states and targets of transitions are declared by being named, and a later transition
replaces an earlier one with the same source and symbol.
-/

namespace FiniteState.Problem

/-! ## Building blocks -/

def declareStates (a : Automaton) (names : List String) : Except AutomatonError Automaton :=
  names.foldlM (fun a name => a.addState name false) a

/-- Makes declared states accepting. -/
def acceptDeclared (a : Automaton) (names : List String) : Except AutomatonError Automaton :=
  names.foldlM (fun a name => do a.setAccepting (← a.resolve name) true) a

/-- Makes states accepting, which are declared thereby. -/
def acceptNamed (a : Automaton) (names : List String) : Except AutomatonError Automaton :=
  names.foldlM (fun a name => do
    let b := a.addUnlessNamed name
    b.setAccepting (← b.resolve name) true) a

def Transition.addTo (t : Transition) (a : Automaton) : Except AutomatonError Automaton := do
  let source ← a.resolve t.source
  let target ← a.resolve t.target
  a.addEdge source t.label target

/-- Adds a transition between declared states, instead of those with the same source and symbol.
Silent edges replace nothing; a deterministic automaton has none anyway. -/
def Transition.replaceIn (t : Transition) (a : Automaton) :
    Except AutomatonError Automaton := do
  let source ← a.resolve t.source
  let target ← a.resolve t.target
  match t.label with
  | .symbol c => a.replaceEdges source c target
  | .epsilon => a.addEdge source .epsilon target

/-- Declares the targets of transitions. -/
def ensureTargets (a : Automaton) (transitions : List Transition) : Automaton :=
  transitions.foldl (fun a t => a.addUnlessNamed t.target) a

namespace Reader

/-- Brings transitions in one by one, each of which fails at its own line. -/
def applyTransitions (apply : Transition → Automaton → Except AutomatonError Automaton)
    (a : Automaton) (transitions : List Transition) : Reader Automaton :=
  transitions.foldlM (fun a t => atLine t.line (apply t a)) a

/-! ## The two formats -/

/-- Reads a nondeterministic automaton, whose start is the first declared state. -/
def nondeterministic : Reader Automaton := do
  let stateCount ← count .stateCount
  let names ← words .states .states stateCount
  let empty := Automaton.new (← alphabet)
  let declared ← here (declareStates empty names)
  let finalCount ← count .finalStateCount
  let finals ← words .finalStates .finalStates finalCount
  let marked ← here (acceptDeclared declared finals)
  applyTransitions Transition.addTo marked (← transitions)

/-- Reads the name of the start, the first word of its line. -/
def startName : Reader String := do
  match Text.words (← nextLine .startState) with
  | name :: _ => return .ofList name
  | [] => fail (.missingLine .startState)

/-- Reads a deterministic automaton. -/
def deterministic : Reader Automaton := do
  let _ ← count .stateCount
  let start ← startName
  let empty := Automaton.new (← alphabet)
  let declared ← here (empty.addState start false)
  let finalCount ← count .finalStateCount
  let finals ← words .finalStates .finalStates finalCount
  let marked ← here (acceptNamed declared finals)
  let moves ← transitions
  applyTransitions Transition.replaceIn (ensureTargets marked moves) moves

end Reader

end FiniteState.Problem
