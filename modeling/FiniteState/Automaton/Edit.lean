import FiniteState.Automaton.Text
import FiniteState.Naming

/-! # Editing automata

The operations that build an automaton step by step. Each one either gives the changed
automaton or says what is wrong; an automaton is never half changed. `Edit` lists the operations,
and `run` performs a sequence of them, in which a failing one changes nothing.
-/

namespace FiniteState

namespace Automaton

variable (a : Automaton)

/-! ## States -/

/-- Adds a state under the next id. The first state becomes the start. -/
def insertState (name : String) (accepting : Bool) : Automaton :=
  { a with
    states := a.states ++ [⟨a.nextId, name, accepting⟩]
    start := a.start.or (some a.nextId)
    nextId := a.nextId + 1 }

/-- Adds a state, whose name must be unused. Its id is the next one. -/
def addState (name : String) (accepting : Bool) : Except AutomatonError Automaton :=
  if name ∈ a.names then .error (.nameTaken name)
  else .ok (a.insertState name accepting)

/-- The name of a state that is added without one: its number in the order of creation, with the
marks that make it unused. -/
def numberedName : String := Naming.unused a.names (toString (a.nextId + 1))

/-- Adds a state with a generated name. Its id is the next one. -/
def addNumbered (accepting : Bool) : Automaton := a.insertState a.numberedName accepting

/-- Adds a state that is not accepting unless the name is in use. -/
def addUnlessNamed (name : String) : Automaton :=
  if name ∈ a.names then a else a.insertState name false

def resolve (name : String) : Except AutomatonError StateId :=
  match a.idOf? name with
  | some q => .ok q
  | none => .error (.unknownName name)

def stateOf (q : StateId) : Except AutomatonError State :=
  match a.state? q with
  | some s => .ok s
  | none => .error (.unknownId q)

/-- Drops a state and every edge that touches it. -/
def eraseState (q : StateId) : Automaton :=
  { a with
    states := a.states.filter fun s => s.id ≠ q
    edges := a.edges.filter fun e => e.source ≠ q ∧ e.target ≠ q }

/-- Removes a state, which must not be the start, and every edge that touches it. -/
def removeState (q : StateId) : Except AutomatonError Automaton := do
  let s ← a.stateOf q
  if a.start = some q then throw (.startRemoval s.name)
  return a.eraseState q

def startAt (q : StateId) : Except AutomatonError Automaton := do
  let _ ← a.stateOf q
  return { a with start := some q }

def markAccepting (q : StateId) (accepting : Bool) : Automaton :=
  { a with states := a.states.map fun s =>
      if s.id = q then { s with accepting := accepting } else s }

def setAccepting (q : StateId) (accepting : Bool) : Except AutomatonError Automaton := do
  let _ ← a.stateOf q
  return a.markAccepting q accepting

/-! ## Edges -/

/-- Whether an edge fits: first its label, then its source, then its target is looked at. -/
def checkEdge (e : Edge) : Except AutomatonError Unit := do
  match e.label with
  | .symbol c => unless c ∈ a.alphabet do throw (.foreignSymbol c)
  | .epsilon => pure ()
  let _ ← a.stateOf e.source
  let _ ← a.stateOf e.target

def link (e : Edge) : Automaton := { a with edges := a.edges.insert e }

/-- Puts an edge in instead of all others with its source and label. -/
def relink (e : Edge) : Automaton :=
  { a with edges :=
      (a.edges.filter fun f => ¬(f.source = e.source ∧ f.label = e.label)).insert e }

def addEdge (source : StateId) (label : Label) (target : StateId) :
    Except AutomatonError Automaton := do
  a.checkEdge ⟨source, label, target⟩
  return a.link ⟨source, label, target⟩

/-- Makes one state the only one that a symbol leads to from another. -/
def replaceEdges (source : StateId) (c : Char) (target : StateId) :
    Except AutomatonError Automaton := do
  a.checkEdge ⟨source, .symbol c, target⟩
  return a.relink ⟨source, .symbol c, target⟩

variable {a} {e f : Edge}

@[simp] theorem mem_edges_link : f ∈ (a.link e).edges ↔ f = e ∨ f ∈ a.edges :=
  OrderedSet.mem_insert

@[simp] theorem mem_edges_relink : f ∈ (a.relink e).edges ↔
    f = e ∨ (f ∈ a.edges ∧ ¬(f.source = e.source ∧ f.label = e.label)) := by
  rw [relink, OrderedSet.mem_insert, OrderedSet.mem_filter, decide_eq_true_eq]

@[simp] theorem mem_edges_eraseState {q : StateId} :
    f ∈ (a.eraseState q).edges ↔ f ∈ a.edges ∧ f.source ≠ q ∧ f.target ≠ q := by
  simp [eraseState]

end Automaton

/-! ## Sequences of edits -/

/-- A request to change an automaton. -/
inductive Edit where
  | addState (name : String) (accepting : Bool)
  | addNumbered (accepting : Bool)
  | addUnlessNamed (name : String)
  | removeState (q : StateId)
  | startAt (q : StateId)
  | setAccepting (q : StateId) (accepting : Bool)
  | addEdge (source : StateId) (label : Label) (target : StateId)
  | replaceEdges (source : StateId) (c : Char) (target : StateId)
deriving DecidableEq, Repr

namespace Automaton

/-- What an edit does to an automaton. -/
def edit (a : Automaton) : Edit → Except AutomatonError Automaton
  | .addState name accepting => a.addState name accepting
  | .addNumbered accepting => .ok (a.addNumbered accepting)
  | .addUnlessNamed name => .ok (a.addUnlessNamed name)
  | .removeState q => a.removeState q
  | .startAt q => a.startAt q
  | .setAccepting q accepting => a.setAccepting q accepting
  | .addEdge source label target => a.addEdge source label target
  | .replaceEdges source c target => a.replaceEdges source c target

/-- The id that a successful edit answers with: the state it added, or found by its name. -/
def answer (a : Automaton) : Edit → Option StateId
  | .addState _ _ | .addNumbered _ => some a.nextId
  | .addUnlessNamed name => some ((a.idOf? name).getD a.nextId)
  | _ => none

/-- The automaton after an edit; a failing edit leaves it as it is. -/
def after (a : Automaton) (request : Edit) : Automaton :=
  match a.edit request with
  | .ok b => b
  | .error _ => a

def run (a : Automaton) (requests : List Edit) : Automaton := requests.foldl after a

/-- The automaton that a sequence of edits builds over an alphabet. -/
def ofEdits (alphabet : Alphabet) (requests : List Edit) : Automaton :=
  (new alphabet).run requests

end Automaton

end FiniteState
