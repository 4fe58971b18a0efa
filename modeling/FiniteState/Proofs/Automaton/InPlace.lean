import FiniteState.Proofs.Automaton.Built
import FiniteState.Proofs.Automaton.Representation
import FiniteState.Proofs.Stateful

/-! # Edits in place

An indexed automaton can be changed where it is kept, one field after the other. An operation that
fails halfway would then leave the changes it has made. Every edit does its checks before its first
change: run in place, an edit that is refused leaves all fields as they were, and any other one
ends with the automaton that the edit gives.
-/

namespace FiniteState.IndexedAutomaton

/-- Changes an indexed automaton step by step; a failure keeps the changes made before it. -/
abbrev InPlace (α : Type) := ExceptT AutomatonError (StateM IndexedAutomaton) α

namespace InPlace

variable {α : Type}

/-- Looks something up, which changes nothing. -/
def look (f : IndexedAutomaton → Except AutomatonError α) : InPlace α := do
  match f (← get) with
  | .ok y => return y
  | .error e => throw e

def addState (name : String) (accepting : Bool) : InPlace (Option StateId) := do
  if name ∈ (← get).idsByName then throw (.nameTaken name)
  let q := (← get).nextId
  modify fun x => { x with nextId := q + 1 }
  modify fun x => { x with idsByName := x.idsByName.insert name q }
  modify fun x => x.put q ⟨name, accepting, ∅⟩
  modify fun x => { x with start := x.start.or (some q) }
  return some q

def addNumbered (accepting : Bool) : InPlace (Option StateId) := do
  let x ← get
  addState (Naming.unused x.idsByName.keys (toString (x.nextId + 1))) accepting

def addUnlessNamed (name : String) : InPlace (Option StateId) := do
  match (← get).idsByName[name]? with
  | some q => return some q
  | none => addState name false

def removeState (q : StateId) : InPlace (Option StateId) := do
  let s ← look (·.stateOf q)
  if (← get).start = some q then throw (.startRemoval s.name)
  modify fun x => { x with states := x.states.erase q }
  modify fun x => { x with idsByName := x.idsByName.erase s.name }
  modify fun x => { x with states := x.states.map fun _ t => t.dropTarget q }
  return none

def startAt (q : StateId) : InPlace (Option StateId) := do
  let _ ← look (·.stateOf q)
  modify fun x => { x with start := some q }
  return none

/-- Puts another state in the place of the one with an id. -/
def alter (q : StateId) (f : IndexedState → IndexedState) : InPlace (Option StateId) := do
  let s ← look (·.stateOf q)
  modify fun x => x.put q (f s)
  return none

/-- What an edit does in place. -/
def edit : Edit → InPlace (Option StateId)
  | .addState name accepting => addState name accepting
  | .addNumbered accepting => addNumbered accepting
  | .addUnlessNamed name => addUnlessNamed name
  | .removeState q => removeState q
  | .startAt q => startAt q
  | .setAccepting q accepting => alter q fun s => { s with accepting }
  | .addEdge source label target => do
    look (·.checkEdge ⟨source, label, target⟩)
    alter source (·.addTarget label target)
  | .replaceEdges source c target => do
    look (·.checkEdge ⟨source, .symbol c, target⟩)
    alter source (·.setTarget (.symbol c) target)

/-! ## Runs in place -/

variable {x : IndexedAutomaton}

/-- What a reply leaves of an automaton: the changed one, or the one that there was. -/
def settle (x : IndexedAutomaton) :
    Reply → Except AutomatonError (Option StateId) × IndexedAutomaton
  | .ok (answer, y) => (.ok answer, y)
  | .error e => (.error e, x)

theorem runFrom_look (f : IndexedAutomaton → Except AutomatonError α) :
    runFrom (look f) x = (f x, x) := by
  cases h : f x <;> simp [look, h]

theorem runFrom_addState (name : String) (accepting : Bool) :
    runFrom (addState name accepting) x = settle x (x.addState name accepting) := by
  by_cases h : name ∈ x.idsByName
  · simp [addState, IndexedAutomaton.addState, h, settle]
  · simp [addState, IndexedAutomaton.addState, h, settle, insertState, put, Except.map]

theorem runFrom_removeState (q : StateId) :
    runFrom (removeState q) x = settle x (x.removeState q) := by
  rw [removeState, IndexedAutomaton.removeState, runFrom_bind, runFrom_look]
  cases x.stateOf q with
  | error e => rfl
  | ok s =>
    by_cases hstart : x.start = some q
    · simp [hstart, settle]
      rfl
    · simp [hstart, settle, eraseState, Except.map]

theorem runFrom_startAt (q : StateId) :
    runFrom (startAt q) x = settle x (x.startAt q) := by
  rw [startAt, IndexedAutomaton.startAt, runFrom_bind, runFrom_look]
  cases x.stateOf q <;> rfl

theorem runFrom_alter (q : StateId) (f : IndexedState → IndexedState) :
    runFrom (alter q f) x = settle x (do
      let s ← x.stateOf q
      return (none, x.put q (f s))) := by
  rw [alter, runFrom_bind, runFrom_look]
  cases x.stateOf q <;> rfl

/-- A reply is the result of the addition that it comes from. -/
theorem eq_of_toOption_map_ok {added reply : Reply}
    (h : added.toOption.map .ok = some reply) : added = reply := by
  cases added with
  | error e => cases h
  | ok done => exact Option.some.inj h

/-- Run in place, an edit has the reply that it has otherwise, and leaves what the reply says. -/
theorem runFrom_edit {request : Edit} {reply : Reply} (h : x.perform request = some reply) :
    runFrom (edit request) x = settle x reply := by
  cases request with
  | addState name accepting =>
    cases h
    exact runFrom_addState name accepting
  | addNumbered accepting =>
    rw [edit, addNumbered, runFrom_bind, runFrom_get]
    exact (runFrom_addState _ accepting).trans (congrArg _ (eq_of_toOption_map_ok h))
  | addUnlessNamed name =>
    rw [edit, addUnlessNamed, runFrom_bind, runFrom_get]
    rw [perform, IndexedAutomaton.addUnlessNamed] at h
    dsimp only
    cases hid : x.idsByName[name]? with
    | some q =>
      rw [hid] at h
      cases h
      rfl
    | none =>
      rw [hid] at h
      exact (runFrom_addState name false).trans (congrArg _ (eq_of_toOption_map_ok h))
  | removeState q =>
    cases h
    exact runFrom_removeState q
  | startAt q =>
    cases h
    exact runFrom_startAt q
  | setAccepting q accepting =>
    cases h
    exact runFrom_alter q _
  | addEdge source label target =>
    cases h
    rw [edit, runFrom_bind, runFrom_look, IndexedAutomaton.addEdge]
    cases x.checkEdge ⟨source, label, target⟩ with
    | error e => rfl
    | ok _ => exact runFrom_alter source _
  | replaceEdges source c target =>
    cases h
    rw [edit, runFrom_bind, runFrom_look, IndexedAutomaton.replaceEdges]
    cases x.checkEdge ⟨source, .symbol c, target⟩ with
    | error e => rfl
    | ok _ => exact runFrom_alter source _

end InPlace

end FiniteState.IndexedAutomaton
