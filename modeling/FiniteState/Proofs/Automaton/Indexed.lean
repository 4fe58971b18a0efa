import FiniteState.Proofs.Automaton.WellFormed

/-! # Indexed automata

An automaton can be kept with an index from names to ids and with the targets of every state by
label, so that nothing has to be searched for. An edit then has several fields to keep in step: a
removed state has to leave the states, the index and all targets, and a label has to go with its
last target. Two operations add a state under a name that they take to be unused; they have no
result if it is refused.
-/

namespace FiniteState

instance : Std.LawfulEqCmp (compareOn Label.rank) where
  eq_of_compare h := Label.rank_injective (Nat.compare_eq_eq.mp h)

/-- A state with the targets of its edges by label. -/
structure IndexedState where
  name : String
  accepting : Bool
  targets : Std.TreeMap Label (OrderedSet StateId) (compareOn Label.rank)

structure IndexedAutomaton where
  alphabet : Alphabet
  states : Std.TreeMap StateId IndexedState
  /-- The ids of the states by name. -/
  idsByName : Std.HashMap String StateId
  start : Option StateId
  nextId : StateId

/-! ## Edges of a state -/

namespace IndexedState

variable {s : IndexedState} {label l : Label} {q t : StateId}

/-- Whether the state has an edge with this label to this target. -/
def Leads (s : IndexedState) (label : Label) (t : StateId) : Prop :=
  ∃ targets, s.targets[label]? = some targets ∧ t ∈ targets

/-- No set of targets is kept that is empty. -/
def Trim (s : IndexedState) : Prop :=
  ∀ (label : Label) (targets : OrderedSet StateId),
    s.targets[label]? = some targets → targets ≠ ∅

def addTarget (s : IndexedState) (label : Label) (t : StateId) : IndexedState :=
  { s with targets := s.targets.insert label ((s.targets[label]?.getD ∅).insert t) }

/-- Puts a target in instead of all others with its label. -/
def setTarget (s : IndexedState) (label : Label) (t : StateId) : IndexedState :=
  { s with targets := s.targets.insert label (.ofList [t]) }

/-- Drops a target, and the labels that have no other one. -/
def dropTarget (s : IndexedState) (t : StateId) : IndexedState :=
  let remaining := s.targets.map fun _ targets => targets.filter (· ≠ t)
  { s with targets := remaining.filter fun _ targets => !targets.isEmpty }

theorem leads_addTarget : (s.addTarget label t).Leads l q ↔ (l = label ∧ q = t) ∨ s.Leads l q := by
  simp only [Leads, addTarget, Std.TreeMap.getElem?_insert, Std.LawfulEqCmp.compare_eq_iff_eq]
  by_cases hl : label = l
  · subst hl
    cases s.targets[label]? <;> simp
  · simp [hl, Ne.symm hl]

theorem leads_setTarget :
    (s.setTarget label t).Leads l q ↔ (l = label ∧ q = t) ∨ (l ≠ label ∧ s.Leads l q) := by
  simp only [Leads, setTarget, Std.TreeMap.getElem?_insert, Std.LawfulEqCmp.compare_eq_iff_eq]
  by_cases hl : label = l
  · subst hl
    simp
  · simp [hl, Ne.symm hl]

theorem dropTarget_eq_some_iff {targets : OrderedSet StateId} :
    (s.dropTarget t).targets[l]? = some targets ↔
      (∃ before, s.targets[l]? = some before ∧ before.filter (· ≠ t) = targets) ∧
        targets ≠ ∅ := by
  simp only [dropTarget, Std.TreeMap.getElem?_filter', Std.TreeMap.getElem?_map,
    Option.filter_eq_some_iff, Option.map_eq_some_iff, Bool.not_eq_true', ne_eq,
    ← OrderedSet.isEmpty_iff, Bool.not_eq_true]

theorem leads_dropTarget : (s.dropTarget t).Leads l q ↔ s.Leads l q ∧ q ≠ t := by
  simp only [Leads, dropTarget_eq_some_iff]
  constructor
  · rintro ⟨_, ⟨⟨before, hbefore, rfl⟩, _⟩, hq⟩
    rw [OrderedSet.mem_filter, decide_eq_true_eq] at hq
    exact ⟨⟨before, hbefore, hq.1⟩, hq.2⟩
  · rintro ⟨⟨before, hbefore, hq⟩, hqt⟩
    have hmem : q ∈ before.filter (· ≠ t) := OrderedSet.mem_filter.mpr ⟨hq, by simpa using hqt⟩
    exact ⟨_, ⟨⟨before, hbefore, rfl⟩, OrderedSet.ne_empty_of_mem hmem⟩, hmem⟩

/-- Where a set of targets is put in that is not empty, none is. -/
theorem Trim.insert (hs : s.Trim) {targets : OrderedSet StateId} (ht : t ∈ targets) :
    ({ s with targets := s.targets.insert label targets } : IndexedState).Trim := by
  intro l found h
  simp only [Std.TreeMap.getElem?_insert, Std.LawfulEqCmp.compare_eq_iff_eq] at h
  split at h
  next =>
    cases h
    exact OrderedSet.ne_empty_of_mem ht
  next => exact hs l found h

theorem Trim.addTarget (hs : s.Trim) : (s.addTarget label t).Trim :=
  hs.insert (OrderedSet.mem_insert.mpr (.inl rfl))

theorem Trim.setTarget (hs : s.Trim) : (s.setTarget label t).Trim :=
  hs.insert (OrderedSet.mem_ofList.mpr List.mem_cons_self)

theorem trim_dropTarget (s : IndexedState) (t : StateId) : (s.dropTarget t).Trim :=
  fun _ _ h => (dropTarget_eq_some_iff.mp h).2

end IndexedState

/-! ## Edits -/

namespace IndexedAutomaton

/-- What an edit answers and the automaton after it, or why it is refused. -/
abbrev Reply := Except AutomatonError (Option StateId × IndexedAutomaton)

def new (alphabet : Alphabet) : IndexedAutomaton := ⟨alphabet, ∅, ∅, none, 0⟩

variable (x : IndexedAutomaton)

def stateOf (q : StateId) : Except AutomatonError IndexedState :=
  match x.states[q]? with
  | some s => .ok s
  | none => .error (.unknownId q)

/-- Keeps a state under an id, in place of what was there. -/
def put (q : StateId) (s : IndexedState) : IndexedAutomaton :=
  { x with states := x.states.insert q s }

def insertState (name : String) (accepting : Bool) : IndexedAutomaton :=
  { x.put x.nextId ⟨name, accepting, ∅⟩ with
    idsByName := x.idsByName.insert name x.nextId
    start := x.start.or (some x.nextId)
    nextId := x.nextId + 1 }

def addState (name : String) (accepting : Bool) : Reply :=
  if name ∈ x.idsByName then .error (.nameTaken name)
  else .ok (some x.nextId, x.insertState name accepting)

/-- Adds a state with a generated name; no result if the name is refused. -/
def addNumbered (accepting : Bool) : Option Reply :=
  let name := Naming.unused x.idsByName.keys (toString (x.nextId + 1))
  (x.addState name accepting).toOption.map .ok

/-- Looks a name up, and adds a state if it is unknown; no result if the name is refused. -/
def addUnlessNamed (name : String) : Option Reply :=
  match x.idsByName[name]? with
  | some q => some (.ok (some q, x))
  | none => (x.addState name false).toOption.map .ok

/-- Drops a state that has this name, the name, and the state as a target. -/
def eraseState (q : StateId) (name : String) : IndexedAutomaton :=
  { x with
    states := (x.states.erase q).map fun _ s => s.dropTarget q
    idsByName := x.idsByName.erase name }

def removeState (q : StateId) : Reply := do
  let s ← x.stateOf q
  if x.start = some q then throw (.startRemoval s.name)
  return (none, x.eraseState q s.name)

def startAt (q : StateId) : Reply := do
  let _ ← x.stateOf q
  return (none, { x with start := some q })

def setAccepting (q : StateId) (accepting : Bool) : Reply := do
  let s ← x.stateOf q
  return (none, x.put q { s with accepting := accepting })

def checkEdge (e : Edge) : Except AutomatonError Unit := do
  match e.label with
  | .symbol c => unless c ∈ x.alphabet do throw (.foreignSymbol c)
  | .epsilon => pure ()
  let _ ← x.stateOf e.source
  let _ ← x.stateOf e.target

def addEdge (source : StateId) (label : Label) (target : StateId) : Reply := do
  x.checkEdge ⟨source, label, target⟩
  let s ← x.stateOf source
  return (none, x.put source (s.addTarget label target))

def replaceEdges (source : StateId) (c : Char) (target : StateId) : Reply := do
  x.checkEdge ⟨source, .symbol c, target⟩
  let s ← x.stateOf source
  return (none, x.put source (s.setTarget (.symbol c) target))

/-- What an edit does; no result if an operation that must not fail is refused. -/
def perform : Edit → Option Reply
  | .addState name accepting => some (x.addState name accepting)
  | .addNumbered accepting => x.addNumbered accepting
  | .addUnlessNamed name => x.addUnlessNamed name
  | .removeState q => some (x.removeState q)
  | .startAt q => some (x.startAt q)
  | .setAccepting q accepting => some (x.setAccepting q accepting)
  | .addEdge source label target => some (x.addEdge source label target)
  | .replaceEdges source c target => some (x.replaceEdges source c target)

/-- The replies to a sequence of edits, and the automaton after it; a refused edit leaves it as it
is. -/
def run (x : IndexedAutomaton) :
    List Edit → Option (List (Except AutomatonError (Option StateId)) × IndexedAutomaton)
  | [] => some ([], x)
  | request :: rest => do
    match ← x.perform request with
    | .error e =>
      let (replies, final) ← x.run rest
      return (.error e :: replies, final)
    | .ok (answer, next) =>
      let (replies, final) ← next.run rest
      return (.ok answer :: replies, final)

end IndexedAutomaton

/-- The replies to a sequence of edits: what each answers, or why it is refused. -/
def Automaton.replies (a : Automaton) : List Edit → List (Except AutomatonError (Option StateId))
  | [] => []
  | request :: rest =>
    (a.edit request).map (fun _ => a.answer request) :: (a.after request).replies rest

end FiniteState
