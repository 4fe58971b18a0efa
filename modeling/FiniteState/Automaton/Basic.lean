import FiniteState.Alphabet

/-! # Finite automata

An automaton has named states, a relation that leads from a state along a label to any number
of states, and a start state. The same type serves nondeterministic automata, silent edges
included, and deterministic ones. There is no implicit trap: a missing edge means that no move
is possible.
-/

namespace FiniteState

/-- Identifies a state within one automaton. Ids are handed out in ascending order and never
again. -/
abbrev StateId := Nat

/-- A state of an automaton. -/
structure State where
  id : StateId
  name : String
  accepting : Bool
deriving DecidableEq, Repr

/-- A move from one state to another. -/
structure Edge where
  source : StateId
  label : Label
  target : StateId
deriving DecidableEq, Repr

namespace Edge

/-- Edges are ordered by source, then by label, then by target. -/
instance : LT Edge where
  lt e f := e.source < f.source ∨
    (e.source = f.source ∧ (e.label < f.label ∨ (e.label = f.label ∧ e.target < f.target)))

theorem lt_iff {e f : Edge} : e < f ↔ e.source < f.source ∨
    (e.source = f.source ∧
      (e.label < f.label ∨ (e.label = f.label ∧ e.target < f.target))) := .rfl

instance : DecidableLT Edge := fun e f =>
  inferInstanceAs (Decidable (e.source < f.source ∨
    (e.source = f.source ∧
      (e.label < f.label ∨ (e.label = f.label ∧ e.target < f.target)))))

instance : Trans (α := Edge) (β := Edge) (γ := Edge) (· < ·) (· < ·) (· < ·) where
  trans {e f g} hef hfg := by
    rw [lt_iff] at *
    rcases hef with hs | ⟨hs, hef⟩
    · exact .inl (hfg.elim (Nat.lt_trans hs) fun h => h.1 ▸ hs)
    · rcases hfg with ht | ⟨ht, hfg⟩
      · exact .inl (hs ▸ ht)
      · refine .inr ⟨hs.trans ht, ?_⟩
        rcases hef with hl | ⟨hl, hef⟩
        · exact .inl (hfg.elim (Trans.trans hl) fun h => h.1 ▸ hl)
        · rcases hfg with hm | ⟨hm, hfg⟩
          · exact .inl (hl ▸ hm)
          · exact .inr ⟨hl.trans hm, Nat.lt_trans hef hfg⟩

instance : Std.Irrefl (α := Edge) (· < ·) where
  irrefl e h := by
    rcases h with h | ⟨_, h | ⟨_, h⟩⟩
    · exact Nat.lt_irrefl _ h
    · exact Std.Irrefl.irrefl (r := (· < ·)) e.label h
    · exact Nat.lt_irrefl _ h

instance : Std.Trichotomous (α := Edge) (· < ·) where
  trichotomous e f hef hfe := by
    rw [lt_iff] at hef hfe
    have hsource : e.source = f.source :=
      Std.Trichotomous.trichotomous (r := (· < ·)) e.source f.source
        (fun h => hef (.inl h)) (fun h => hfe (.inl h))
    have hlabel : e.label = f.label :=
      Std.Trichotomous.trichotomous (r := (· < ·)) e.label f.label
        (fun h => hef (.inr ⟨hsource, .inl h⟩)) (fun h => hfe (.inr ⟨hsource.symm, .inl h⟩))
    have htarget : e.target = f.target :=
      Std.Trichotomous.trichotomous (r := (· < ·)) e.target f.target
        (fun h => hef (.inr ⟨hsource, .inr ⟨hlabel, h⟩⟩))
        (fun h => hfe (.inr ⟨hsource.symm, .inr ⟨hlabel.symm, h⟩⟩))
    cases e
    cases f
    simp_all

end Edge

/-- A finite automaton, deterministic or not. -/
structure Automaton where
  alphabet : Alphabet
  /-- The states, by ascending id. -/
  states : List State
  /-- The edges, by source, label and target. -/
  edges : OrderedSet Edge
  /-- Where every run begins; absent as long as there are no states. -/
  start : Option StateId
  /-- The id that the next new state gets. -/
  nextId : StateId
deriving DecidableEq

namespace Automaton

/-- The automaton without states. -/
def new (alphabet : Alphabet) : Automaton := ⟨alphabet, [], ∅, none, 0⟩

instance : Inhabited Automaton := ⟨new default⟩

variable (a : Automaton)

/-! ## States -/

/-- The ids of the states, ascending. -/
def ids : List StateId := a.states.map (·.id)

/-- The names of the states, by ascending id. -/
def names : List String := a.states.map (·.name)

def size : Nat := a.states.length

def isEmpty : Bool := a.states.isEmpty

instance : Membership StateId Automaton := ⟨fun a q => q ∈ a.ids⟩

instance (q : StateId) (a : Automaton) : Decidable (q ∈ a) :=
  inferInstanceAs (Decidable (q ∈ a.ids))

def state? (q : StateId) : Option State := a.states.find? fun s => s.id = q

def name? (q : StateId) : Option String := (a.state? q).map (·.name)

/-- The id of the state with a name. -/
def idOf? (name : String) : Option StateId :=
  (a.states.find? fun s => s.name = name).map (·.id)

/-- Whether a state is accepting; an unknown one is not. -/
def isAccepting (q : StateId) : Bool := (a.state? q).any (·.accepting)

def acceptingIds : List StateId := (a.states.filter (·.accepting)).map (·.id)

/-- The states that are not accepting, ascending. -/
def rejectingIds : List StateId := (a.states.filter fun s => !s.accepting).map (·.id)

/-! ## Edges -/

/-- The edges that leave a state, by label, then by target. -/
def edgesFrom (q : StateId) : List Edge := a.edges.toList.filter fun e => e.source = q

/-- The states that edges with a label lead to from a state, ascending. -/
def targets (q : StateId) (label : Label) : List StateId :=
  ((a.edgesFrom q).filter fun e => e.label = label).map (·.target)

/-- The state that a symbol leads to, if there is exactly one. -/
def successor? (q : StateId) (c : Char) : Option StateId :=
  match a.targets q (.symbol c) with
  | [t] => some t
  | _ => none

/-- The names of the listed states, in the order of the list; an unknown id has none. -/
def namesOf (qs : List StateId) : List String := qs.filterMap a.name?

theorem mem_edgesFrom {q : StateId} {e : Edge} :
    e ∈ a.edgesFrom q ↔ e ∈ a.edges ∧ e.source = q := by
  simp [edgesFrom]

@[simp] theorem mem_targets {q t : StateId} {label : Label} :
    t ∈ a.targets q label ↔ ⟨q, label, t⟩ ∈ a.edges := by
  rw [targets, edgesFrom, List.mem_map]
  constructor
  · rintro ⟨e, he, rfl⟩
    simp only [List.mem_filter, decide_eq_true_eq] at he
    obtain ⟨⟨he, rfl⟩, rfl⟩ := he
    exact he
  · intro h
    exact ⟨⟨q, label, t⟩, by simpa using h, rfl⟩

end Automaton

end FiniteState
