import FiniteState.Automaton.Basic

/-! # Determinism

An automaton is deterministic if it has no silent edge and no state has two edges with the same
symbol. The check names the first offence: the lowest state, and there the least label.
-/

namespace FiniteState

/-- A state that does not determine what happens next. -/
structure Nondeterminism where
  state : State
  /-- The label that leaves the choice. -/
  label : Label
deriving DecidableEq, Repr

namespace Automaton

variable (a : Automaton)

/-- Whether a state leaves a choice on a label: a silent edge always does. -/
def HasChoice (q : StateId) (label : Label) : Prop :=
  label = .epsilon ∨ 1 < (a.targets q label).length

instance (q : StateId) (label : Label) : Decidable (a.HasChoice q label) :=
  inferInstanceAs (Decidable (_ ∨ _))

/-- The least label on which a state leaves a choice. -/
def choiceAt? (q : StateId) : Option Label :=
  ((a.edgesFrom q).map (·.label)).find? fun label => a.HasChoice q label

/-- The first offence against determinism. -/
def nondeterminism? : Option Nondeterminism :=
  a.states.findSome? fun s => (a.choiceAt? s.id).map fun label => ⟨s, label⟩

def isDeterministic : Bool := a.nondeterminism?.isNone

end Automaton

end FiniteState
