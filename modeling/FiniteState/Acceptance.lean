import FiniteState.Automaton.Reachable

/-! # Acceptance

A run on a word is at a configuration: so many characters are consumed and a state is reached.
A silent edge consumes nothing, and an edge with the next character consumes it. The
configurations are visited position by position. None is visited twice, so silent cycles do no
harm, while a state may be entered again once a character has been consumed. A word is accepted
if an accepting state can be reached with the whole word consumed.
-/

namespace FiniteState

/-- Where a run on a word is. -/
structure Configuration where
  /-- The number of characters consumed. -/
  consumed : Nat
  state : StateId
deriving DecidableEq, Repr

namespace Automaton

variable (a : Automaton)

/-- The configurations before the first step. -/
def initial : List Configuration := a.start.toList.map fun q => ⟨0, q⟩

/-- The states reached before any character is consumed. -/
def initialStates : List StateId := a.silentReach a.start.toList

/-- The states reached from the listed ones by consuming a character. -/
def advance (qs : List StateId) (c : Char) : List StateId :=
  a.silentReach (qs.flatMap fun q => a.targets q (.symbol c))

/-- The configurations from the states reached after `consumed` characters up to the end of the
rest of the word. -/
def visitsFrom (consumed : Nat) (qs : List StateId) : List Char → List Configuration
  | [] => qs.map fun q => ⟨consumed, q⟩
  | c :: rest => qs.map (fun q => ⟨consumed, q⟩) ++ visitsFrom (consumed + 1) (a.advance qs c) rest

/-- The configurations that runs on a word visit. -/
def visits (word : List Char) : List Configuration := a.visitsFrom 0 a.initialStates word

/-- Whether a configuration ends an accepting run on a word. -/
def isFinal (word : List Char) (c : Configuration) : Bool :=
  c.consumed = word.length && a.isAccepting c.state

/-- Whether the automaton accepts a word. -/
def accepts (word : List Char) : Bool := (a.visits word).any (a.isFinal word)

end Automaton

end FiniteState
