import FiniteState.Automaton.Determinism

/-! # Automata in words

The text of an automaton names the start and the accepting states and then has a line for each edge,
in the order of source, label and target. Errors say why an automaton cannot be edited as asked, or
cannot be used as a deterministic one.
-/

namespace FiniteState

/-! ## Texts -/

namespace Automaton

variable (a : Automaton)

/-- The name a state is shown by. -/
def shownName (q : StateId) : String := (a.name? q).getD "?"

def edgeLine (e : Edge) : String :=
  a.shownName e.source ++ " --" ++ e.label.text ++ "--> " ++ a.shownName e.target ++ "\n"

def startLine : String := "start: " ++ (a.start.map a.shownName).getD "-" ++ "\n"

def acceptingLine : String :=
  "accepting: \x7b" ++ String.intercalate ", " (a.acceptingIds.map a.shownName) ++ "\x7d\n"

def text : String :=
  String.join (a.startLine :: a.acceptingLine :: a.edges.toList.map a.edgeLine)

end Automaton

/-! ## Errors -/

/-- What is wrong with a request to an automaton. -/
inductive AutomatonError where
  /-- An edge was to carry a symbol outside the alphabet. -/
  | foreignSymbol (c : Char)
  | unknownId (q : StateId)
  | unknownName (name : String)
  | nameTaken (name : String)
  /-- The start state, which has this name, cannot be removed. -/
  | startRemoval (name : String)
  /-- A deterministic automaton is needed, but this state leaves a choice. -/
  | nondeterministic (offence : Nondeterminism)
deriving DecidableEq, Repr

namespace AutomatonError

def message : AutomatonError → String
  | foreignSymbol c => "Invalid symbol '" ++ c.toString ++ "', it is not part of the alphabet"
  | unknownId q => "Missing state #" ++ toString q
  | unknownName name => "Missing state " ++ name
  | nameTaken name => "State " ++ name ++ " is declared twice"
  | startRemoval name => "Cannot remove the start state " ++ name
  | nondeterministic offence =>
    "State " ++ offence.state.name ++ " is nondeterministic on " ++ offence.label.text

end AutomatonError

end FiniteState
