import FiniteState.Acceptance
import FiniteState.Regex.Fragment
import FiniteState.Regex.Reading
import FiniteState.Regex.Text

/-! # Patterns

A pattern is a regular expression in its written form, kept with its tree and its automaton.
-/

namespace FiniteState

/-- A readable pattern. -/
structure Pattern where
  /-- The pattern as it was written. -/
  text : String
  regex : Regex
  nfa : Automaton
deriving DecidableEq

namespace Pattern

def ofString (text : String) : Except ParseError Pattern := do
  let regex ← Regex.ofString text
  return ⟨text, regex, regex.toAutomaton⟩

/-- The characters that occur as literals. -/
def alphabet (p : Pattern) : Alphabet := p.nfa.alphabet

/-- Whether a whole word matches. -/
def accepts (p : Pattern) (word : String) : Bool := p.nfa.accepts word.toList

end Pattern

end FiniteState
