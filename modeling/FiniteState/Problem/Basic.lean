import FiniteState.Partition.Refinement
import FiniteState.Pattern
import FiniteState.Problem.Format
import FiniteState.Subset.Construction

/-! # Problems

The four questions that a problem text can ask, how each one is read and what answers it.
-/

namespace FiniteState.Problem

/-- Does a nondeterministic automaton accept a word? -/
structure Acceptance where
  nfa : Automaton
  word : String
deriving DecidableEq

/-- How many states does the subset construction give an automaton? -/
structure Determinization where
  nfa : Automaton
deriving DecidableEq

/-- Does a pattern match a word? -/
structure Matching where
  pattern : Pattern
  word : String
deriving DecidableEq

/-- How many classes of states does a deterministic automaton have? -/
structure Minimization where
  dfa : Automaton
deriving DecidableEq

namespace Acceptance

/-- Reads an automaton and the word after it. -/
def reader : Reader Acceptance := do
  let nfa ← Reader.nondeterministic
  return ⟨nfa, ← Reader.inputWord⟩

def read (text : String) : Report Acceptance := reader.report text

def solve (problem : Acceptance) : Bool := problem.nfa.accepts problem.word.toList

end Acceptance

namespace Determinization

/-- Reads an automaton; what comes after it does not matter. -/
def reader : Reader Determinization := return ⟨← Reader.nondeterministic⟩

def read (text : String) : Report Determinization := reader.report text

/-- The number of states after the subset construction, a trap included. -/
def solve (problem : Determinization) : Nat := (SubsetAutomaton.ofNfa problem.nfa).stateCount

end Determinization

namespace Matching

/-- Reads a pattern and a word after two lines that carry no information. -/
def reader : Reader Matching := do
  let _ ← Reader.nextLine .firstHeader
  let _ ← Reader.nextLine .secondHeader
  let line ← Reader.nextLine .regex
  match Pattern.ofString (.ofList line) with
  | .ok pattern => return ⟨pattern, ← Reader.inputWord⟩
  | .error e => Reader.fail (.pattern e)

def read (text : String) : Report Matching := reader.report text

def solve (problem : Matching) : Bool := problem.pattern.accepts problem.word

end Matching

namespace Minimization

/-- Reads a deterministic automaton. -/
def reader : Reader Minimization := return ⟨← Reader.deterministic⟩

def read (text : String) : Report Minimization := reader.report text

/-- The number of classes after at most `limit` rounds of refinement. -/
def solve (problem : Minimization) (limit : Option Nat) : Except AutomatonError Nat :=
  (Partition.minimize problem.dfa limit).map (·.size)

end Minimization

end FiniteState.Problem
