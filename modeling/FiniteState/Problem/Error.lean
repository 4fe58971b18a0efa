import FiniteState.Automaton.Text
import FiniteState.Regex.Token

/-! # Errors and warnings about problem texts

Whatever is wrong with a problem text is reported with the number of a line, counted from one.
Declared counts that do not fit only warn.
-/

namespace FiniteState.Problem

/-- What a line of a problem text is for. -/
inductive LineRole where
  | stateCount
  | states
  | startState
  | alphabetSize
  | alphabet
  | finalStateCount
  | finalStates
  | transitionCount
  | transition
  | firstHeader
  | secondHeader
  | regex
deriving DecidableEq, Repr

def LineRole.text : LineRole → String
  | stateCount => "state count"
  | states => "states"
  | startState => "start state"
  | alphabetSize => "alphabet size"
  | alphabet => "alphabet"
  | finalStateCount => "final state count"
  | finalStates => "final states"
  | transitionCount => "transition count"
  | transition => "transition"
  | firstHeader => "first header line"
  | secondHeader => "second header line"
  | regex => "regular expression"

/-- What is wrong with a line. -/
inductive Cause where
  /-- The text ends before this line, or the line names no start state. -/
  | missingLine (role : LineRole)
  | invalidCount (line : String)
  | malformedTransition (line : String)
  /-- The line asks the automaton for something it refuses. -/
  | automaton (error : AutomatonError)
  | pattern (error : ParseError)
deriving DecidableEq, Repr

def Cause.message : Cause → String
  | missingLine role => "expected " ++ role.text ++ ", found end of input"
  | invalidCount line => "invalid count \"" ++ line ++ "\""
  | malformedTransition line =>
    "malformed transition \"" ++ line ++ "\", expected from,symbol,to"
  | automaton error => error.message
  | pattern error => error.message

/-- The beginning of a report on a line. -/
def lineLabel (line : Nat) : String := "line " ++ toString line ++ ": "

/-- A cause with the number of the line at fault. -/
structure Error where
  line : Nat
  cause : Cause
deriving DecidableEq, Repr

def Error.message (e : Error) : String := lineLabel e.line ++ e.cause.message

/-- What a declared count counts. -/
inductive Counted where
  | states
  | finalStates
  | symbols
deriving DecidableEq, Repr

/-- A declared count that differs from what its line holds. -/
structure Warning where
  line : Nat
  counted : Counted
  declared : Nat
  given : Nat
deriving DecidableEq, Repr

/-- The declaration that a warning is about. -/
def Warning.declaration (w : Warning) : String :=
  match w.counted with
  | .states => toString w.declared ++ " states"
  | .finalStates => toString w.declared ++ " final states"
  | .symbols => "alphabet of size " ++ toString w.declared

def Warning.message (w : Warning) : String :=
  lineLabel w.line ++ w.declaration ++ " declared, but " ++ toString w.given ++ " given"

end FiniteState.Problem
