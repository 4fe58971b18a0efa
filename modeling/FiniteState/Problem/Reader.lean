import FiniteState.Automaton.Basic
import FiniteState.Problem.Error
import FiniteState.Text

/-! # Reading problem texts line by line

A reader takes lines from a text, keeps the number of the line it took last and collects
warnings, which stay if it fails later. The building blocks here are common to all formats:
a count, a line of words, an alphabet and a list of transitions.
-/

namespace FiniteState.Problem

/-- Where a reader is in a text, and what it has warned of. -/
structure Cursor where
  rest : List (List Char)
  /-- The number of the line taken last. -/
  line : Nat
  /-- The warnings so far, in order. -/
  warnings : List Warning
deriving DecidableEq, Repr

def Cursor.ofText (text : String) : Cursor := ⟨Text.lines text.toList, 0, []⟩

/-- Takes lines from a text, and fails with the number of a line. -/
abbrev Reader (α : Type) := ExceptT Error (StateM Cursor) α

/-- What came of reading a text. -/
structure Report (α : Type) where
  /-- What was read, or why reading failed. -/
  outcome : Except Error α
  /-- The warnings in order, also when reading failed. -/
  warnings : List Warning

namespace Reader

def report {α : Type} (reader : Reader α) (text : String) : Report α :=
  let (outcome, cursor) := StateT.run (ExceptT.run reader) (Cursor.ofText text)
  ⟨outcome, cursor.warnings⟩

/-- Fails at the line taken last. -/
def fail {α : Type} (cause : Cause) : Reader α := do
  throw ⟨(← get).line, cause⟩

/-- Takes what an automaton gives, or fails at a line with what it refuses. -/
def atLine {α : Type} (line : Nat) : Except AutomatonError α → Reader α
  | .ok x => pure x
  | .error e => throw ⟨line, .automaton e⟩

/-- Takes what an automaton gives, or fails at the line taken last. -/
def here {α : Type} (x : Except AutomatonError α) : Reader α := do
  atLine (← get).line x

def nextLine? : Reader (Option (List Char)) := do
  let c ← get
  set { c with rest := c.rest.tail, line := c.line + 1 }
  return c.rest.head?

/-- Takes the next line. If the text has ended the number of the missing line is reported. -/
def nextLine (role : LineRole) : Reader (List Char) := do
  match ← nextLine? with
  | some line => return line
  | none => fail (.missingLine role)

def count (role : LineRole) : Reader Nat := do
  let line := Text.trim (← nextLine role)
  match Text.count? line with
  | some n => return n
  | none => fail (.invalidCount (.ofList line))

/-- Warns of the line taken last if a declared count differs from the real one. -/
def compareCounts (counted : Counted) (declared given : Nat) : Reader Unit := do
  unless given = declared do
    modify fun c => { c with warnings := c.warnings ++ [⟨c.line, counted, declared, given⟩] }

/-- Takes the next line as words, of which there should be as many as declared. -/
def words (role : LineRole) (counted : Counted) (declared : Nat) : Reader (List String) := do
  let found := (Text.words (← nextLine role)).map String.ofList
  compareCounts counted declared found.length
  return found

/-- Takes the declared size of an alphabet and the line of its symbols, several of which may be
written together. The epsilon mark is no symbol. -/
def alphabet : Reader Alphabet := do
  let declared ← count .alphabetSize
  let alphabet := Alphabet.ofMarks (Text.words (← nextLine .alphabet)).flatten
  compareCounts .symbols declared alphabet.size
  return alphabet

/-- Takes the next line as a word to run on. It may be absent, which stands for the empty
word. -/
def inputWord : Reader String := do
  return .ofList ((← nextLine?).getD [])

end Reader

/-! ## Transitions -/

/-- A transition in words, with the number of its line. -/
structure Transition where
  line : Nat
  source : String
  label : Label
  target : String
deriving DecidableEq, Repr

/-- The source, the label and the target that a line names: three parts between commas, of which
the second is one character and the others are not empty. -/
def transitionParts? (line : List Char) : Option (String × Label × String) :=
  match (line.splitOn ',').map Text.trim with
  | [source, [token], target] =>
    if source.isEmpty || target.isEmpty then none
    else some (.ofList source, .ofToken token, .ofList target)
  | _ => none

namespace Reader

def transition : Reader Transition := do
  let line := Text.trim (← nextLine .transition)
  match transitionParts? line with
  | some (source, label, target) => return ⟨(← get).line, source, label, target⟩
  | none => fail (.malformedTransition (.ofList line))

/-- Takes a number of lines as transitions. -/
def transitionLines : Nat → Reader (List Transition)
  | 0 => return []
  | n + 1 => do
    let t ← transition
    let rest ← transitionLines n
    return t :: rest

/-- Takes a count and as many lines as transitions. -/
def transitions : Reader (List Transition) := do
  transitionLines (← count .transitionCount)

end Reader

end FiniteState.Problem
