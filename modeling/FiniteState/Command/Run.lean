import FiniteState.Problem.Basic

/-! # Running tasks

A run reads a problem text, answers it and writes the answer with a line feed, to a file or to
standard output. Nothing is written by a run that fails.
-/

namespace FiniteState.Command

/-- What the program is asked to do with a problem text. -/
inductive Task where
  | accept
  | determinize
  | regex
  /-- The most rounds of refinement may be given. Without it, as many are run as are needed. -/
  | minimize (rounds : Option Nat)
deriving DecidableEq, Repr

/-- What the program is called for. -/
structure Invocation where
  task : Task
  /-- The file to read, without which standard input is read. -/
  input : Option String
  /-- The file to write, without which standard output is written. -/
  output : Option String
deriving DecidableEq, Repr

/-- Why a run fails. -/
inductive Failure where
  /-- The input file cannot be read as text. -/
  | unreadableFile (name : String)
  /-- Standard input cannot be read as text. -/
  | unreadableInput
  | problem (error : Problem.Error)
  | automaton (error : AutomatonError)
  | unwritableFile (name : String)
deriving DecidableEq, Repr

def Failure.message : Failure → String
  | unreadableFile name => "Unable to read " ++ name
  | unreadableInput => "Error when reading from stdin"
  | problem error => error.message
  | automaton error => error.message
  | unwritableFile name => "Unable to write " ++ name

/-- What a failing run reports on standard error. -/
def Failure.report (failure : Failure) : String := "Error: " ++ failure.message

/-- The answer to a question of acceptance. -/
def decision (accepted : Bool) : String := if accepted then "Accepted" else "Rejected"

/-- The answer that a solver gives to what a reader returns. -/
def answerTo {α : Type} (outcome : Except Problem.Error α)
    (solve : α → Except AutomatonError String) : Except Failure String := do
  let problem ← outcome.mapError .problem
  (solve problem).mapError .automaton

/-- Reads a problem text and answers it. -/
def Task.answer (text : String) : Task → Except Failure String
  | .accept => answerTo (Problem.Acceptance.read text).outcome fun p => .ok (decision p.solve)
  | .determinize =>
    answerTo (Problem.Determinization.read text).outcome fun p => .ok (toString p.solve)
  | .regex => answerTo (Problem.Matching.read text).outcome fun p => .ok (decision p.solve)
  | .minimize rounds =>
    answerTo (Problem.Minimization.read text).outcome fun p => (p.solve rounds).map toString

/-- What a run finds around it. -/
structure Surroundings where
  /-- Standard input, if it is text. -/
  standardInput : Option String
  /-- The text at the end of a path, if there is one. -/
  file? : String → Option String
  /-- Whether something can be written to the end of a path. -/
  isWritable : String → Bool

/-- What a run finds where there are bytes, which are text only if they are UTF-8. -/
def Surroundings.ofBytes (standardInput : Option ByteArray) (file? : String → Option ByteArray)
    (isWritable : String → Bool) : Surroundings where
  standardInput := standardInput.bind String.fromUTF8?
  file? name := (file? name).bind String.fromUTF8?
  isWritable := isWritable

/-- What a run leaves behind. -/
structure Outcome where
  status : Nat
  standardOutput : String
  /-- The path written to and the content written. -/
  written : Option (String × String)
  failure : Option Failure
deriving DecidableEq

namespace Outcome

def success (standardOutput : String) (written : Option (String × String)) : Outcome :=
  ⟨0, standardOutput, written, none⟩

/-- The run fails and writes nothing. -/
def failed (failure : Failure) : Outcome := ⟨1, "", none, some failure⟩

/-- The contents of files after a run, given the names of the files that paths lead to. -/
def contentsAfter (o : Outcome) (leads : String → Option String)
    (contents : String → Option String) (name : String) : Option String :=
  match o.written with
  | some (path, content) => if leads path = some name then some content else contents name
  | none => contents name

end Outcome

namespace Invocation

/-- The text to read: a file if one is named, else standard input. -/
def text (i : Invocation) (around : Surroundings) : Except Failure String :=
  match i.input with
  | some name => (around.file? name).elim (.error (.unreadableFile name)) .ok
  | none => around.standardInput.elim (.error .unreadableInput) .ok

/-- The line that answers a text. -/
def reply (i : Invocation) (text : String) : Except Failure String :=
  (i.task.answer text).map (· ++ "\n")

/-- Writes the answer to a file if one is named, else to standard output. -/
def deliver (i : Invocation) (around : Surroundings) (line : String) : Outcome :=
  match i.output with
  | none => .success line none
  | some name =>
    if around.isWritable name then .success "" (some (name, line))
    else .failed (.unwritableFile name)

/-- What a run leaves behind. -/
def run (i : Invocation) (around : Surroundings) : Outcome :=
  match i.text around >>= i.reply with
  | .ok line => i.deliver around line
  | .error failure => .failed failure

end Invocation

end FiniteState.Command
