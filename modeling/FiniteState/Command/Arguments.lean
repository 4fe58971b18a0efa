import FiniteState.Command.Run
import FiniteState.Text

/-! # Command lines

A command line names one task. Options may come before the task and after it; of an option given
in both places the later one counts, but at one place it may be given only once. Arguments are
looked at in order, and the first one that asks for information, or does not fit, decides.

This is the outer layer: a run is a matter of its invocation, whatever arguments led to it.
-/

namespace FiniteState.Command

namespace Task

def ofName? : String → Option Task
  | "accept" => some .accept
  | "determinize" => some .determinize
  | "regex" => some .regex
  | "minimize" => some (.minimize none)
  | _ => none

/-- Limits the rounds of a task that has rounds. -/
def limited (rounds : Option Nat) : Task → Task
  | .minimize _ => .minimize rounds
  | t => t

end Task

/-- Why a command line names nothing to run. -/
inductive Halt where
  /-- Information on the program is asked for. -/
  | information
  /-- The arguments do not fit. -/
  | misuse
deriving DecidableEq, Repr

/-- The status of a run that ends with the command line. -/
def Halt.status : Halt → Nat
  | information => 0
  | misuse => 2

/-- An option without a value. -/
inductive Switch where
  | verbose
  | debug
  | information
deriving DecidableEq, Repr

/-- An option with a value. -/
inductive Setting where
  | input
  | output
  | rounds
deriving DecidableEq, Repr

/-- The options given at one place. -/
structure Level where
  verbose : Bool
  debug : Bool
  input : Option String
  output : Option String
  rounds : Option Nat
deriving DecidableEq, Repr

namespace Level

def none : Level := ⟨false, false, .none, .none, .none⟩

/-- Turns a switch on, which must be off. -/
def turnOn (l : Level) : Switch → Except Halt Level
  | .verbose => if l.verbose then .error .misuse else .ok { l with verbose := true }
  | .debug => if l.debug then .error .misuse else .ok { l with debug := true }
  | .information => .error .information

/-- Gives an option its value, which must be without one. -/
def assign (l : Level) (value : String) : Setting → Except Halt Level
  | .input => if l.input.isSome then .error .misuse else .ok { l with input := value }
  | .output => if l.output.isSome then .error .misuse else .ok { l with output := value }
  | .rounds =>
    match l.rounds, Text.count? value.toList with
    | .none, some n => .ok { l with rounds := n }
    | _, _ => .error .misuse

/-- Whether two switches are on that exclude each other. -/
def isConflicted (l : Level) : Bool := l.verbose && l.debug

end Level

/-- Where the arguments have led. -/
inductive Phase where
  /-- No task is named yet. -/
  | before
  /-- A task is named. -/
  | task (t : Task)
  /-- Help is asked for, perhaps on one task. -/
  | help (topic : Bool)
deriving DecidableEq, Repr

/-- A command line read in part. -/
structure Scan where
  phase : Phase
  /-- The options before the task. -/
  outer : Level
  /-- The options after the task. -/
  inner : Level
  /-- The option whose value comes next. -/
  pending : Option Setting
  /-- Whether options are over. -/
  ended : Bool
deriving DecidableEq, Repr

namespace Scan

def start : Scan := ⟨.before, .none, .none, none, false⟩

/-- Changes the options of the current place. -/
def onLevel (s : Scan) (change : Level → Except Halt Level) : Except Halt Scan :=
  match s.phase with
  | .before => do return { s with outer := ← change s.outer }
  | _ => do return { s with inner := ← change s.inner }

/-- Whether an option with a value is known at the current place. -/
def knows (s : Scan) : Setting → Bool
  | .rounds => s.phase = .task (.minimize none)
  | _ => true

/-- An option with a name of several letters. -/
def longName? : String → Option (Switch ⊕ Setting)
  | "verbose" => some (.inl .verbose)
  | "debug" => some (.inl .debug)
  | "help" | "version" => some (.inl .information)
  | "input" => some (.inr .input)
  | "output" => some (.inr .output)
  | "rounds" => some (.inr .rounds)
  | _ => none

/-- An option with a name of one letter. -/
def shortName? : Char → Option (Switch ⊕ Setting)
  | 'v' => some (.inl .verbose)
  | 'd' => some (.inl .debug)
  | 'h' | 'V' => some (.inl .information)
  | 'i' => some (.inr .input)
  | 'o' => some (.inr .output)
  | 'r' => some (.inr .rounds)
  | _ => none

/-- Looks at an option with a long name and perhaps a value after an equals sign. -/
def long (s : Scan) (name : List Char) (value : Option (List Char)) : Except Halt Scan :=
  match longName? (.ofList name), value with
  | some (.inl switch), none => s.onLevel (·.turnOn switch)
  | some (.inr setting), none =>
    if s.knows setting then .ok { s with pending := setting } else .error .misuse
  | some (.inr setting), some v =>
    if s.knows setting then s.onLevel (·.assign (.ofList v) setting) else .error .misuse
  | _, _ => .error .misuse

/-- What is left of a value without an equals sign in front. -/
def dropEquals : List Char → List Char
  | '=' :: rest => rest
  | cs => cs

/-- Looks at options with short names, written together. What follows the name of an option
with a value is its value. -/
def cluster (s : Scan) : List Char → Except Halt Scan
  | [] => .ok s
  | c :: rest =>
    match shortName? c with
    | some (.inl switch) => do cluster (← s.onLevel (·.turnOn switch)) rest
    | some (.inr setting) =>
      if !s.knows setting then .error .misuse
      else if rest.isEmpty then .ok { s with pending := setting }
      else s.onLevel (·.assign (.ofList (dropEquals rest)) setting)
    | none => .error .misuse

/-- Looks at an argument that is no option. -/
def name (s : Scan) (arg : String) : Except Halt Scan :=
  match s.phase with
  | .before =>
    match Task.ofName? arg with
    | some t => .ok { s with phase := .task t }
    | none => if arg = "help" then .ok { s with phase := .help false } else .error .misuse
  | _ => .error .misuse

/-- Looks at an argument where an option or a name may stand. -/
def free (s : Scan) (arg : String) : Except Halt Scan :=
  match arg.toList with
  | ['-', '-'] => .ok { s with ended := true }
  | '-' :: '-' :: cs =>
    let value := cs.dropWhile (· ≠ '=')
    s.long (cs.takeWhile (· ≠ '=')) (if value.isEmpty then none else some value.tail)
  | '-' :: c :: cs => s.cluster (c :: cs)
  | _ => s.name arg

/-- Whether an argument looks like an option, so that it is no value. -/
def looksLikeOption (arg : String) : Bool :=
  match arg.toList with
  | '-' :: _ :: _ => true
  | _ => false

/-- Whether help can be asked for on a name. -/
def isTopic (arg : String) : Bool := arg = "help" || (Task.ofName? arg).isSome

def step (s : Scan) (arg : String) : Except Halt Scan :=
  match s.phase, s.pending with
  | .help topic, _ =>
    if !topic && isTopic arg then .ok { s with phase := .help true } else .error .misuse
  | _, some setting =>
    if looksLikeOption arg then .error .misuse
    else ({ s with pending := none } : Scan).onLevel (·.assign arg setting)
  | _, none => if s.ended then .error .misuse else s.free arg

/-- What the whole command line asks for. -/
def result (s : Scan) : Except Halt Invocation :=
  match s.phase with
  | .before => .error .misuse
  | .help _ => .error .information
  | .task t =>
    if s.pending.isSome || s.outer.isConflicted || s.inner.isConflicted then .error .misuse
    else .ok ⟨t.limited s.inner.rounds, s.inner.input.or s.outer.input,
      s.inner.output.or s.outer.output⟩

end Scan

/-- What a list of arguments asks for. -/
def Invocation.ofArguments (args : List String) : Except Halt Invocation := do
  (← args.foldlM Scan.step .start).result

/-- What a command line leaves behind. What it prints if it names nothing to run is left out. -/
def run (args : List String) (around : Surroundings) : Outcome :=
  match Invocation.ofArguments args with
  | .ok i => i.run around
  | .error halt => ⟨halt.status, "", none, none⟩

end FiniteState.Command
