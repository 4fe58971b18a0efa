import FiniteState.Command.Arguments

/-! # Program

The command line over real files: it looks at the arguments, reads, answers and writes.
-/

namespace FiniteState

def report (failure : Command.Failure) : IO UInt32 := do
  IO.eprintln failure.report
  return 1

/-- The bytes of a file or of standard input, if they can be read. -/
def readBytes (file : Option String) : IO (Option ByteArray) := do
  try
    let bytes ← match file with
      | some name => IO.FS.readBinFile name
      | none => (← IO.getStdin).readBinToEnd
    return some bytes
  catch _ => return none

def perform (i : Command.Invocation) : IO UInt32 := do
  let bytes ← readBytes i.input
  match i.run (.ofBytes bytes (fun _ => bytes) fun _ => true) with
  | ⟨_, _, _, some failure⟩ => report failure
  | ⟨_, line, none, none⟩ =>
    (← IO.getStdout).putStr line
    return 0
  | ⟨_, _, some (name, line), none⟩ =>
    try
      IO.FS.writeFile name line
      return 0
    catch _ => report (.unwritableFile name)

/-- What is shown if the arguments name nothing to run. -/
def usage : String := "Usage: automata [OPTIONS] <accept|determinize|regex|minimize>"

end FiniteState

/-- Looks at the arguments and performs what they ask for. -/
def main (args : List String) : IO UInt32 := do
  match FiniteState.Command.Invocation.ofArguments args with
  | .ok i => FiniteState.perform i
  | .error .information => IO.println FiniteState.usage; return 0
  | .error .misuse => IO.eprintln FiniteState.usage; return 2
