import FiniteState.Command.Arguments

/-! # Working folders

A run may take place in a folder that holds files and no other folders. A path leads to a file of
the folder, whether the file exists or not, if every step but the last stays where it is and the
last one can be a name. Names and paths are bounded in bytes, and one beyond its bound leads
nowhere: nothing can be read or written there. Some paths lead to the streams of the run instead.
A run changes the folder as its outcome says, once it is settled which file a path leads to.
-/

namespace FiniteState.Command

/-- Where a path leads. -/
inductive Place where
  /-- A file of the folder, which need not exist. -/
  | file (name : String)
  | standardInput
  | standardOutput
  | standardError
  /-- Holds the empty text, whatever is written to it. -/
  | null
deriving DecidableEq, Repr

namespace Place

/-- The most bytes that a name takes in UTF-8. -/
def nameBound : Nat := 255

/-- The most bytes that a path takes in UTF-8. -/
def pathBound : Nat := 4095

/-- Whether a step of a path can be the name of a file. -/
def isName (step : String) : Bool :=
  step ∉ ["", ".", ".."] && step.utf8ByteSize ≤ nameBound

/-- Whether a step of a path stays where it is. -/
def staysHere (step : String) : Bool := step = "" || step = "."

/-- The name of the file of the folder that a path leads to. -/
def fileName? (path : List Char) : Option String :=
  let steps := (path.splitOn '/').map String.ofList
  if path.head? = some '/' then none
  else if steps.dropLast.all staysHere then steps.getLast?.filter isName
  else none

/-- The place that a path leads to. -/
def ofPath? (path : String) : Option Place :=
  match path with
  | "/dev/stdin" => some .standardInput
  | "/dev/stdout" => some .standardOutput
  | "/dev/stderr" => some .standardError
  | "/dev/null" => some .null
  | _ =>
    if path.utf8ByteSize ≤ pathBound then (fileName? path.toList).map .file
    else none

/-- The file that a path leads to. -/
def fileAt? (path : String) : Option String :=
  match ofPath? path with
  | some (.file name) => some name
  | _ => none

end Place

/-- What a run prints. A path may lead back to standard output. -/
def Outcome.printed (o : Outcome) : String :=
  match o.written with
  | none => o.standardOutput
  | some (path, content) =>
    if Place.ofPath? path = some .standardOutput then o.standardOutput ++ content
    else o.standardOutput

/-- A folder of files. -/
structure Folder where
  /-- The names of the files, each with its content if that is text. -/
  files : List (String × Option String)

namespace Folder

variable (folder : Folder)

/-- The content of a file, if there is one and it is text. -/
def text? (name : String) : Option String := (folder.files.lookup name).join

/-- The text at the end of a path. -/
def read? (standardInput : Option String) (path : String) : Option String :=
  match Place.ofPath? path with
  | some (.file name) => folder.text? name
  | some .standardInput => standardInput
  | some .null => some ""
  | some .standardOutput | some .standardError | none => none

/-- What a run in the folder finds around it. -/
def around (standardInput : Option String) : Surroundings :=
  ⟨standardInput, folder.read? standardInput, fun path => (Place.ofPath? path).isSome⟩

/-- The folder once something is written to the end of a path. -/
def write (path content : String) : Folder :=
  match Place.fileAt? path with
  | some name => ⟨(name, some content) :: folder.files⟩
  | none => folder

theorem text?_write (path content name : String) :
    (folder.write path content).text? name =
      if Place.fileAt? path = some name then some content else folder.text? name := by
  unfold write
  cases Place.fileAt? path with
  | none => rfl
  | some written =>
    by_cases h : name = written
    · simp [text?, h]
    · have hname : (name == written) = false := by simpa using h
      have hwritten : ¬ some written = some name := fun heq => h (Option.some.inj heq).symm
      rw [if_neg hwritten]
      simp [text?, List.lookup_cons, hname]

/-- The folder after a run. -/
def after (o : Outcome) : Folder :=
  match o.written with
  | some (path, content) => folder.write path content
  | none => folder

theorem text?_after (o : Outcome) (name : String) :
    (folder.after o).text? name = o.contentsAfter Place.fileAt? folder.text? name := by
  unfold after Outcome.contentsAfter
  cases o.written with
  | none => rfl
  | some w => exact folder.text?_write w.1 w.2 name

end Folder

end FiniteState.Command
