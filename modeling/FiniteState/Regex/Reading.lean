import FiniteState.Regex.Basic
import FiniteState.Regex.Token

/-! # Reading patterns

A pattern is read from left to right. The reader keeps the alternatives of the innermost open
group and, for every open group, what came before it. A token that cannot follow is an error at
its own offset, so the first such token decides; only then does the end of the pattern count.
-/

namespace FiniteState.Regex

/-- The part of a group, or of the whole pattern, that has been read. -/
structure Branches where
  /-- The finished alternatives, latest first. -/
  finished : List Regex
  /-- The items of the current alternative, latest first. -/
  items : List Regex
deriving DecidableEq, Repr

namespace Branches

def none : Branches := ⟨[], []⟩

def push (b : Branches) (r : Regex) : Branches := { b with items := r :: b.items }

def current (b : Branches) : Regex := sequence b.items.reverse

def finish (b : Branches) : Branches := ⟨b.current :: b.finished, []⟩

/-- The tree of all alternatives. -/
def close (b : Branches) : Regex := choice (b.finish.finished.reverse)

end Branches

/-- An open group. -/
structure OpenGroup where
  /-- The offset of its parenthesis. -/
  offset : Nat
  /-- What came before it. -/
  before : Branches
deriving DecidableEq, Repr

/-- A pattern read in part. -/
structure PartialRead where
  /-- The innermost open group, or the whole pattern. -/
  branches : Branches
  /-- The open groups, innermost first. -/
  groups : List OpenGroup
deriving DecidableEq, Repr

namespace PartialRead

def start : PartialRead := ⟨.none, []⟩

/-- The fault of a closing parenthesis or of the end where an alternative is still without
items. -/
def emptyFault (p : PartialRead) : ParseFault :=
  if !p.branches.finished.isEmpty then .emptyAlternative
  else if p.groups.isEmpty then .unmatchedClose
  else .emptyGroup

def step (p : PartialRead) (t : PlacedToken) : Except ParseError PartialRead :=
  match t.token with
  | .character c => .ok { p with branches := p.branches.push (.literal c) }
  | .openGroup => .ok ⟨.none, ⟨t.offset, p.branches⟩ :: p.groups⟩
  | .star =>
    match p.branches.items with
    | [] => .error ⟨.nothingToRepeat, t.offset⟩
    | r :: rest => .ok { p with branches := { p.branches with items := .star r :: rest } }
  | .bar =>
    if p.branches.items.isEmpty then .error ⟨.emptyAlternative, t.offset⟩
    else .ok { p with branches := p.branches.finish }
  | .closeGroup =>
    if p.branches.items.isEmpty then .error ⟨p.emptyFault, t.offset⟩
    else
      match p.groups with
      | [] => .error ⟨.unmatchedClose, t.offset⟩
      | g :: outer => .ok ⟨g.before.push p.branches.close, outer⟩

/-- The tree once the pattern, which ends at the given offset, has been read. Only the empty
pattern may end without an item. -/
def result (p : PartialRead) (endOffset : Nat) : Except ParseError Regex :=
  if p.branches.items.isEmpty && !p.branches.finished.isEmpty then
    .error ⟨.emptyAlternative, endOffset⟩
  else
    match p.groups with
    | g :: _ => .error ⟨.unclosedGroup, g.offset⟩
    | [] => .ok (if p.branches.items.isEmpty then .empty else p.branches.close)

end PartialRead

/-- The tree of a list of tokens that ends at the given offset. -/
def ofTokens (endOffset : Nat) (tokens : List PlacedToken) : Except ParseError Regex := do
  let p ← tokens.foldlM PartialRead.step .start
  p.result endOffset

def ofChars (pattern : List Char) : Except ParseError Regex := do
  let tokens ← Token.scan 0 pattern
  ofTokens pattern.length tokens

def ofString (pattern : String) : Except ParseError Regex := ofChars pattern.toList

end FiniteState.Regex
