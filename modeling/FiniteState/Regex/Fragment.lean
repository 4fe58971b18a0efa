import FiniteState.Automaton.Basic
import FiniteState.Regex.Basic

/-! # Automata of regular expressions

Every tree becomes a fragment with one entry and one exit, joined from the fragments of its
parts by silent edges. Fragments take their states from a run of consecutive ids, so the ids of
two parts never meet.
-/

namespace FiniteState

/-- A piece of an automaton. -/
structure Fragment where
  /-- Where runs through the fragment begin. -/
  entry : StateId
  exit : StateId
  edges : List Edge
  /-- The first id after those of the fragment. -/
  next : StateId
deriving DecidableEq, Repr

namespace Fragment

def silent (source target : StateId) : Edge := ⟨source, .epsilon, target⟩

/-- One state that is entry and exit. -/
def point (n : StateId) : Fragment := ⟨n, n, [], n + 1⟩

/-- Two states, which the character joins. -/
def literal (n : StateId) (c : Char) : Fragment :=
  ⟨n, n + 1, [⟨n, .symbol c, n + 1⟩], n + 2⟩

/-- One fragment after another, whose ids follow. -/
def append (f g : Fragment) : Fragment :=
  ⟨f.entry, g.exit, f.edges ++ g.edges ++ [silent f.exit g.entry], g.next⟩

/-- Fragments one after the other; a single state if there are none. -/
def chain (n : StateId) : List Fragment → Fragment
  | [] => point n
  | f :: rest => rest.foldl append f

/-- A choice between fragments, whose ids follow the two states of the choice itself. -/
def fork (n : StateId) (branches : List Fragment) : Fragment where
  entry := n
  exit := n + 1
  edges := branches.flatMap fun f => f.edges ++ [silent n f.entry, silent f.exit (n + 1)]
  next := (branches.getLast?.map (·.next)).getD (n + 2)

/-- A fragment any number of times, between two states that follow it. -/
def loop (f : Fragment) : Fragment where
  entry := f.next
  exit := f.next + 1
  edges := f.edges ++
    [silent f.next f.entry, silent f.exit f.entry, silent f.exit (f.next + 1),
      silent f.next (f.next + 1)]
  next := f.next + 2

mutual

/-- The fragment of a tree, whose first id is `n`. -/
def ofRegex (n : StateId) : Regex → Fragment
  | .empty => point n
  | .literal c => literal n c
  | .concat rs => chain n (ofList n rs)
  | .alternation rs => fork n (ofList (n + 2) rs)
  | .star r => loop (ofRegex n r)

/-- The fragments of trees, each with the ids after those of the one before it. -/
def ofList (n : StateId) : List Regex → List Fragment
  | [] => []
  | r :: rs =>
    let f := ofRegex n r
    f :: ofList f.next rs

end

end Fragment

/-- The automaton of a tree: its states are named by their numbers in the order of creation, and
the exit is the accepting one. -/
def Regex.toAutomaton (r : Regex) : Automaton :=
  let f := Fragment.ofRegex 0 r
  let states := (List.range f.next).map fun q => ⟨q, toString (q + 1), q = f.exit⟩
  ⟨r.alphabet, states, .ofList f.edges, some f.entry, f.next⟩

end FiniteState
