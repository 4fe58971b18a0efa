import FiniteState.Subset.Move

/-! # Subset construction

The states of the deterministic automaton are the sets of states that words lead to, found
breadth-first from the closure of the start. State `i` stands for the set found as number `i`
and has its joint name, with marks where two sets have the same one. If a member of a found set
is stuck on some symbol, a trap state that no word leaves comes after them, and every move to the
empty set leads there.
-/

namespace FiniteState

/-- What a symbol does to the set that a state stands for. -/
structure NumberedMove where
  source : StateId
  symbol : Char
  move : Move
deriving DecidableEq

/-- A deterministic automaton with the meaning of its states. -/
structure SubsetAutomaton where
  dfa : Automaton
  /-- The set that each state stands for, by id; the trap has none. -/
  subsets : List StateSet
  /-- The state that no word leaves, if one is needed. -/
  trap : Option StateId
deriving DecidableEq

namespace SubsetAutomaton

/-- The name a trap gets unless it is taken. -/
def trapName : String := "trap"

/-- The number of states, the trap included. -/
def stateCount (d : SubsetAutomaton) : Nat := d.dfa.size

def subsetCount (d : SubsetAutomaton) : Nat := d.subsets.length

def hasTrap (d : SubsetAutomaton) : Bool := d.trap.isSome

/-- The sets found with the ids of their states, ascending. -/
def numberedSubsets (d : SubsetAutomaton) : List (StateId × StateSet) :=
  d.subsets.zipIdx.map fun (s, q) => (q, s)

section Construction

variable (nfa : Automaton) (symbols : List Char)

/-- The sets that one symbol leads to from a set, the empty one left out. -/
def successors (closures : Closures) (s : StateSet) : List StateSet :=
  (symbols.map fun c => (Move.of nfa closures s c).states).filter fun t => !t.isEmpty

/-- The sets of states that words lead to from the closure of `q`, in the order of discovery.
There are at most as many of them as subsets of the states. -/
def discover (closures : Closures) (q : StateId) : List StateSet :=
  Search.reach (successors nfa symbols closures) (Nat.pow 2 nfa.size) [closures.ofState q]

/-- The moves of the found sets on every symbol. -/
def movesOf (closures : Closures) (subsets : List StateSet) : List NumberedMove :=
  subsets.zipIdx.flatMap fun (s, i) => symbols.map fun c => ⟨i, c, Move.of nfa closures s c⟩

/-- The edge of a move: to the state of the set reached, or to the trap if that set is empty. -/
def edge? (subsets : List StateSet) (trap : Option StateId) (m : NumberedMove) : Option Edge :=
  let target := if m.move.states.isEmpty then trap else some (subsets.idxOf m.move.states)
  target.map fun t => ⟨m.source, .symbol m.symbol, t⟩

def trapEdges (trap : StateId) : List Edge := symbols.map fun c => ⟨trap, .symbol c, trap⟩

/-- The states that stand for the found sets: accepting if a member is. -/
def subsetStates (subsets : List StateSet) : List State :=
  let names := Naming.distinct (subsets.map (·.name nfa))
  (subsets.zip names).zipIdx.map fun ((s, name), i) =>
    ⟨i, name, s.toList.any nfa.isAccepting⟩

/-- The trap state under an unused name, if some member of a found set is stuck. -/
def trapState? (moves : List NumberedMove) (states : List State) : Option State :=
  if moves.any fun m => m.move.stuck then
    some ⟨states.length, Naming.unused (states.map (·.name)) trapName, false⟩
  else
    none

/-- The subset construction, which tries the symbols in the listed order. -/
def inOrder : SubsetAutomaton :=
  match nfa.start with
  | none => ⟨.new nfa.alphabet, [], none⟩
  | some q =>
    let closures := Closures.ofAutomaton nfa
    let subsets := discover nfa symbols closures q
    let moves := movesOf nfa symbols closures subsets
    let states := subsetStates nfa subsets
    let trap := trapState? moves states
    let allStates := states ++ trap.toList
    let edges := moves.filterMap (edge? subsets (trap.map (·.id))) ++
      trap.toList.flatMap fun t => trapEdges symbols t.id
    { dfa := ⟨nfa.alphabet, allStates, .ofList edges, some 0, allStates.length⟩
      subsets
      trap := trap.map (·.id) }

/-- The subset construction with the symbols in ascending order. -/
def ofNfa : SubsetAutomaton := inOrder nfa nfa.alphabet.toList

end Construction

end SubsetAutomaton

end FiniteState
