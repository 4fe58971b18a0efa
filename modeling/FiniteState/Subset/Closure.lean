import FiniteState.Automaton.Reachable
import FiniteState.Naming

/-! # Closure under silent edges

A set of states is closed by adding every state that silent edges lead to from it. The closures
of the single states are computed once; the closure of a set is the union of them.
-/

namespace FiniteState

/-- A set of states, ascending by id. -/
abbrev StateSet := OrderedSet StateId

namespace StateSet

/-- The joint name of the members. -/
def name (a : Automaton) (s : StateSet) : String :=
  Naming.joint (a.namesOf s.toList)

/-- The lexicographic order of the ascending lists of members. -/
def compare (s t : StateSet) : Ordering := Ord.compare s.toList t.toList

end StateSet

namespace Automaton

variable (a : Automaton)

/-- A state and every state that silent edges lead to from it. -/
def silentClosure (q : StateId) : StateSet := .ofList (a.silentReach [q])

end Automaton

/-- The closures of the states of an automaton. -/
structure Closures where
  entries : List (StateId × StateSet)
deriving DecidableEq

namespace Closures

/-- The closures of all states of an automaton. -/
def ofAutomaton (a : Automaton) : Closures := ⟨a.ids.map fun q => (q, a.silentClosure q)⟩

/-- The closure of a state; that of an unknown one is empty. -/
def ofState (closures : Closures) (q : StateId) : StateSet :=
  (closures.entries.lookup q).getD ∅

/-- The union of the closures of the members of a set. -/
def ofSet (closures : Closures) (s : StateSet) : StateSet :=
  s.biUnion closures.ofState

@[simp] theorem mem_ofSet {closures : Closures} {s : StateSet} {q : StateId} :
    q ∈ closures.ofSet s ↔ ∃ p ∈ s, q ∈ closures.ofState p := OrderedSet.mem_biUnion

end Closures

end FiniteState
