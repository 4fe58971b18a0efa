import FiniteState.Subset.Closure

/-! # Moves of sets of states

A set moves on a symbol to all states that its members, taken with their closures, reach by one
edge with that symbol, closed again. A member is stuck if no state of its closure has such an
edge; a stuck member calls for a trap even if others can move.
-/

namespace FiniteState

/-- What a symbol does to a set of states. -/
structure Move where
  /-- The states reached, closed under silent edges. -/
  states : StateSet
  /-- Whether some member had no edge to follow. -/
  stuck : Bool
deriving DecidableEq

namespace Move

variable (a : Automaton) (closures : Closures)

/-- The targets of the edges with a symbol from the closure of a state. -/
def targetsFrom (c : Char) (q : StateId) : List StateId :=
  (closures.ofState q).toList.flatMap fun p => a.targets p (.symbol c)

/-- The move of a set on a symbol. -/
def of (s : StateSet) (c : Char) : Move where
  states := closures.ofSet (.ofList (s.toList.flatMap (targetsFrom a closures c)))
  stuck := s.toList.any fun q => (targetsFrom a closures c q).isEmpty

variable {a closures} {s : StateSet} {c : Char}

theorem mem_targetsFrom {q t : StateId} :
    t ∈ targetsFrom a closures c q ↔
      ∃ p ∈ closures.ofState q, ⟨p, .symbol c, t⟩ ∈ a.edges := by
  simp [targetsFrom]

theorem mem_states {r : StateId} :
    r ∈ (of a closures s c).states ↔
      ∃ t, (∃ q ∈ s, t ∈ targetsFrom a closures c q) ∧ r ∈ closures.ofState t := by
  simp [of]

theorem stuck_iff :
    (of a closures s c).stuck = true ↔ ∃ q ∈ s, ∀ t, t ∉ targetsFrom a closures c q := by
  simp [of, List.eq_nil_iff_forall_not_mem]

end Move

end FiniteState
