import FiniteState.Automaton.Basic
import FiniteState.Search

/-! # Reachable states

The states that runs can visit, in breadth-first order: from given states by silent edges alone,
and from the start by any edges.
-/

namespace FiniteState.Automaton

variable (a : Automaton)

/-- The states that silent edges lead to from the listed ones, these included. At most one of
those may be unknown to the automaton. -/
def silentReach (qs : List StateId) : List StateId :=
  Search.reach (fun q => a.targets q .epsilon) (a.size + 1) qs

/-- The states that one edge leads to, by label, then by id. -/
def neighbours (q : StateId) : List StateId := (a.edgesFrom q).map (·.target)

/-- The states reachable from the start along edges of any label. -/
def reachableIds : List StateId := Search.reach a.neighbours a.size a.start.toList

theorem mem_neighbours {q t : StateId} :
    t ∈ a.neighbours q ↔ ∃ label, ⟨q, label, t⟩ ∈ a.edges := by
  simp only [neighbours, List.mem_map, mem_edgesFrom]
  constructor
  · rintro ⟨e, ⟨he, rfl⟩, rfl⟩
    exact ⟨e.label, he⟩
  · rintro ⟨label, he⟩
    exact ⟨_, ⟨he, rfl⟩, rfl⟩

end FiniteState.Automaton
