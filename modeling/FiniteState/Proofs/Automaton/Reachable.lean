import FiniteState.Proofs.Automaton.Built
import FiniteState.Proofs.Automaton.Residual
import FiniteState.Proofs.Distance

/-! # Order of the reachable states

The reachable states are those that edges of any labels lead to from the start. They are listed once
each, the start first, and nearer ones before more distant ones, where the distance is the least
number of edges.
-/

namespace FiniteState.Automaton

variable {a : Automaton} {p q t : StateId}

/-- Some edge leads from one state to another, whatever its label. -/
def Adjacent (a : Automaton) (p q : StateId) : Prop := ∃ label, ⟨p, label, q⟩ ∈ a.edges

theorem mem_neighbours_eq_adjacent (a : Automaton) :
    (fun p t => t ∈ a.neighbours p) = a.Adjacent := by
  funext p t
  exact propext a.mem_neighbours

theorem length_neighbours_le (a : Automaton) (q : StateId) :
    (a.neighbours q).length ≤ a.edges.size := by
  rw [neighbours, List.length_map]
  exact List.length_filter_le _ _

namespace WellFormed

variable (ha : a.WellFormed)

include ha

/-- The search along edges ends, whatever cycles there are. -/
theorem ends_reachableIds : Search.Ends a.neighbours a.size a.start.toList := by
  obtain ⟨hstart, hclosed, hbound⟩ := ha.neighbours_universe
  exact Search.ends hstart hclosed hbound

theorem mem_reachableIds_iff_inSteps (hq : a.start = some q) :
    t ∈ a.reachableIds ↔ ∃ n, InSteps a.Adjacent q n t := by
  obtain ⟨hstart, hclosed, hbound⟩ := ha.neighbours_universe
  rw [reachableIds, Search.mem_reach_iff hstart hclosed hbound, mem_neighbours_eq_adjacent, hq,
    exists_inSteps_iff]
  simp only [Option.toList_some, List.mem_singleton, exists_eq_left]

theorem pairwise_distance_reachableIds (hq : a.start = some q) :
    a.reachableIds.Pairwise fun s t => distance a.Adjacent q s ≤ distance a.Adjacent q t := by
  have hends := ha.ends_reachableIds
  rw [reachableIds]
  rw [hq, Option.toList_some] at hends ⊢
  rw [← mem_neighbours_eq_adjacent]
  exact Search.pairwise_distance_reach a.length_neighbours_le hends

end WellFormed

theorem head?_reachableIds (hq : a.start = some q) : a.reachableIds.head? = some q := by
  rw [reachableIds, hq, Option.toList_some, Search.head?_reach]

/-- The states that edges lead to from the start are listed once each, beginning with the start, in
the order of their distance from it, and the search for them ends. -/
theorem reachableIds_breadthFirst (ha : a.Built) (hq : a.start = some q) :
    (∀ t, t ∈ a.reachableIds ↔ ∃ n, InSteps a.Adjacent q n t) ∧
    a.reachableIds.Nodup ∧
    a.reachableIds.head? = some q ∧
    a.reachableIds.Pairwise (fun s t => distance a.Adjacent q s ≤ distance a.Adjacent q t) ∧
    Search.Ends a.neighbours a.size a.start.toList :=
  ⟨fun _ => ha.wellFormed.mem_reachableIds_iff_inSteps hq, Search.nodup_reach _ _,
    head?_reachableIds hq, ha.wellFormed.pairwise_distance_reachableIds hq,
    ha.wellFormed.ends_reachableIds⟩

/-- Two ways from the start back to it, of which one has a silent edge, and a state from which an
edge leads to the start. -/
def detour : Automaton := .ofEdits (.ofSymbols ['a', 'b'])
  [.addState "p" false, .addState "q" false, .addState "r" true, .addState "s" false,
    .addState "t" false, .addEdge 0 (.symbol 'a') 3, .addEdge 0 (.symbol 'b') 2,
    .addEdge 3 .epsilon 1, .addEdge 1 (.symbol 'a') 0, .addEdge 2 (.symbol 'a') 0,
    .addEdge 4 (.symbol 'a') 0]

theorem reachableIds_breadthFirst_detour :
    detour.reachableIds = [0, 3, 2, 1] ∧
      distance detour.Adjacent 0 2 ≤ distance detour.Adjacent 0 1 ∧
      ¬∃ n, InSteps detour.Adjacent 0 n 4 := by
  have hbuilt : detour.Built := built_ofEdits _ _
  have hstart : detour.start = some 0 := by decide
  have hlist : detour.reachableIds = [0, 3, 2, 1] := by decide
  obtain ⟨hmem, _, _, horder, _⟩ := reachableIds_breadthFirst hbuilt hstart
  refine ⟨hlist, ?_, ?_⟩
  · simp only [hlist, List.pairwise_cons] at horder
    exact horder.2.2.1 1 (by decide)
  · rw [← hmem, hlist]
    decide

end FiniteState.Automaton
