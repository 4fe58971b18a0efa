import FiniteState.Proofs.Subset.Closure
import FiniteState.Proofs.Subset.Trap

/-! # Moves of any sets

A move looks at every member by itself, so it can be told from the moves of the parts of a set, and
unknown members only set its flag. Closing a set first leads nowhere else, because silent edges in
front of an edge are followed anyway. It keeps stuck members stuck but may bring in others.
-/

namespace FiniteState

/-- What a symbol does to any set of states, with the table of closures of the automaton. -/
structure MovesSets (a : Automaton) (c : Char) : Prop where
  /-- An edge is followed after silent ones from a known member and before others. -/
  mem_states_iff : ∀ s r, r ∈ (Move.of a (.ofAutomaton a) s c).states ↔
    ∃ q ∈ s, q ∈ a ∧ ∃ p t, Path a.edgeSet q [] p ∧ ⟨p, .symbol c, t⟩ ∈ a.edges ∧
      Path a.edgeSet t [] r
  /-- Some member is unknown or has no edge to follow after silent ones. -/
  stuck_iff : ∀ s, (Move.of a (.ofAutomaton a) s c).stuck = true ↔
    ∃ q ∈ s, q ∉ a ∨ a.IsStuck q c
  union : ∀ s t, Move.of a (.ofAutomaton a) (s ∪ t) c =
    ⟨(Move.of a (.ofAutomaton a) s c).states ∪ (Move.of a (.ofAutomaton a) t c).states,
      (Move.of a (.ofAutomaton a) s c).stuck || (Move.of a (.ofAutomaton a) t c).stuck⟩
  states_closed : ∀ s, (Move.of a (.ofAutomaton a) ((Closures.ofAutomaton a).ofSet s) c).states =
    (Move.of a (.ofAutomaton a) s c).states
  stuck_closed_iff : ∀ s,
    (Move.of a (.ofAutomaton a) ((Closures.ofAutomaton a).ofSet s) c).stuck = true ↔
      ∃ q ∈ s, q ∈ a ∧ ∃ p, Path a.edgeSet q [] p ∧ a.IsStuck p c
  stuck_closed : ∀ s, (∀ q ∈ s, q ∈ a) → (Move.of a (.ofAutomaton a) s c).stuck = true →
    (Move.of a (.ofAutomaton a) ((Closures.ofAutomaton a).ofSet s) c).stuck = true

variable {a : Automaton} {q r : StateId} {s t : StateSet} {c : Char}

namespace Move

variable {closures : Closures}

theorem of_union : Move.of a closures (s ∪ t) c =
    ⟨(Move.of a closures s c).states ∪ (Move.of a closures t c).states,
      (Move.of a closures s c).stuck || (Move.of a closures t c).stuck⟩ := by
  have hstates : (Move.of a closures (s ∪ t) c).states =
      (Move.of a closures s c).states ∪ (Move.of a closures t c).states := by
    ext r
    simp only [mem_states, OrderedSet.mem_union, or_and_right, exists_or]
  have hstuck : (Move.of a closures (s ∪ t) c).stuck =
      ((Move.of a closures s c).stuck || (Move.of a closures t c).stuck) := by
    rw [Bool.eq_iff_iff, Bool.or_eq_true]
    simp only [stuck_iff, OrderedSet.mem_union, or_and_right, exists_or]
  rw [← hstates, ← hstuck]

end Move

namespace Automaton.WellFormed

theorem mem_move_iff_edge (ha : a.WellFormed) :
    r ∈ (Move.of a (.ofAutomaton a) s c).states ↔
      ∃ q ∈ s, q ∈ a ∧ ∃ p t, Path a.edgeSet q [] p ∧ ⟨p, .symbol c, t⟩ ∈ a.edges ∧
        Path a.edgeSet t [] r := by
  simp only [ha.mem_move_iff, Path.cons_iff, mem_edgeSet]

/-- A move is stuck at the unknown members and at those that have no edge to follow. -/
theorem stuck_move_iff (ha : a.WellFormed) :
    (Move.of a (.ofAutomaton a) s c).stuck = true ↔ ∃ q ∈ s, q ∉ a ∨ a.IsStuck q c := by
  rw [Move.stuck_iff]
  refine exists_congr fun q => and_congr_right fun _ => ?_
  by_cases hq : q ∈ a
  · rw [SubsetAutomaton.isStuck_iff ha hq]
    exact (or_iff_right (not_not_intro hq)).symm
  · refine iff_of_true ?_ (.inl hq)
    intro t ht
    -- The table holds nothing for an unknown state.
    obtain ⟨p, hp, _⟩ := Move.mem_targetsFrom.mp ht
    exact hq (ha.mem_ofState_iff.mp hp).1

theorem states_move_ofSet (ha : a.WellFormed) :
    (Move.of a (.ofAutomaton a) ((Closures.ofAutomaton a).ofSet s) c).states =
      (Move.of a (.ofAutomaton a) s c).states := by
  ext r
  rw [ha.mem_move_iff, ha.exists_path_ofSet_iff, ha.mem_move_iff]

/-- The members of a closure are known, so the flag stands for stuck ones alone. -/
theorem stuck_move_ofSet_iff (ha : a.WellFormed) :
    (Move.of a (.ofAutomaton a) ((Closures.ofAutomaton a).ofSet s) c).stuck = true ↔
      ∃ q ∈ s, q ∈ a ∧ ∃ p, Path a.edgeSet q [] p ∧ a.IsStuck p c := by
  rw [ha.stuck_move_iff]
  simp only [ha.mem_ofSet_iff]
  constructor
  · intro h
    obtain ⟨p, ⟨q, hq, hqa, hqp⟩, hp⟩ := h
    have hpa : p ∈ a := ha.mem_of_path hqp hqa
    exact ⟨q, hq, hqa, p, hqp, hp.resolve_left (not_not_intro hpa)⟩
  · intro h
    obtain ⟨q, hq, hqa, p, hqp, hp⟩ := h
    exact ⟨p, ⟨q, hq, hqa, hqp⟩, .inr hp⟩

theorem movesSets (ha : a.WellFormed) (c : Char) : MovesSets a c where
  mem_states_iff _ _ := ha.mem_move_iff_edge
  stuck_iff _ := ha.stuck_move_iff
  union _ _ := Move.of_union
  states_closed _ := ha.states_move_ofSet
  stuck_closed_iff _ := ha.stuck_move_ofSet_iff
  stuck_closed s hs hstuck := by
    obtain ⟨q, hq, hstuck⟩ := ha.stuck_move_iff.mp hstuck
    have hqa : q ∈ a := hs q hq
    exact ha.stuck_move_ofSet_iff.mpr
      ⟨q, hq, hqa, q, .refl q, hstuck.resolve_left (not_not_intro hqa)⟩

end Automaton.WellFormed

/-- A state that can go on, with a silent edge to one that cannot. -/
def leaning : Automaton := .ofEdits (.ofSymbols ['a'])
  [.addState "p" false, .addState "q" true, .addEdge 0 (.symbol 'a') 0, .addEdge 0 .epsilon 1]

/-- A symbol leads a set where it leads the known members, and some member is stuck if it is
unknown or none of its closure has an edge. So a union moves as its parts do. Closing a set first
changes nothing about the states reached and leaves a set of known states stuck if it was, and there
are sets that it makes stuck. -/
theorem move_laws : (∀ a : Automaton, a.Built → ∀ c, MovesSets a c) ∧
    ∃ a : Automaton, a.Built ∧ ∃ c s, (∀ q ∈ s, q ∈ a) ∧
      (Move.of a (.ofAutomaton a) s c).stuck = false ∧
      (Move.of a (.ofAutomaton a) ((Closures.ofAutomaton a).ofSet s) c).stuck = true := by
  refine ⟨fun a ha c => ha.wellFormed.movesSets c,
    leaning, Automaton.built_ofEdits _ _, 'a', .ofList [0], ?_, by decide, by decide⟩
  intro q hq
  obtain rfl : q = 0 := by simpa using hq
  decide

/-- The first state leads to the second one, which is stuck, and so is every unknown state. -/
theorem move_laws_leaning :
    1 ∈ (Move.of leaning (.ofAutomaton leaning) (.ofList [0]) 'a').states ∧
      (Move.of leaning (.ofAutomaton leaning) (.ofList [0, 9]) 'a').stuck = true ∧
      (Move.of leaning (.ofAutomaton leaning)
        ((Closures.ofAutomaton leaning).ofSet (.ofList [1])) 'a').stuck = true := by
  have hlaws : MovesSets leaning 'a' := move_laws.1 leaning (Automaton.built_ofEdits _ _) 'a'
  have hloop : ⟨0, .symbol 'a', 0⟩ ∈ leaning.edges := by decide
  have hsilent : ⟨0, .epsilon, 1⟩ ∈ leaning.edges := by decide
  refine ⟨?_, ?_, ?_⟩
  · exact (hlaws.mem_states_iff _ 1).mpr
      ⟨0, by decide, by decide, 0, 0, .refl 0, hloop, .single hsilent⟩
  · exact (hlaws.stuck_iff _).mpr ⟨9, by decide, .inl (by decide)⟩
  · refine hlaws.stuck_closed (.ofList [1]) ?_ (by decide)
    intro q hq
    obtain rfl : q = 1 := by simpa using hq
    decide

end FiniteState
