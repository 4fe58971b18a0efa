import FiniteState.Subset.Move
import FiniteState.Proofs.Automaton.Acceptance
import Mathlib.Data.List.Induction

/-! # Moves along words

The closure of a state holds what silent edges lead to, and the move of a set holds the ends of
the paths that spell the character. Moving character by character therefore gives the states
that a whole word leads to.
-/

namespace FiniteState

variable {a : Automaton} {q r : StateId} {s : StateSet} {c : Char} {w : List Char}

theorem lookup_map_pair {β : Type} (f : StateId → β) (qs : List StateId) :
    (qs.map fun q => (q, f q)).lookup q = if q ∈ qs then some (f q) else none := by
  induction qs with
  | nil => rfl
  | cons p qs ih =>
    rw [List.map_cons, List.lookup_cons, ih]
    by_cases hqp : q = p
    · simp [hqp]
    · have hbeq : (q == p) = false := by simpa using hqp
      simp [hbeq, hqp]

/-- The table holds the closures of the known states. -/
theorem Closures.ofState_ofAutomaton (a : Automaton) (q : StateId) :
    (ofAutomaton a).ofState q = if q ∈ a then a.silentClosure q else ∅ := by
  have hlookup : (ofAutomaton a).entries.lookup q =
      if q ∈ a then some (a.silentClosure q) else none := lookup_map_pair _ _
  rw [ofState, hlookup]
  split <;> rfl

namespace Automaton.WellFormed

/-- The search along silent edges stays among the state that it starts from and the known ones. -/
theorem silent_universe (ha : a.WellFormed) (q : StateId) : [q] ⊆ q :: a.ids ∧
    (∀ p ∈ q :: a.ids, a.targets p .epsilon ⊆ q :: a.ids) ∧
      (q :: a.ids).length ≤ a.size + 1 := by
  refine ⟨List.cons_subset_cons q (List.nil_subset _), ?_, ?_⟩
  · intro p _ t ht
    exact List.mem_cons_of_mem q (ha.target_mem_of_targets ht)
  · rw [List.length_cons, Automaton.length_ids]

/-- The search finds what silent paths lead to, also from an unknown state. -/
theorem mem_silentClosure_iff (ha : a.WellFormed) :
    r ∈ a.silentClosure q ↔ Path a.edgeSet q [] r := by
  obtain ⟨hstart, hclosed, hbound⟩ := ha.silent_universe q
  rw [Automaton.silentClosure, OrderedSet.mem_ofList, Automaton.silentReach,
    Search.mem_reach_iff hstart hclosed hbound, Path.nil_iff]
  simp only [List.mem_singleton, exists_eq_left, Automaton.mem_targets, Automaton.mem_edgeSet]

theorem mem_ofState_iff (ha : a.WellFormed) :
    r ∈ (Closures.ofAutomaton a).ofState q ↔ q ∈ a ∧ Path a.edgeSet q [] r := by
  rw [Closures.ofState_ofAutomaton]
  split
  next hq => rw [ha.mem_silentClosure_iff, and_iff_right hq]
  next hq => exact iff_of_false OrderedSet.not_mem_empty fun h => hq h.1

/-- A move leads to the ends of the paths from the known members that spell the character. -/
theorem mem_move_iff (ha : a.WellFormed) :
    r ∈ (Move.of a (.ofAutomaton a) s c).states ↔
      ∃ q ∈ s, q ∈ a ∧ Path a.edgeSet q [c] r := by
  simp only [Move.mem_states, Move.mem_targetsFrom, ha.mem_ofState_iff, Path.cons_iff,
    Automaton.mem_edgeSet]
  constructor
  · intro h
    obtain ⟨t, ⟨q, hq, p, ⟨hqa, hp⟩, hpt⟩, _, hr⟩ := h
    exact ⟨q, hq, hqa, p, t, hp, hpt, hr⟩
  · intro h
    obtain ⟨q, hq, hqa, p, t, hp, hpt, hr⟩ := h
    exact ⟨t, ⟨q, hq, p, ⟨hqa, hp⟩, hpt⟩, (ha.edges_fit _ hpt).target_mem, hr⟩

/-- A symbol leads a set nowhere only if it leads no member anywhere. -/
theorem stuck_of_move_eq_empty (ha : a.WellFormed) (hs : s ≠ ∅)
    (h : (Move.of a (.ofAutomaton a) s c).states = ∅) :
    (Move.of a (.ofAutomaton a) s c).stuck = true := by
  obtain ⟨q, hq⟩ := OrderedSet.exists_mem_of_ne_empty hs
  refine Move.stuck_iff.mpr ⟨q, hq, ?_⟩
  intro t ht
  obtain ⟨p, _, hpt⟩ := Move.mem_targetsFrom.mp ht
  have hta : t ∈ a := (ha.edges_fit _ hpt).target_mem
  have hmove : t ∈ (Move.of a (.ofAutomaton a) s c).states :=
    Move.mem_states.mpr ⟨t, ⟨q, hq, ht⟩, ha.mem_ofState_iff.mpr ⟨hta, .refl t⟩⟩
  rw [h] at hmove
  exact OrderedSet.not_mem_empty hmove

end Automaton.WellFormed

/-- The set that a word leads to from a set, character by character. -/
def StateSet.moveAlong (a : Automaton) (s : StateSet) (w : List Char) : StateSet :=
  w.foldl (fun s c => (Move.of a (.ofAutomaton a) s c).states) s

namespace StateSet

@[simp] theorem moveAlong_nil : s.moveAlong a [] = s := rfl

theorem moveAlong_cons :
    s.moveAlong a (c :: w) = StateSet.moveAlong a (Move.of a (.ofAutomaton a) s c).states w := rfl

theorem moveAlong_concat : s.moveAlong a (w ++ [c]) =
    (Move.of a (.ofAutomaton a) (s.moveAlong a w) c).states := List.foldl_concat ..

/-- From the closure of a state a word leads to the ends of the paths that spell it. -/
theorem mem_moveAlong_iff (ha : a.WellFormed) (hq : q ∈ a) :
    r ∈ ((Closures.ofAutomaton a).ofState q).moveAlong a w ↔ Path a.edgeSet q w r := by
  induction w using List.reverseRecOn generalizing r with
  | nil => simp [ha.mem_ofState_iff, hq]
  | append_singleton w c ih =>
    simp only [moveAlong_concat, ha.mem_move_iff, ih, Path.append_iff]
    apply exists_congr
    intro p
    apply and_congr_right
    intro hp
    exact and_iff_right (ha.mem_of_path hp hq)

theorem move_empty : (Move.of a (.ofAutomaton a) ∅ c).states = ∅ := by
  ext r
  simp [Move.mem_states]

theorem moveAlong_empty : (∅ : StateSet).moveAlong a w = ∅ := by
  induction w with
  | nil => rfl
  | cons c w ih => rw [moveAlong_cons, move_empty, ih]

end StateSet

end FiniteState
