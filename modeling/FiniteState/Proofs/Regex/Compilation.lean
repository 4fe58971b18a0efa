import FiniteState.Proofs.Automaton.Acceptance
import FiniteState.Proofs.Automaton.Numbered
import FiniteState.Proofs.Regex.Fragment
import Mathlib

/-! # Automata of trees

The automaton of a tree is the fragment of the tree: it is well-formed, its exit is the only
accepting state, and it accepts exactly the words of the tree.
-/

namespace FiniteState.Regex

variable {r : Regex} {q : StateId} {w : List Char}

theorem realizes (r : Regex) :
    (Fragment.ofRegex 0 r).Realizes r.alphabet 0 r.language :=
  Fragment.realizes_ofRegex 0 r fun _ hc => Alphabet.mem_ofSymbols.mpr hc

theorem ids_toAutomaton (r : Regex) :
    r.toAutomaton.ids = List.range (Fragment.ofRegex 0 r).next := by
  simp [Automaton.ids, toAutomaton, Function.comp_def]

theorem mem_toAutomaton_iff : q ∈ r.toAutomaton ↔ q < (Fragment.ofRegex 0 r).next :=
  Automaton.mem_iff_lt_of_ids (ids_toAutomaton r)

theorem edgeSet_toAutomaton (r : Regex) :
    r.toAutomaton.edgeSet = (Fragment.ofRegex 0 r).edgeSet :=
  Set.ext fun _ => OrderedSet.mem_ofList

theorem wellFormed_toAutomaton (r : Regex) : r.toAutomaton.WellFormed where
  ids_ascending := Automaton.ids_ascending_of_ids (ids_toAutomaton r)
  lt_nextId q hq := mem_toAutomaton_iff.mp hq
  names_nodup := by
    have hnames : r.toAutomaton.names =
        (List.range (Fragment.ofRegex 0 r).next).map fun q => toString (q + 1) := by
      simp [Automaton.names, toAutomaton, Function.comp_def]
    rw [hnames]
    exact List.nodup_range.map fun m n hmn => Nat.succ.inj (Nat.repr_injective hmn)
  edges_fit e he := by
    have he : e ∈ (Fragment.ofRegex 0 r).edges := OrderedSet.mem_ofList.mp he
    have hbetween := (realizes r).between e he
    exact ⟨hbetween.allows, mem_toAutomaton_iff.mpr hbetween.source_mem.2,
      mem_toAutomaton_iff.mpr hbetween.target_mem.2⟩
  start_mem q hq := by
    cases hq
    exact mem_toAutomaton_iff.mpr (realizes r).entry_mem.2
  states_eq_nil h := nomatch h

theorem isAccepting_toAutomaton_iff :
    r.toAutomaton.isAccepting q = true ↔ q = (Fragment.ofRegex 0 r).exit := by
  rw [(wellFormed_toAutomaton r).isAccepting_iff]
  simp only [toAutomaton, List.mem_map, List.mem_range]
  constructor
  · intro h
    obtain ⟨_, ⟨p, _, rfl⟩, rfl, hexit⟩ := h
    exact of_decide_eq_true hexit
  · rintro rfl
    exact ⟨_, ⟨_, (realizes r).exit_mem.2, rfl⟩, rfl, decide_eq_true rfl⟩

/-- The automaton of a tree accepts the words of the tree. -/
theorem accepts_toAutomaton_iff : r.toAutomaton.accepts w = true ↔ w ∈ r.language := by
  have hstart : r.toAutomaton.start = some (Fragment.ofRegex 0 r).entry := rfl
  simp only [(wellFormed_toAutomaton r).accepts_iff_path, hstart, Option.mem_some_iff,
    exists_eq_left', edgeSet_toAutomaton, isAccepting_toAutomaton_iff, exists_eq_right]
  exact (realizes r).path_iff w

end FiniteState.Regex
