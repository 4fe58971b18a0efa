import FiniteState.Partition.Refinement
import FiniteState.Proofs.Automaton.Walk

/-! # The first offence against determinism

The check walks the states by id and the edges of each by label, and names what it meets first. So
it names the lowest state that offends and, of the labels with which this state does, the least.
Minimizing fails with just this.
-/

namespace FiniteState

namespace Automaton

/-- A state offends against determinism: by a silent edge, or by edges with one symbol to two
states. -/
def Offends (a : Automaton) (q : StateId) : Label → Prop
  | .epsilon => ∃ t, ⟨q, .epsilon, t⟩ ∈ a.edges
  | .symbol c => ∃ s t, s ≠ t ∧ ⟨q, .symbol c, s⟩ ∈ a.edges ∧ ⟨q, .symbol c, t⟩ ∈ a.edges

/-- The lowest state that offends, with the least label with which it does. -/
structure IsFirstOffence (a : Automaton) (offence : Nondeterminism) : Prop where
  state_mem : offence.state ∈ a.states
  offends : a.Offends offence.state.id offence.label
  lowest : ∀ s ∈ a.states, ∀ label, a.Offends s.id label → offence.state.id ≤ s.id
  least : ∀ label, a.Offends offence.state.id label → ¬label < offence.label

variable {a : Automaton} {q : StateId} {label : Label} {offence : Nondeterminism}

theorem exists_mem_edges_of_offends (h : a.Offends q label) : ∃ t, ⟨q, label, t⟩ ∈ a.edges := by
  cases label with
  | epsilon => exact h
  | symbol c =>
    obtain ⟨s, _, _, hs, _⟩ := h
    exact ⟨s, hs⟩

theorem offends_iff :
    a.Offends q label ↔ label ∈ (a.edgesFrom q).map (·.label) ∧ a.HasChoice q label := by
  have hedge : label ∈ (a.edgesFrom q).map (·.label) ↔ ∃ t, ⟨q, label, t⟩ ∈ a.edges := by
    simp only [List.mem_map, mem_edgesFrom]
    constructor
    · rintro ⟨e, ⟨he, rfl⟩, rfl⟩
      exact ⟨e.target, he⟩
    · rintro ⟨t, ht⟩
      exact ⟨_, ⟨ht, rfl⟩, rfl⟩
  rw [hedge, hasChoice_iff]
  cases label with
  | epsilon => simp [Offends]
  | symbol c =>
    simp only [Offends, reduceCtorEq, false_or]
    refine ⟨fun h => ⟨exists_mem_edges_of_offends h, h⟩, And.right⟩

/-! ## What a scan finds -/

/-- In a list without descents a search finds the least entry of those it looks for. -/
theorem not_lt_of_find?_eq_some {α : Type} [LT α] [Std.Irrefl (α := α) (· < ·)] {p : α → Bool}
    {xs : List α} {x y : α} (hxs : xs.Pairwise fun x y => ¬y < x) (h : xs.find? p = some x)
    (hy : y ∈ xs) (hpy : p y = true) : ¬y < x := by
  obtain ⟨_, before, after, rfl, hbefore⟩ := List.find?_eq_some_iff_append.mp h
  rcases List.mem_append.mp hy with hy | hy
  · have hnot := hbefore y hy
    rw [hpy] at hnot
    cases hnot
  · rcases List.mem_cons.mp hy with rfl | hy
    · exact Std.Irrefl.irrefl (r := (· < ·)) y
    · exact (List.pairwise_cons.mp (List.pairwise_append.mp hxs).2.1).1 y hy

/-- The labels of the edges that leave a state do not descend. -/
theorem pairwise_labels_edgesFrom (a : Automaton) (q : StateId) :
    ((a.edgesFrom q).map (·.label)).Pairwise fun first second => ¬second < first := by
  rw [List.pairwise_map]
  have hascending : (a.edgesFrom q).Pairwise (· < ·) := a.edges.ascending.filter _
  refine List.Pairwise.imp_of_mem ?_ hascending
  intro e f he hf hlt hlabel
  have hsource : e.source = f.source :=
    ((mem_edgesFrom a).mp he).2.trans ((mem_edgesFrom a).mp hf).2.symm
  rcases hlt with hlt | ⟨_, hlt | ⟨heq, _⟩⟩
  · exact Nat.ne_of_lt hlt hsource
  · exact Nat.lt_asymm (Label.lt_iff.mp hlt) (Label.lt_iff.mp hlabel)
  · rw [heq] at hlabel
    exact Nat.lt_irrefl _ (Label.lt_iff.mp hlabel)

theorem choiceAt?_eq_none_iff : a.choiceAt? q = none ↔ ∀ label, ¬a.Offends q label := by
  simp only [choiceAt?, List.find?_eq_none, decide_eq_true_eq, offends_iff, not_and]

theorem offends_of_choiceAt? (h : a.choiceAt? q = some label) : a.Offends q label :=
  offends_iff.mpr ⟨List.mem_of_find?_eq_some h, by simpa using List.find?_some h⟩

theorem not_lt_of_choiceAt? (h : a.choiceAt? q = some label) {other : Label}
    (hother : a.Offends q other) : ¬other < label := by
  obtain ⟨hmem, hchoice⟩ := offends_iff.mp hother
  exact not_lt_of_find?_eq_some (pairwise_labels_edgesFrom a q) h hmem (decide_eq_true hchoice)

theorem nondeterminism?_eq_none_iff_offends :
    a.nondeterminism? = none ↔ ∀ s ∈ a.states, ∀ label, ¬a.Offends s.id label := by
  simp only [nondeterminism?, List.findSome?_eq_none_iff, Option.map_eq_none_iff,
    choiceAt?_eq_none_iff]

theorem WellFormed.deterministic_iff_offends (ha : a.WellFormed) :
    a.Deterministic ↔ ∀ s ∈ a.states, ∀ label, ¬a.Offends s.id label := by
  rw [← ha.isDeterministic_iff, isDeterministic, Option.isNone_iff_eq_none,
    nondeterminism?_eq_none_iff_offends]

/-- What the check finds is the first offence. -/
theorem WellFormed.isFirstOffence (ha : a.WellFormed) (h : a.nondeterminism? = some offence) :
    a.IsFirstOffence offence := by
  obtain ⟨before, s, after, hstates, hfound, hbefore⟩ := List.findSome?_eq_some_iff.mp h
  obtain ⟨label, hlabel, rfl⟩ := Option.map_eq_some_iff.mp hfound
  have hascending := ha.ids_ascending
  rw [ids, hstates, List.map_append, List.map_cons, List.pairwise_append] at hascending
  have hlater := (List.pairwise_cons.mp hascending.2.1).1
  refine ⟨?_, offends_of_choiceAt? hlabel, ?_, fun _ => not_lt_of_choiceAt? hlabel⟩
  · rw [hstates]
    exact List.mem_append_right _ List.mem_cons_self
  · intro r hr other hother
    rw [hstates] at hr
    rcases List.mem_append.mp hr with hr | hr
    · have hnone := choiceAt?_eq_none_iff.mp (Option.map_eq_none_iff.mp (hbefore r hr))
      exact absurd hother (hnone other)
    · rcases List.mem_cons.mp hr with rfl | hr
      · exact Nat.le_refl _
      · exact (hlater r.id (List.mem_map_of_mem hr)).le

end Automaton

/-! ## Minimizing -/

namespace Partition

variable {a : Automaton} {limit : Option Nat} {e : AutomatonError}

theorem minimize_eq_error_iff : minimize a limit = .error e ↔
    ∃ offence, a.nondeterminism? = some offence ∧ .nondeterministic offence = e := by
  unfold minimize
  split
  next offence h => simp [h]
  next h => simp [h]

/-- Minimizing fails for any limit or for none, and exactly if a state offends. -/
theorem exists_minimize_eq_error_iff :
    (∃ e, minimize a limit = .error e) ↔ ∃ s ∈ a.states, ∃ label, a.Offends s.id label := by
  have hfound : (∃ e, minimize a limit = .error e) ↔ a.nondeterminism? ≠ none := by
    simp only [minimize_eq_error_iff, Option.ne_none_iff_exists']
    constructor
    · rintro ⟨_, offence, h, rfl⟩
      exact ⟨offence, h⟩
    · rintro ⟨offence, h⟩
      exact ⟨_, offence, h, rfl⟩
  rw [hfound, ne_eq, Automaton.nondeterminism?_eq_none_iff_offends]
  simp

theorem isFirstOffence_of_minimize (ha : a.WellFormed) (h : minimize a limit = .error e) :
    ∃ offence, a.IsFirstOffence offence ∧ e = .nondeterministic offence := by
  obtain ⟨offence, hoffence, rfl⟩ := minimize_eq_error_iff.mp h
  exact ⟨offence, ha.isFirstOffence hoffence, rfl⟩

end Partition

end FiniteState
