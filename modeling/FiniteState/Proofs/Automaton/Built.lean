import FiniteState.Proofs.Partition.Quotient
import FiniteState.Proofs.Regex.Reading
import FiniteState.Proofs.Subset.Construction

/-! # Automata that operations build

Every automaton begins without states or comes from a pattern, and is changed by edits, made
deterministic or merged by a partition, in any order. All automata built this way are
well-formed.
-/

namespace FiniteState.Automaton

inductive Built : Automaton → Prop where
  | new (alphabet : Alphabet) : Built (new alphabet)
  | edit {a b : Automaton} (request : Edit) : Built a → a.edit request = .ok b → Built b
  | pattern {text : String} {p : Pattern} : Pattern.ofString text = .ok p → Built p.nfa
  | subset {a : Automaton} : Built a → Built (SubsetAutomaton.ofNfa a).dfa
  | quotient {a : Automaton} (p : Partition) : Built a → Built (p.quotient a)

variable {a : Automaton}

theorem Built.wellFormed (ha : a.Built) : a.WellFormed := by
  induction ha with
  | new alphabet => exact wellFormed_new alphabet
  | edit request _ hedit ih => exact ih.change (change_of_edit hedit)
  | pattern htext =>
    obtain ⟨r, _, rfl⟩ := Pattern.ofString_eq_ok_iff.mp htext
    exact Regex.wellFormed_toAutomaton r
  | subset _ ih => exact SubsetAutomaton.wellFormed_ofNfa ih
  | @quotient a p _ _ => exact Partition.wellFormed_quotient a p

/-- A failing edit changes nothing, so it may occur in a sequence. -/
theorem Built.after (ha : a.Built) (request : Edit) : (a.after request).Built := by
  unfold Automaton.after
  split
  next b hedit => exact .edit request ha hedit
  next => exact ha

theorem Built.run (ha : a.Built) (requests : List Edit) : (a.run requests).Built := by
  induction requests generalizing a with
  | nil => exact ha
  | cons request requests ih => exact ih (ha.after request)

theorem built_ofEdits (alphabet : Alphabet) (requests : List Edit) :
    (ofEdits alphabet requests).Built := (Built.new alphabet).run requests

end FiniteState.Automaton
