import FiniteState.Regex.Basic
import Mathlib.Computability.Language

/-! # Languages of regular expressions

The words that a tree stands for, and the trees that stand for some automaton: a sequence needs at
least one part, while a choice may have none and then matches nothing.
-/

open Computability

namespace FiniteState.Regex

mutual

/-- The words that a tree denotes. -/
def language : Regex → Language Char
  | .empty => 1
  | .literal c => {[c]}
  | .concat rs => (languages rs).prod
  | .alternation rs => (languages rs).sum
  | .star r => r.language∗

def languages : List Regex → List (Language Char)
  | [] => []
  | r :: rs => r.language :: languages rs

end

/-- No sequence in the tree is without parts. -/
inductive Proper : Regex → Prop where
  | empty : Proper .empty
  | literal (c : Char) : Proper (.literal c)
  | concat {rs : List Regex} : rs ≠ [] → (∀ r ∈ rs, Proper r) → Proper (.concat rs)
  | alternation {rs : List Regex} : (∀ r ∈ rs, Proper r) → Proper (.alternation rs)
  | star {r : Regex} : Proper r → Proper (.star r)

theorem proper_sequence {rs : List Regex} (hne : rs ≠ []) (hrs : ∀ r ∈ rs, Proper r) :
    Proper (sequence rs) := by
  unfold sequence
  split
  next r => exact hrs r (List.mem_singleton_self r)
  next => exact .concat hne hrs

theorem proper_choice {rs : List Regex} (hrs : ∀ r ∈ rs, Proper r) : Proper (choice rs) := by
  unfold choice
  split
  next r => exact hrs r (List.mem_singleton_self r)
  next => exact .alternation hrs

end FiniteState.Regex
