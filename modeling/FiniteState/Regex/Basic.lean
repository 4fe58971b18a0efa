import FiniteState.Alphabet

/-! # Regular expressions

The trees of regular expressions. Sequences and choices hold any number of parts, so trees
built by hand may be degenerate; `sequence` and `choice` build the trees in which neither has
just one part.
-/

namespace FiniteState

/-- A regular expression. -/
inductive Regex where
  /-- Matches the empty word. -/
  | empty
  /-- Matches one character. -/
  | literal (c : Char)
  /-- Matches its parts one after the other. -/
  | concat (items : List Regex)
  /-- Matches what one of its parts matches. -/
  | alternation (alternatives : List Regex)
  /-- Matches its part any number of times. -/
  | star (inner : Regex)
deriving Repr, Inhabited

namespace Regex

mutual

def decEq : (r s : Regex) → Decidable (r = s)
  | .empty, s => match s with
    | .empty => isTrue rfl
    | .literal _ | .concat _ | .alternation _ | .star _ => isFalse nofun
  | .literal c, s => match s with
    | .literal d => if h : c = d then isTrue (congrArg _ h) else isFalse (h ∘ literal.inj)
    | .empty | .concat _ | .alternation _ | .star _ => isFalse nofun
  | .concat rs, s => match s with
    | .concat ss => match decEqList rs ss with
      | isTrue h => isTrue (congrArg _ h)
      | isFalse h => isFalse (h ∘ concat.inj)
    | .empty | .literal _ | .alternation _ | .star _ => isFalse nofun
  | .alternation rs, s => match s with
    | .alternation ss => match decEqList rs ss with
      | isTrue h => isTrue (congrArg _ h)
      | isFalse h => isFalse (h ∘ alternation.inj)
    | .empty | .literal _ | .concat _ | .star _ => isFalse nofun
  | .star r, s => match s with
    | .star s => match decEq r s with
      | isTrue h => isTrue (congrArg _ h)
      | isFalse h => isFalse (h ∘ star.inj)
    | .empty | .literal _ | .concat _ | .alternation _ => isFalse nofun

def decEqList : (rs ss : List Regex) → Decidable (rs = ss)
  | [], [] => isTrue rfl
  | [], _ :: _ => isFalse nofun
  | _ :: _, [] => isFalse nofun
  | r :: rs, s :: ss => match decEq r s with
    | isFalse h => isFalse fun e => h (List.cons.inj e).1
    | isTrue h => match decEqList rs ss with
      | isFalse hs => isFalse fun e => hs (List.cons.inj e).2
      | isTrue hs => isTrue (h ▸ hs ▸ rfl)

end

instance : DecidableEq Regex := decEq

/-- The parts one after the other; a single one stands for itself. -/
def sequence : List Regex → Regex
  | [r] => r
  | rs => .concat rs

/-- The choice between parts; a single one stands for itself. -/
def choice : List Regex → Regex
  | [r] => r
  | rs => .alternation rs

mutual

/-- The characters of the literals, from left to right. -/
def literals : Regex → List Char
  | .empty => []
  | .literal c => [c]
  | .concat rs => literalsOf rs
  | .alternation rs => literalsOf rs
  | .star r => r.literals

def literalsOf : List Regex → List Char
  | [] => []
  | r :: rs => r.literals ++ literalsOf rs

end

/-- The set of the characters that occur as literals. -/
def alphabet (r : Regex) : Alphabet := .ofSymbols r.literals

theorem literalsOf_eq_flatMap (rs : List Regex) : literalsOf rs = rs.flatMap literals := by
  induction rs with
  | nil => rfl
  | cons r rs ih => simp [literalsOf, ih]

end Regex

end FiniteState
