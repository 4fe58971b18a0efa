import FiniteState.Regex.Basic
import FiniteState.Regex.Token

/-! # Writing patterns

The pattern of a tree. Alternation binds weakest, then concatenation, then the star; a part that
binds more weakly than its place demands is put into parentheses. Operators and backslashes are
escaped where they are literals.
-/

namespace FiniteState.Regex

/-- How strongly the outermost operator of a tree binds. -/
def strength : Regex → Nat
  | .alternation _ => 0
  | .concat _ => 1
  | .star _ => 2
  | .empty | .literal _ => 3

/-- A literal character in a pattern. -/
def escaped (c : Char) : List Char :=
  if Token.isOperator c || c = Token.escapeMark then [Token.escapeMark, c] else [c]

/-- Puts a part into parentheses if it binds too weakly. -/
def operand (least strength : Nat) (part : List Char) : List Char :=
  if strength < least then '(' :: part ++ [')'] else part

mutual

/-- The characters of the pattern of a tree. -/
def toChars : Regex → List Char
  | .empty => []
  | .literal c => escaped c
  | .concat rs => (operands 2 rs).flatten
  | .alternation rs => ['|'].intercalate (operands 1 rs)
  | .star r => operand 2 r.strength r.toChars ++ ['*']

/-- The patterns of trees as parts of an operator that demands some strength. -/
def operands (least : Nat) : List Regex → List (List Char)
  | [] => []
  | r :: rs => operand least r.strength r.toChars :: operands least rs

end

def text (r : Regex) : String := .ofList r.toChars

theorem operands_eq_map (least : Nat) (rs : List Regex) :
    operands least rs = rs.map fun r => operand least r.strength r.toChars := by
  induction rs with
  | nil => rfl
  | cons r rs ih => simp [operands, ih]

end FiniteState.Regex
