import FiniteState.Alphabet

/-! # Tokens of patterns

Four characters are operators. A backslash makes the next character an ordinary one, whatever it
is. Every token keeps the offset of its first character.
-/

namespace FiniteState

/-- What is wrong with a pattern. -/
inductive ParseFault where
  | emptyGroup
  | emptyAlternative
  | nothingToRepeat
  | unclosedGroup
  /-- A closing parenthesis closes nothing. -/
  | unmatchedClose
  /-- The backslash at the end makes nothing ordinary. -/
  | danglingEscape
deriving DecidableEq, Repr

def ParseFault.message : ParseFault → String
  | emptyGroup => "expected at least one item in the group"
  | emptyAlternative => "expected at least one item in the alternative"
  | nothingToRepeat => "expected CHARACTER or group before STAR"
  | unclosedGroup => "expected RIGHT_PAREN"
  | unmatchedClose => "unexpected RIGHT_PAREN"
  | danglingEscape => "expected a character after the escaping backslash"

/-- A fault with the offset of the character at which it shows. -/
structure ParseError where
  fault : ParseFault
  offset : Nat
deriving DecidableEq, Repr

def ParseError.message (e : ParseError) : String :=
  "[ERROR] (" ++ toString e.offset ++ "): " ++ e.fault.message

/-- What a pattern is made of. -/
inductive Token where
  /-- An ordinary character. -/
  | character (c : Char)
  | openGroup
  | closeGroup
  | bar
  | star
deriving DecidableEq, Repr

namespace Token

/-- Whether a character is an operator unless a backslash precedes it. -/
def isOperator (c : Char) : Bool := c = '(' || c = ')' || c = '*' || c = '|'

/-- The character that makes the next one ordinary. -/
def escapeMark : Char := '\\'

/-- The token of a character that no backslash precedes. -/
def ofChar (c : Char) : Token :=
  if c = '(' then .openGroup
  else if c = ')' then .closeGroup
  else if c = '|' then .bar
  else if c = '*' then .star
  else .character c

end Token

/-- A token with the offset of its first character. -/
structure PlacedToken where
  token : Token
  offset : Nat
deriving DecidableEq, Repr

namespace Token

/-- The tokens of a pattern whose first character has the given offset. -/
def scan (offset : Nat) : List Char → Except ParseError (List PlacedToken)
  | [] => .ok []
  | ['\\'] => .error ⟨.danglingEscape, offset⟩
  | '\\' :: c :: rest => (scan (offset + 2) rest).map (⟨.character c, offset⟩ :: ·)
  | c :: rest => (scan (offset + 1) rest).map (⟨ofChar c, offset⟩ :: ·)

/-- The characters that a pattern, well-formed or not, has as ordinary ones. A backslash at the
end counts for nothing. -/
def ordinary : List Char → List Char
  | [] => []
  | ['\\'] => []
  | '\\' :: c :: rest => c :: ordinary rest
  | c :: rest => if isOperator c then ordinary rest else c :: ordinary rest

end Token

/-- The alphabet of the ordinary characters of a pattern, well-formed or not. -/
def Alphabet.ofPattern (pattern : String) : Alphabet :=
  .ofSymbols (Token.ordinary pattern.toList)

end FiniteState
