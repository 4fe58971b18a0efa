import FiniteState.Label
import FiniteState.OrderedSet

/-! # Alphabets

A finite set of symbols, walked in ascending order of code points. An alphabet described in a
text leaves out the epsilon mark; one inferred from a pattern keeps it as a symbol.
-/

namespace FiniteState

/-- A finite set of symbols. -/
structure Alphabet where
  /-- The symbols, ascending. -/
  symbols : OrderedSet Char
deriving DecidableEq

namespace Alphabet

def empty : Alphabet := ⟨∅⟩

instance : Inhabited Alphabet := ⟨empty⟩

instance : Membership Char Alphabet := ⟨fun alphabet c => c ∈ alphabet.symbols⟩

instance (c : Char) (alphabet : Alphabet) : Decidable (c ∈ alphabet) :=
  inferInstanceAs (Decidable (c ∈ alphabet.symbols))

/-- The alphabet of exactly the listed symbols. -/
def ofSymbols (symbols : List Char) : Alphabet := ⟨.ofList symbols⟩

/-- The alphabet of the listed symbols, in which the epsilon mark is no symbol. -/
def ofMarks (marks : List Char) : Alphabet :=
  ofSymbols (marks.filter fun c => c ≠ Label.epsilonMark)

def insert (c : Char) (alphabet : Alphabet) : Alphabet := ⟨alphabet.symbols.insert c⟩

/-- The symbols in ascending order. -/
def toList (alphabet : Alphabet) : List Char := alphabet.symbols.toList

def size (alphabet : Alphabet) : Nat := alphabet.symbols.size

def isEmpty (alphabet : Alphabet) : Bool := alphabet.symbols.isEmpty

/-- Whether an edge may carry a label: epsilon always, a symbol if the alphabet has it. -/
def Allows (alphabet : Alphabet) : Label → Prop
  | .symbol c => c ∈ alphabet
  | .epsilon => True

instance (alphabet : Alphabet) : (label : Label) → Decidable (alphabet.Allows label)
  | .symbol c => inferInstanceAs (Decidable (c ∈ alphabet))
  | .epsilon => inferInstanceAs (Decidable True)

/-- The symbols between braces, separated by commas. -/
def text (alphabet : Alphabet) : String :=
  "\x7b" ++ String.intercalate ", " (alphabet.toList.map Char.toString) ++ "\x7d"

theorem mem_toList {c : Char} {alphabet : Alphabet} : c ∈ alphabet.toList ↔ c ∈ alphabet :=
  .rfl

@[simp] theorem mem_ofSymbols {c : Char} {symbols : List Char} :
    c ∈ ofSymbols symbols ↔ c ∈ symbols := OrderedSet.mem_ofList

@[simp] theorem mem_ofMarks {c : Char} {marks : List Char} :
    c ∈ ofMarks marks ↔ c ∈ marks ∧ c ≠ Label.epsilonMark := by
  simp [ofMarks]

@[simp] theorem mem_insert {c d : Char} {alphabet : Alphabet} :
    c ∈ alphabet.insert d ↔ c = d ∨ c ∈ alphabet := OrderedSet.mem_insert

end Alphabet

end FiniteState
