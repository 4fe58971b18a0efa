/-! # Lines, words and counts

A text is cut into lines at line feeds and into words at blanks, which are the characters with the
property White_Space. A count is written with decimal digits, of which leading ones may be zeros,
after an optional plus sign, and fits into 64 bits.
-/

namespace FiniteState.Text

/-! ## Lines -/

/-- The lines of a text without their ends. A line ends at a line feed, and a carriage return just
before that belongs to the end. What follows the last line feed is a line if it is not empty,
carriage returns included. -/
def lines : List Char → List (List Char)
  | [] => []
  | '\n' :: rest => [] :: lines rest
  | '\r' :: '\n' :: rest => [] :: lines rest
  | c :: rest =>
    match lines rest with
    | [] => [[c]]
    | l :: ls => (c :: l) :: ls

/-! ## Words -/

/-- The code points with the property White_Space, as ranges with both ends. -/
def blankRanges : List (Nat × Nat) :=
  [(0x09, 0x0D), (0x20, 0x20), (0x85, 0x85), (0xA0, 0xA0), (0x1680, 0x1680),
    (0x2000, 0x200A), (0x2028, 0x2029), (0x202F, 0x202F), (0x205F, 0x205F), (0x3000, 0x3000)]

def isBlank (c : Char) : Bool :=
  blankRanges.any fun (first, last) => first ≤ c.toNat && c.toNat ≤ last

/-- A text without the blanks at its ends. -/
def trim (cs : List Char) : List Char :=
  ((cs.dropWhile isBlank).reverse.dropWhile isBlank).reverse

/-- The words of a text, which are the longest pieces without blanks. -/
def words (cs : List Char) : List (List Char) :=
  (cs.splitOnP isBlank).filter fun w => !w.isEmpty

/-- Every character that counts as white space in ASCII is blank. -/
theorem isBlank_of_isWhitespace {c : Char} (h : c.isWhitespace = true) : isBlank c = true := by
  simp only [Char.isWhitespace, Bool.or_eq_true, decide_eq_true_eq] at h
  rcases h with ((rfl | rfl) | rfl) | rfl <;> decide

/-! ## Counts -/

/-- Counts are below this bound, the number of words of 64 bits. -/
def countBound : Nat := 0x10000000000000000

/-- What is left of a text without a plus sign in front. -/
def dropPlus : List Char → List Char
  | '+' :: rest => rest
  | cs => cs

/-- The count that a text stands for. -/
def count? (cs : List Char) : Option Nat :=
  let digits := dropPlus cs
  let value := Nat.ofDigitChars 10 digits 0
  if !digits.isEmpty && digits.all Char.isDigit && value < countBound then some value else none

/-- Writing a number in decimal and reading it again gives the number back. -/
theorem count?_toDigits {n : Nat} (h : n < countBound) : count? (Nat.toDigits 10 n) = some n := by
  have hne : Nat.toDigits 10 n ≠ [] := Nat.toDigits_ne_nil
  have hdigit : ∀ c ∈ Nat.toDigits 10 n, c.isDigit = true := fun c hc =>
    Nat.isDigit_of_mem_toDigits (by decide) (by decide) hc
  have hplus : dropPlus (Nat.toDigits 10 n) = Nat.toDigits 10 n := by
    unfold dropPlus
    split
    next rest heq => exact absurd (hdigit '+' (by rw [heq]; simp)) (by decide)
    next => rfl
  have hvalue : Nat.ofDigitChars 10 (Nat.toDigits 10 n) 0 = n :=
    Nat.ofDigitChars_toDigits (by decide) (by decide)
  simp only [count?, hplus, hvalue]
  simpa [hne, h, List.isEmpty_eq_false_iff] using hdigit

end FiniteState.Text
