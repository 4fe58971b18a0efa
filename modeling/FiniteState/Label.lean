/-! # Edge labels

An edge either consumes one symbol or is silent. Epsilon is a label of its own and no symbol
stands for it, so every character can be a symbol. Labels are ordered: symbols by code point,
epsilon after all of them.
-/

namespace FiniteState

/-- What an edge of an automaton consumes. -/
inductive Label where
  | symbol (c : Char)
  | epsilon
deriving DecidableEq, Repr, Inhabited

namespace Label

/-- The character that stands for epsilon in texts. -/
def epsilonMark : Char := '$'

/-- The label a character stands for in texts. -/
def ofToken (token : Char) : Label :=
  if token = epsilonMark then .epsilon else .symbol token

def isEpsilon : Label → Bool
  | symbol _ => false
  | epsilon => true

/-- The character that a label is shown as. -/
def mark : Label → Char
  | symbol c => c
  | epsilon => epsilonMark

def text (label : Label) : String := label.mark.toString

/-! ## Order -/

/-- The position of a label in the order: epsilon comes after every code point. -/
def rank : Label → Nat
  | symbol c => c.toNat
  | epsilon => 0x110000

instance : LT Label := ⟨fun a b => a.rank < b.rank⟩

instance : DecidableLT Label := fun a b => inferInstanceAs (Decidable (a.rank < b.rank))

theorem lt_iff {a b : Label} : a < b ↔ a.rank < b.rank := .rfl

theorem toNat_lt_rank_epsilon (c : Char) : c.toNat < rank .epsilon := by
  rcases c.valid with h | ⟨_, h⟩
  · exact Nat.lt_trans h (by decide)
  · exact h

theorem rank_injective {a b : Label} (h : a.rank = b.rank) : a = b := by
  cases a with
  | symbol c =>
    cases b with
    | symbol d => exact congrArg symbol (Char.toNat_inj.mp h)
    | epsilon => exact absurd h (Nat.ne_of_lt (toNat_lt_rank_epsilon c))
  | epsilon =>
    cases b with
    | symbol d => exact absurd h (Nat.ne_of_gt (toNat_lt_rank_epsilon d))
    | epsilon => rfl

instance : Trans (α := Label) (β := Label) (γ := Label) (· < ·) (· < ·) (· < ·) where
  trans hab hbc := Nat.lt_trans hab hbc

instance : Std.Irrefl (α := Label) (· < ·) where
  irrefl a := Nat.lt_irrefl a.rank

instance : Std.Trichotomous (α := Label) (· < ·) where
  trichotomous _ _ hab hba :=
    rank_injective (Nat.le_antisymm (Nat.le_of_not_lt hba) (Nat.le_of_not_lt hab))

@[simp] theorem symbol_lt_symbol {c d : Char} : symbol c < symbol d ↔ c < d := .rfl

@[simp] theorem symbol_lt_epsilon (c : Char) : symbol c < epsilon := toNat_lt_rank_epsilon c

end Label

end FiniteState
