import FiniteState.OrderedSet

/-! # State names

Names of generated states. The joint name of several states depends on the set of their names
only; where a wanted name is taken already, the least number of marks makes it unused.
-/

namespace FiniteState.Naming

/-- Names are ordered by their code points. -/
instance byCodePoints :
    Trans (α := String) (β := String) (γ := String) (· < ·) (· < ·) (· < ·) where
  trans hab hbc := String.lt_trans hab hbc

/-- The names in ascending order, each once, joined by hyphens. -/
def joint (names : List String) : String :=
  String.intercalate "-" (OrderedSet.ofList names).toList

/-- A name followed by a number of marks. -/
def marked (base : String) (marks : Nat) : String :=
  base ++ String.ofList (List.replicate marks '\'')

/-- The least number of marks that make a name unused. Among the first `taken.length + 1`
marked names one is unused, so the search is bounded. -/
def marksNeeded (taken : List String) (base : String) : Nat :=
  ((List.range taken.length).find? fun marks => marked base marks ∉ taken).getD taken.length

/-- The wanted name with as few marks as make it unused. -/
def unused (taken : List String) (base : String) : String :=
  marked base (marksNeeded taken base)

/-- Gives each wanted name in turn the marks it needs to differ from the names in `taken` and
from those given before it. -/
def distinctFrom (taken : List String) : List String → List String
  | [] => []
  | base :: rest =>
    let name := unused taken base
    name :: distinctFrom (name :: taken) rest

/-- Pairwise different names, as close to the wanted ones as marks allow. -/
def distinct (wanted : List String) : List String := distinctFrom [] wanted

@[simp] theorem length_distinctFrom (taken wanted : List String) :
    (distinctFrom taken wanted).length = wanted.length := by
  induction wanted generalizing taken with
  | nil => rfl
  | cons base rest ih => simp [distinctFrom, ih]

@[simp] theorem length_distinct (wanted : List String) :
    (distinct wanted).length = wanted.length := length_distinctFrom [] wanted

end FiniteState.Naming
