import FiniteState.Naming
import FiniteState.Partition.Basic

/-! # Quotients

The quotient of an automaton by a partition has one state for each class. It takes its moves
from the representative of the class, so it accepts the same words only if the members of each
class move alike.
-/

namespace FiniteState.Partition

variable (a : Automaton) (p : Partition)

/-- The states that stand for the classes: each has the joint name of the members and is
accepting if one of them is. -/
def quotientStates : List State :=
  let wanted := p.blocks.map fun b => Naming.joint (a.namesOf b.toList)
  (p.blocks.zip (Naming.distinct wanted)).zipIdx.map fun ((b, name), i) =>
    ⟨i, name, b.toList.any a.isAccepting⟩

/-- The move of a class on a symbol, if its representative has one into a class. -/
def quotientEdge? (i : Nat) (b : Block) (c : Char) : Option Edge := do
  let t ← a.successor? b.representative c
  let j ← p.lastClass? t
  return ⟨i, .symbol c, j⟩

def quotientEdges : List Edge :=
  p.blocks.zipIdx.flatMap fun (b, i) =>
    a.alphabet.toList.filterMap fun c => p.quotientEdge? a i b c

/-- The class of the start; the first class if none holds it. -/
def quotientStart : Option StateId :=
  if p.isEmpty then none else some ((a.start >>= p.lastClass?).getD 0)

def quotient : Automaton :=
  ⟨a.alphabet, p.quotientStates a, .ofList (p.quotientEdges a), p.quotientStart a, p.size⟩

end FiniteState.Partition
