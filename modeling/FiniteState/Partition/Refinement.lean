import FiniteState.Automaton.Text
import FiniteState.Partition.Basic

/-! # Refinement of partitions

A round of refinement splits every class by the classes that its states move to. A state with a
missing move has no profile and is never merged with another one. Minimizing starts from the
split by acceptance and repeats rounds until one splits nothing or a limit is reached.
-/

namespace FiniteState

namespace Partition

variable (a : Automaton)

/-- The numbers of the classes that a state moves to, symbol by symbol; none if a move is
missing or leaves the partition. -/
def profile? (p : Partition) (q : StateId) : Option (List Nat) :=
  a.alphabet.toList.mapM fun c => a.successor? q c >>= p.lastClass?

/-- Whether two states move alike: both have a profile, and it is the same. -/
def MoveAlike (p : Partition) (q r : StateId) : Prop :=
  (p.profile? a q).isSome ∧ p.profile? a q = p.profile? a r

instance (p : Partition) (q r : StateId) : Decidable (p.MoveAlike a q r) :=
  inferInstanceAs (Decidable (_ ∧ _))

/-- Puts a state into the first block whose representative is alike, else into a new block at
the end. -/
def place (alike : StateId → StateId → Bool) (q : StateId) : List Block → List Block
  | [] => [⟨q, []⟩]
  | b :: rest =>
    if alike b.representative q then b.push q :: rest else b :: place alike q rest

/-- Sorts states into blocks of states alike their representative. -/
def group (alike : StateId → StateId → Bool) (qs : List StateId) : List Block :=
  qs.foldl (fun blocks q => place alike q blocks) []

def refine (p : Partition) : Partition :=
  ⟨p.blocks.flatMap fun b => group (fun q r => p.MoveAlike a q r) b.toList⟩

/-- Rounds of refinement up to the first one that splits nothing, but at most `limit`. -/
def refineRounds : Nat → Partition → Partition
  | 0, p => p
  | limit + 1, p =>
    let refined := p.refine a
    if refined.size = p.size then refined else refineRounds limit refined

/-- A small number of rounds, which may leave states together that more rounds tell apart. -/
def fewRounds : Nat := 3

/-- The classes of states that are not told apart within the rounds allowed. Without a limit as
many rounds are run as there are states, which always suffice. -/
def minimize (limit : Option Nat) : Except AutomatonError Partition :=
  match a.nondeterminism? with
  | some offence => .error (.nondeterministic offence)
  | none => .ok (refineRounds a (limit.getD a.size) (byAcceptance a))

end Partition

end FiniteState
