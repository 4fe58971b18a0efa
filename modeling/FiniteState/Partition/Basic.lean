import FiniteState.Automaton.Basic

/-! # Partitions of states

A partition lists its blocks, and each block lists its states; both orders matter. Partitions
written by hand may hold unknown states, repeat a state or leave one out: the first block that
holds a state is its class, and the last one is its index when states are compared.
-/

namespace FiniteState

/-- A class of states, which has at least one. -/
structure Block where
  /-- The first state, which stands for the others. -/
  representative : StateId
  others : List StateId
deriving DecidableEq, Repr

namespace Block

/-- The states of a block in order. -/
def toList (b : Block) : List StateId := b.representative :: b.others

/-- The block of the entries of a list, unless there are none. -/
def ofList? : List StateId → Option Block
  | [] => none
  | q :: rest => some ⟨q, rest⟩

/-- Puts a state at the end of a block. -/
def push (b : Block) (q : StateId) : Block := { b with others := b.others ++ [q] }

instance : Membership StateId Block := ⟨fun b q => q ∈ b.toList⟩

instance (q : StateId) (b : Block) : Decidable (q ∈ b) :=
  inferInstanceAs (Decidable (q ∈ b.toList))

theorem mem_toList {q : StateId} {b : Block} : q ∈ b.toList ↔ q ∈ b := .rfl

@[simp] theorem toList_push (b : Block) (q : StateId) : (b.push q).toList = b.toList ++ [q] :=
  rfl

end Block

/-- A list of classes of states. -/
structure Partition where
  blocks : List Block
deriving DecidableEq, Repr

namespace Partition

def empty : Partition := ⟨[]⟩

instance : Inhabited Partition := ⟨empty⟩

/-- The partition into the listed classes, empty ones left out. -/
def ofLists (classes : List (List StateId)) : Partition := ⟨classes.filterMap Block.ofList?⟩

def toLists (p : Partition) : List (List StateId) := p.blocks.map (·.toList)

def size (p : Partition) : Nat := p.blocks.length

def isEmpty (p : Partition) : Bool := p.blocks.isEmpty

/-- The states that are not accepting, then the accepting ones. -/
def byAcceptance (a : Automaton) : Partition := ofLists [a.rejectingIds, a.acceptingIds]

/-- The number of the first class that holds a state. -/
def firstClass? (p : Partition) (q : StateId) : Option Nat :=
  p.blocks.findIdx? fun b => q ∈ b

/-- The number of the last class that holds a state. -/
def lastClass? (p : Partition) (q : StateId) : Option Nat :=
  ((p.blocks.zipIdx.filter fun (b, _) => q ∈ b).getLast?).map (·.2)

theorem toLists_ofLists (classes : List (List StateId)) :
    (ofLists classes).toLists = classes.filter fun c => !c.isEmpty := by
  induction classes with
  | nil => rfl
  | cons c rest ih =>
    cases c with
    | nil => simpa [ofLists, toLists, List.filterMap_cons, Block.ofList?] using ih
    | cons q qs =>
      simpa [ofLists, toLists, List.filterMap_cons, Block.ofList?, Block.toList] using ih

end Partition

end FiniteState
