import FiniteState.Proofs.Automaton.WellFormed
import FiniteState.Proofs.Naming
import Mathlib.Data.List.Range

/-! # Numbered states

Constructions number the things that their states stand for: the state of the thing at position
`i` has the id `i`.
-/

namespace FiniteState

variable {β : Type} {xs : List β} {names : List String} {accepting : β → Bool} {i : Nat} {x : β}

/-- The states of the listed things under the listed names. -/
def numberedStates (xs : List β) (names : List String) (accepting : β → Bool) : List State :=
  (xs.zip names).zipIdx.map fun ((x, name), i) => ⟨i, name, accepting x⟩

theorem length_numberedStates (h : names.length = xs.length) :
    (numberedStates xs names accepting).length = xs.length := by
  simp [numberedStates, h]

theorem getElem?_numberedStates_of_name {name : String} (hx : xs[i]? = some x)
    (hname : names[i]? = some name) :
    (numberedStates xs names accepting)[i]? = some ⟨i, name, accepting x⟩ := by
  have hzip : (xs.zip names)[i]? = some (x, name) := List.getElem?_zip_eq_some.mpr ⟨hx, hname⟩
  simp [numberedStates, hzip]

theorem getElem?_numberedStates (h : names.length = xs.length) (hx : xs[i]? = some x) :
    ∃ name, (numberedStates xs names accepting)[i]? = some ⟨i, name, accepting x⟩ := by
  have hi : i < names.length := h ▸ (List.getElem?_eq_some_iff.mp hx).1
  exact ⟨names[i], getElem?_numberedStates_of_name hx (List.getElem?_eq_getElem hi)⟩

theorem ids_numberedStates (h : names.length = xs.length) :
    (numberedStates xs names accepting).map (·.id) = List.range xs.length := by
  refine List.ext_getElem (by simp [length_numberedStates h]) ?_
  intro i hi _
  simp [numberedStates]

theorem names_numberedStates (h : names.length = xs.length) :
    (numberedStates xs names accepting).map (·.name) = names := by
  refine List.ext_getElem (by simp [length_numberedStates h, h]) ?_
  intro i hi _
  simp [numberedStates]

theorem numberedStates_concat (h : names.length = xs.length) (x : β) (name : String) :
    numberedStates (xs ++ [x]) (names ++ [name]) accepting =
      numberedStates xs names accepting ++ [⟨xs.length, name, accepting x⟩] := by
  simp [numberedStates, List.zip_append h.symm, List.zipIdx_append, h]

namespace Automaton

variable {a : Automaton} {more : List State} {n : Nat} {q : StateId}

theorem mem_iff_lt_of_ids (h : a.ids = List.range n) : q ∈ a ↔ q < n := by
  change q ∈ a.ids ↔ _
  rw [h, List.mem_range]

theorem ids_ascending_of_ids (h : a.ids = List.range n) : a.ids.Pairwise (· < ·) := by
  rw [h]
  exact List.pairwise_lt_range

/-- In an automaton whose states begin with numbered ones, the state at a position accepts if the
thing at that position does. -/
theorem WellFormed.isAccepting_numbered (ha : a.WellFormed) (h : names.length = xs.length)
    (hstates : a.states = numberedStates xs names accepting ++ more) (hx : xs[i]? = some x) :
    a.isAccepting i = accepting x := by
  obtain ⟨name, hname⟩ := getElem?_numberedStates h hx
  have hmem : ⟨i, name, accepting x⟩ ∈ a.states := by
    rw [hstates]
    exact List.mem_append_left _ (List.mem_of_getElem? hname)
  exact ha.isAccepting_eq hmem

theorem WellFormed.name?_numbered (ha : a.WellFormed) {name : String}
    (hstates : a.states = numberedStates xs names accepting ++ more) (hx : xs[i]? = some x)
    (hname : names[i]? = some name) : a.name? i = some name := by
  refine ha.name?_eq_some_iff.mpr ⟨accepting x, ?_⟩
  rw [hstates]
  exact List.mem_append_left _
    (List.mem_of_getElem? (getElem?_numberedStates_of_name hx hname))

end Automaton

end FiniteState
