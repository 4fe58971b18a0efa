import FiniteState.Alphabet
import Mathlib.Algebra.BigOperators.Group.List.Basic
import Mathlib.Data.List.Sort

/-! # Members and pieces of lists

An ascending list is fixed by its entries, so two sets with the same members are equal. A list that
is put together from pieces, none of them empty, has at least as many entries as pieces.
-/

namespace FiniteState

/-! ## Sets by their members -/

namespace OrderedSet

variable {α : Type} [LT α] [Std.Irrefl (α := α) (· < ·)]

theorem nodup (s : OrderedSet α) : s.toList.Nodup := s.ascending.nodup

variable [Trans (α := α) (β := α) (γ := α) (· < ·) (· < ·) (· < ·)]

@[ext] theorem ext {s t : OrderedSet α} (h : ∀ a, a ∈ s ↔ a ∈ t) : s = t := by
  obtain ⟨xs, hxs⟩ := s
  obtain ⟨ys, hys⟩ := t
  obtain rfl : xs = ys := hxs.eq_of_mem_iff hys h
  rfl

end OrderedSet

@[ext] theorem Alphabet.ext {first second : Alphabet} (h : ∀ c, c ∈ first ↔ c ∈ second) :
    first = second := by
  cases first
  cases second
  exact congrArg mk (OrderedSet.ext h)

/-! ## Lists of pieces -/

theorem length_le_length_flatMap {α β : Type} {f : α → List β} {xs : List α}
    (h : ∀ x ∈ xs, f x ≠ []) : xs.length ≤ (xs.flatMap f).length := by
  have hpos : ∀ n ∈ xs.map fun x => (f x).length, 1 ≤ n :=
    List.forall_mem_map.mpr fun x hx => List.length_pos_of_ne_nil (h x hx)
  rw [List.length_flatMap, ← List.length_map fun x => (f x).length]
  exact List.length_le_sum_of_one_le _ hpos

end FiniteState
