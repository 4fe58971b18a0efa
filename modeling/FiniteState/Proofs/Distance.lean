import FiniteState.Proofs.DiscoveryOrder
import Mathlib.Data.List.Forall2
import Mathlib.Order.Lattice.Nat

/-! # Distance

The distance between two items is the least number of steps that lead from one to the other. A
breadth-first search that ends has found its items in the order of their distance from the root: the
places of the entries chosen on the way to an item are a word, and items are found in the order of
their least words, of which shorter ones come first.
-/

namespace FiniteState

/-- So many steps of a relation lead from one item to another. -/
inductive InSteps {α : Type} (r : α → α → Prop) (x : α) : Nat → α → Prop where
  | refl : InSteps r x 0 x
  | tail {n : Nat} {y z : α} : InSteps r x n y → r y z → InSteps r x (n + 1) z

/-- The least number of steps that lead from one item to another; zero if none do. -/
noncomputable def distance {α : Type} (r : α → α → Prop) (x y : α) : Nat :=
  sInf {n | InSteps r x n y}

section Relation

variable {α : Type} {r : α → α → Prop} {x y : α} {n : Nat}

theorem exists_inSteps_iff : (∃ n, InSteps r x n y) ↔ Relation.ReflTransGen r x y := by
  constructor
  · intro h
    obtain ⟨n, h⟩ := h
    induction h with
    | refl => exact .refl
    | tail _ hyz ih => exact ih.tail hyz
  · intro h
    induction h with
    | refl => exact ⟨0, .refl⟩
    | tail _ hyz ih =>
      obtain ⟨n, hn⟩ := ih
      exact ⟨n + 1, hn.tail hyz⟩

theorem distance_eq (h : InSteps r x n y) (hleast : ∀ m, InSteps r x m y → n ≤ m) :
    distance r x y = n :=
  le_antisymm (Nat.sInf_le h) (le_csInf ⟨n, h⟩ hleast)

end Relation

namespace Search

variable {α : Type} {next : α → List α} {root x y : α} {xs : List α} {w : List Nat} {n : Nat}

/-- The entry at a place among the items that an item leads to. -/
def entry (next : α → List α) (x : α) (i : Nat) : Option α := (next x)[i]?

theorem filterMap_getElem?_range (hn : xs.length ≤ n) :
    (List.range n).filterMap (fun i => xs[i]?) = xs := by
  induction xs generalizing n with
  | nil => simp
  | cons x xs ih =>
    obtain ⟨m, rfl⟩ := Nat.exists_eq_add_one_of_ne_zero (Nat.ne_zero_of_lt hn)
    rw [List.range_succ_eq_map, List.filterMap_cons, List.filterMap_map]
    simpa [Function.comp_def] using ih (Nat.le_of_succ_le_succ hn)

/-- Steps are choices of entries, one after the other. -/
theorem inSteps_iff_exists_follow : InSteps (fun x y => y ∈ next x) x n y ↔
    ∃ w, w.length = n ∧ follow (entry next) x w = some y := by
  constructor
  · intro h
    induction h with
    | refl => exact ⟨[], rfl, rfl⟩
    | tail _ hyz ih =>
      obtain ⟨w, rfl, hw⟩ := ih
      obtain ⟨i, hi⟩ := List.mem_iff_getElem?.mp hyz
      refine ⟨w ++ [i], by simp, ?_⟩
      rw [follow_concat, hw]
      exact hi
  · intro h
    obtain ⟨w, rfl, hw⟩ := h
    induction w using List.reverseRecOn generalizing y with
    | nil =>
      cases hw
      exact .refl
    | append_singleton w i ih =>
      rw [follow_concat] at hw
      obtain ⟨z, hz, hzy⟩ := Option.bind_eq_some_iff.mp hw
      rw [List.length_append]
      exact .tail (ih hz) (List.mem_of_getElem? hzy)

/-- The least word that leads to an item is as long as the item is distant. -/
theorem IsLeastWord.distance_eq (h : IsLeastWord (entry next) root w x) :
    distance (fun x y => y ∈ next x) root x = w.length := by
  refine FiniteState.distance_eq (inSteps_iff_exists_follow.mpr ⟨w, rfl, h.leads⟩) ?_
  intro m hm
  obtain ⟨v, rfl, hv⟩ := inSteps_iff_exists_follow.mp hm
  exact Prod.Lex.monotone_fst _ _ (h.least v hv)

variable [DecidableEq α] {bound width : Nat}

/-- A search that ends has found the items in the order of their distance. -/
theorem pairwise_distance_reach (hwidth : ∀ x, (next x).length ≤ width)
    (hends : Ends next bound [root]) :
    (reach next bound [root]).Pairwise fun x y =>
      distance (fun x y => y ∈ next x) root x ≤ distance (fun x y => y ∈ next x) root y := by
  -- The places are the symbols: the search tries the entries of a list from the first on.
  have hnext (x : α) : next x = (List.range width).filterMap (entry next x) :=
    (filterMap_getElem?_range (hwidth x)).symm
  have hplace (x : α) (i : Nat) (y : α) (hy : entry next x i = some y) : i ∈ List.range width := by
    have hlt : i < (next x).length := (List.getElem?_eq_some_iff.mp hy).1
    exact List.mem_range.mpr (hlt.trans_le (hwidth x))
  obtain ⟨words, hascending, hwords⟩ :=
    exists_leastWords hnext List.pairwise_lt_range hplace hends
  have hlengths : words.map List.length = (reach next bound [root]).map
      (distance (fun x y => y ∈ next x) root) := by
    rw [← List.forall₂_eq_eq_eq, List.forall₂_map_left_iff, List.forall₂_map_right_iff]
    exact hwords.imp fun _ _ h => h.distance_eq.symm
  rw [← List.pairwise_map, ← hlengths, List.pairwise_map]
  exact hascending.imp fun h => Prod.Lex.monotone_fst _ _ h.le

end Search

end FiniteState
