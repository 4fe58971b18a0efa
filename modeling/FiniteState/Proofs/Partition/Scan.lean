import FiniteState.Proofs.Partition.Grouping
import Mathlib.Data.List.Range
import Mathlib.Data.Multiset.Basic

/-! # Scans

The scan that sorts a list into blocks looks at likeness only, so it sorts positions as it sorts
the entries at them. Blocks keep the order of the list, and they come in the order of their first
entries. If likeness is symmetric and transitive, the order of the scan makes no difference to
which entries are together.
-/

namespace FiniteState

/-- The block of the images. -/
def Block.map (f : StateId → StateId) (b : Block) : Block := ⟨f b.representative, b.others.map f⟩

@[simp] theorem Block.toList_map (f : StateId → StateId) (b : Block) :
    (b.map f).toList = b.toList.map f := rfl

/-- The states of a block, whatever their order. -/
def Block.members (b : Block) : Multiset StateId := b.toList

namespace Partition

variable {alike : StateId → StateId → Bool} {qs rs : List StateId} {b : Block}

/-- Images are grouped as what they are images of. -/
theorem group_map (alike : StateId → StateId → Bool) (f : StateId → StateId)
    (qs : List StateId) :
    group alike (qs.map f) = (group (fun x y => alike (f x) (f y)) qs).map (Block.map f) := by
  induction qs using group_induction (fun x y => alike (f x) (f y)) with
  | hnil => rfl
  | hcons q qs ih =>
    rw [List.map_cons, group_cons, group_cons, List.map_cons, ← ih, List.filter_map,
      List.filter_map]
    rfl

/-! ## Order -/

theorem sublist_of_mem_group (hb : b ∈ group alike qs) : b.toList.Sublist qs := by
  induction qs using group_induction alike with
  | hnil => cases hb
  | hcons q qs ih =>
    rw [group_cons] at hb
    rcases List.mem_cons.mp hb with rfl | hb
    · exact List.filter_sublist.cons_cons q
    · exact ((ih hb).trans List.filter_sublist).cons q

theorem representatives_sublist (alike : StateId → StateId → Bool) (qs : List StateId) :
    ((group alike qs).map (·.representative)).Sublist qs := by
  induction qs using group_induction alike with
  | hnil => exact .slnil
  | hcons q qs ih =>
    rw [group_cons, List.map_cons]
    exact (ih.trans List.filter_sublist).cons_cons q

/-! ## Positions -/

/-- The lists put the positions of the entries of a list together: each position once, in ascending
order within a list, and the lists in the order of their first positions. Different positions are
together exactly if the relation holds of the entries at them. -/
structure Places (together : StateId → StateId → Prop) (qs : List StateId)
    (places : List (List Nat)) : Prop where
  perm : places.flatten.Perm (List.range qs.length)
  ne_nil : ∀ is ∈ places, is ≠ []
  ascending : ∀ is ∈ places, is.Pairwise (· < ·)
  first_ascending : (places.filterMap List.head?).Pairwise (· < ·)
  together_iff : ∀ i j q r, qs[i]? = some q → qs[j]? = some r → i ≠ j →
    ((∃ is ∈ places, i ∈ is ∧ j ∈ is) ↔ together q r)

theorem map_getD_range (qs : List StateId) :
    (List.range qs.length).map (fun i => qs.getD i 0) = qs := by
  refine List.ext_getElem (by simp) ?_
  intro i hi _
  simp_all

/-- The blocks of a list are given by the positions of their entries. -/
theorem exists_places (hsymm : ∀ x y, alike x y → alike y x)
    (htrans : ∀ x y z, alike x y → alike y z → alike x z) (qs : List StateId) :
    ∃ places, Places (fun q r => alike q r) qs places ∧
      (group alike qs).map (fun b => b.toList.map some) = places.map fun is => is.map (qs[·]?) := by
  let f : Nat → StateId := fun i => qs.getD i 0
  let alikeAt : Nat → Nat → Bool := fun i j => alike (f i) (f j)
  let blocks := group alikeAt (List.range qs.length)
  have hgroup : group alike qs = blocks.map (Block.map f) := by
    rw [← group_map, map_getD_range]
  have hmem : ∀ b ∈ blocks, ∀ i ∈ b, i < qs.length := by
    intro b hb i hi
    exact List.mem_range.mp (mem_of_mem_group hb hi)
  refine ⟨blocks.map Block.toList, ⟨?_, ?_, ?_, ?_, ?_⟩, ?_⟩
  · exact group_perm _ _
  · simp [Block.toList]
  · rw [List.forall_mem_map]
    intro b hb
    exact List.pairwise_lt_range.sublist (sublist_of_mem_group hb)
  · have hfirst : (blocks.map Block.toList).filterMap List.head? =
        blocks.map (·.representative) := by
      simp [List.filterMap_map, Function.comp_def, Block.toList]
    rw [hfirst]
    exact List.pairwise_lt_range.sublist (representatives_sublist _ _)
  · intro i j q r hi hj hne
    have hq : f i = q := by simp [f, hi]
    have hr : f j = r := by simp [f, hj]
    have hsymmAt : ∀ x y, alikeAt x y → alikeAt y x := fun x y => hsymm _ _
    have hiff := exists_group_iff hsymmAt (fun x y z => htrans _ _ _) List.nodup_range hne
      (List.mem_range.mpr (List.getElem?_eq_some_iff.mp hi).1)
      (List.mem_range.mpr (List.getElem?_eq_some_iff.mp hj).1)
    rw [show alikeAt i j = alike q r by rw [← hq, ← hr]] at hiff
    simpa only [List.mem_map, exists_exists_and_eq_and, Block.mem_toList] using hiff
  · rw [hgroup, List.map_map, List.map_map]
    apply List.map_congr_left
    intro b hb
    simp only [Function.comp_apply, Block.toList_map, List.map_map]
    apply List.map_congr_left
    intro i hi
    simp [f, hmem b hb i hi]

/-! ## The order of the scan -/

section Symmetric

variable (hsymm : ∀ x y, alike x y → alike y x)
  (htrans : ∀ x y z, alike x y → alike y z → alike x z)

include hsymm htrans

theorem alike_congr {x y z : StateId} (h : alike x y) : alike x z = alike y z := by
  rw [Bool.eq_iff_iff]
  exact ⟨htrans y x z (hsymm x y h), htrans x y z h⟩

/-- What is not like the first of two states that are not alike contains all that is like the
other one. -/
theorem filter_filter_alike {x y : StateId} (h : ¬alike x y) (qs : List StateId) :
    (qs.filter (!alike x ·)).filter (alike y ·) = qs.filter (alike y ·) := by
  rw [List.filter_filter]
  apply List.filter_congr
  intro z _
  by_cases hyz : alike y z
  · have hxz : ¬alike x z := fun hxz => h (htrans x z y hxz (hsymm y z hyz))
    simp [hyz, hxz]
  · simp [hyz]

theorem members_group_swap (x y : StateId) (qs : List StateId) :
    ((group alike (y :: x :: qs)).map Block.members).Perm
      ((group alike (x :: y :: qs)).map Block.members) := by
  by_cases h : alike x y
  · -- One of the two absorbs the other and all that is like either.
    have hyx : alike y x := hsymm x y h
    have hlike : alike y = alike x := funext fun z => alike_congr hsymm htrans hyx
    rw [group_cons, group_cons, List.filter_cons_of_pos h, List.filter_cons_of_pos hyx,
      List.filter_cons_of_neg (by simpa using hyx), List.filter_cons_of_neg (by simpa using h),
      hlike, List.map_cons, List.map_cons]
    have hmembers : Block.members ⟨y, x :: qs.filter (alike x ·)⟩ =
        Block.members ⟨x, y :: qs.filter (alike x ·)⟩ := Multiset.coe_eq_coe.mpr (.swap _ _ _)
    rw [hmembers]
  · -- Each absorbs what it absorbs without the other.
    have hyx : ¬alike y x := fun hyx => h (hsymm y x hyx)
    rw [group_cons, group_cons, List.filter_cons_of_neg h, List.filter_cons_of_neg hyx,
      List.filter_cons_of_pos (by simpa using hyx), List.filter_cons_of_pos (by simpa using h),
      group_cons, group_cons, filter_filter_alike hsymm htrans h,
      filter_filter_alike hsymm htrans hyx, List.filter_comm]
    exact .swap _ _ _

/-- Scanning the entries in another order puts the same ones together. -/
theorem members_group_perm (h : qs.Perm rs) :
    ((group alike qs).map Block.members).Perm ((group alike rs).map Block.members) := by
  induction hlength : qs.length using Nat.strongRecOn generalizing qs rs with
  | ind n ih =>
    induction h with
    | nil => exact .nil
    | @cons x qs rs h _ =>
      -- What the first entry leaves over is shorter.
      have hrest := ih _ (hlength ▸ Nat.lt_succ_of_le (List.length_filter_le _ _))
        (h.filter (!alike x ·)) rfl
      have hmembers : Block.members ⟨x, qs.filter (alike x ·)⟩ =
          Block.members ⟨x, rs.filter (alike x ·)⟩ :=
        Multiset.coe_eq_coe.mpr ((h.filter _).cons x)
      rw [group_cons, group_cons, List.map_cons, List.map_cons, hmembers]
      exact hrest.cons _
    | swap x y qs => exact members_group_swap hsymm htrans x y qs
    | trans h _ ihfirst ihsecond =>
      exact (ihfirst hlength).trans (ihsecond (h.length_eq ▸ hlength))

end Symmetric

end Partition

end FiniteState
