import FiniteState.Partition.Refinement
import Mathlib.Data.List.Perm.Basic
import Mathlib.Data.List.Nodup

/-! # Grouping by representatives

Sorting states into blocks by their likeness to a representative is the scan that lets each state
not placed yet absorb all later ones like it. If likeness is symmetric and transitive, two
different states share a block exactly if they are alike.
-/

namespace FiniteState.Partition

variable {alike : StateId → StateId → Bool} {q r : StateId} {qs : List StateId} {b : Block}

theorem foldl_place_cons (rest : List Block) :
    qs.foldl (fun blocks q => place alike q blocks) (b :: rest) =
      ⟨b.representative, b.others ++ qs.filter (alike b.representative ·)⟩ ::
        (qs.filter (!alike b.representative ·)).foldl (fun blocks q => place alike q blocks)
          rest := by
  induction qs generalizing b rest with
  | nil => simp
  | cons q qs ih =>
    rw [List.foldl_cons, place]
    split
    next hq =>
      rw [ih]
      simp [Block.push, hq]
    next hq =>
      rw [ih]
      simp [hq]

theorem group_nil : group alike [] = [] := rfl

/-- The first state absorbs all later ones like it; the others are grouped by themselves. -/
theorem group_cons (q : StateId) (qs : List StateId) :
    group alike (q :: qs) =
      ⟨q, qs.filter (alike q ·)⟩ :: group alike (qs.filter (!alike q ·)) :=
  foldl_place_cons (b := ⟨q, []⟩) []

theorem group_induction {P : List StateId → Prop} (alike : StateId → StateId → Bool) (hnil : P [])
    (hcons : ∀ q qs, P (qs.filter (!alike q ·)) → P (q :: qs)) (qs : List StateId) : P qs := by
  induction hlength : qs.length using Nat.strongRecOn generalizing qs with
  | ind n ih =>
    cases qs with
    | nil => exact hnil
    | cons q qs =>
      refine hcons q qs (ih _ ?_ _ rfl)
      rw [← hlength, List.length_cons]
      exact Nat.lt_succ_of_le (List.length_filter_le _ _)

theorem group_perm (alike : StateId → StateId → Bool) (qs : List StateId) :
    ((group alike qs).flatMap Block.toList).Perm qs := by
  induction qs using group_induction alike with
  | hnil => exact .nil
  | hcons q qs ih =>
    rw [group_cons, List.flatMap_cons]
    exact ((ih.append_left _).trans (List.filter_append_perm _ _)).cons q

theorem mem_of_mem_group (hb : b ∈ group alike qs) (hq : q ∈ b) : q ∈ qs :=
  (group_perm alike qs).mem_iff.mp (List.mem_flatMap.mpr ⟨b, hb, hq⟩)

theorem group_toList_ne_nil (b : Block) : group alike b.toList ≠ [] := by
  rw [Block.toList, group_cons]
  exact List.cons_ne_nil _ _

/-- A block that stays whole is not changed. -/
theorem group_eq_of_length (h : (group alike b.toList).length = 1) :
    group alike b.toList = [b] := by
  rw [Block.toList, group_cons] at h ⊢
  have hrest : b.others.filter (!alike b.representative ·) = [] := by
    cases hother : b.others.filter (!alike b.representative ·) with
    | nil => rfl
    | cons q qs =>
      rw [hother, group_cons] at h
      simp at h
  have hall : b.others.filter (alike b.representative ·) = b.others := by
    rw [List.filter_eq_self]
    intro q hq
    simpa using List.filter_eq_nil_iff.mp hrest q hq
  rw [hrest, hall, group_nil]

theorem exists_group_cons_iff {x : StateId} :
    (∃ b ∈ group alike (x :: qs), q ∈ b ∧ r ∈ b) ↔
      ((q = x ∨ (q ∈ qs ∧ alike x q)) ∧ (r = x ∨ (r ∈ qs ∧ alike x r))) ∨
        ∃ b ∈ group alike (qs.filter (!alike x ·)), q ∈ b ∧ r ∈ b := by
  simp only [group_cons, List.mem_cons, exists_eq_or_imp, ← Block.mem_toList, Block.toList,
    List.mem_filter]

/-- What the first state absorbs is in none of the later blocks. -/
theorem of_mem_later {x : StateId} (hb : b ∈ group alike (qs.filter (!alike x ·))) (hq : q ∈ b) :
    q ∈ qs ∧ ¬alike x q := by
  simpa using mem_of_mem_group hb hq

/-- Different states share a block exactly if they are alike. -/
theorem exists_group_iff (hsymm : ∀ x y, alike x y → alike y x)
    (htrans : ∀ x y z, alike x y → alike y z → alike x z) (hnodup : qs.Nodup) (hne : q ≠ r)
    (hq : q ∈ qs) (hr : r ∈ qs) : (∃ b ∈ group alike qs, q ∈ b ∧ r ∈ b) ↔ alike q r := by
  induction qs using group_induction alike with
  | hnil => cases hq
  | hcons x qs ih =>
    obtain ⟨hx, hnodup⟩ := List.nodup_cons.mp hnodup
    rw [exists_group_cons_iff]
    -- Either one of the two states absorbs, or it is decided by what absorbs them.
    rcases List.mem_cons.mp hq with rfl | hqs
    · have hrs : r ∈ qs := (List.mem_cons.mp hr).resolve_left hne.symm
      have hlater : ¬∃ b ∈ group alike (qs.filter (!alike q ·)), q ∈ b ∧ r ∈ b := by
        intro h
        obtain ⟨b, hb, hqb, _⟩ := h
        exact hx (of_mem_later hb hqb).1
      simp [hlater, hne.symm, hrs]
    · rcases List.mem_cons.mp hr with rfl | hrs
      · have hlater : ¬∃ b ∈ group alike (qs.filter (!alike r ·)), q ∈ b ∧ r ∈ b := by
          intro h
          obtain ⟨b, hb, _, hrb⟩ := h
          exact hx (of_mem_later hb hrb).1
        simp only [hlater, hne, hqs, true_or, and_true, or_false, false_or, true_and]
        exact ⟨hsymm r q, hsymm q r⟩
      · have hqx : q ≠ x := fun h => hx (h ▸ hqs)
        have hrx : r ≠ x := fun h => hx (h ▸ hrs)
        by_cases hxq : alike x q
        · have hlater : ¬∃ b ∈ group alike (qs.filter (!alike x ·)), q ∈ b ∧ r ∈ b := by
            intro h
            obtain ⟨b, hb, hqb, _⟩ := h
            exact (of_mem_later hb hqb).2 hxq
          simp only [hqx, hrx, hqs, hrs, hxq, hlater, false_or, true_and, or_false]
          exact ⟨htrans q x r (hsymm x q hxq), htrans x q r hxq⟩
        · have hqlater : q ∈ qs.filter (!alike x ·) := List.mem_filter.mpr ⟨hqs, by simpa using hxq⟩
          simp only [hqx, hxq, false_or, and_false, false_and, Bool.false_eq_true]
          by_cases hxr : alike x r
          · constructor
            · intro h
              obtain ⟨b, hb, _, hrb⟩ := h
              exact absurd hxr (of_mem_later hb hrb).2
            · intro hqr
              exact absurd (htrans x r q hxr (hsymm q r hqr)) hxq
          · exact ih (hnodup.filter _) hqlater (List.mem_filter.mpr ⟨hrs, by simpa using hxr⟩)

end FiniteState.Partition
