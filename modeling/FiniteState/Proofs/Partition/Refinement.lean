import FiniteState.Proofs.Partition.Classes
import FiniteState.Proofs.Partition.Grouping
import Mathlib.Logic.Function.Iterate

/-! # Rounds of refinement

A round keeps the entries and leaves two different states together exactly if they were together
and move alike. A round that splits no class changes nothing, so stopping early loses nothing:
the rounds performed are an iteration of the single round. As many rounds as there are states end
in a stable partition.
-/

namespace FiniteState.Partition

variable {a : Automaton} {p : Partition} {q r : StateId}

/-! ## Moving alike -/

theorem mapM_agree_iff {α β : Type} {f g : α → Option β} {xs : List α} :
    ((xs.mapM f).isSome ∧ xs.mapM f = xs.mapM g) ↔
      ∀ x ∈ xs, ∃ y, f x = some y ∧ g x = some y := by
  induction xs with
  | nil => simp
  | cons x xs ih =>
    rw [List.forall_mem_cons, ← ih, List.mapM_cons, List.mapM_cons]
    cases hf : f x with
    | none => simp
    | some y =>
      cases xs.mapM f with
      | none => simp
      | some ys =>
        cases hg : g x with
        | none => simp
        | some z =>
          cases xs.mapM g with
          | none => simp
          | some zs => simpa using fun _ => eq_comm

theorem moveAlike_iff_lastClass? :
    p.MoveAlike a q r ↔ ∀ c ∈ a.alphabet, ∃ i, (a.successor? q c >>= p.lastClass?) = some i ∧
      (a.successor? r c >>= p.lastClass?) = some i := mapM_agree_iff

theorem MoveAlike.symm (h : p.MoveAlike a q r) : p.MoveAlike a r q := ⟨h.2 ▸ h.1, h.2.symm⟩

theorem MoveAlike.trans {s : StateId} (h : p.MoveAlike a q r) (hrs : p.MoveAlike a r s) :
    p.MoveAlike a q s := ⟨h.1, h.2.trans hrs.2⟩

theorem moveAlike_iff (hp : p.entries.Nodup) :
    p.MoveAlike a q r ↔ ∀ c ∈ a.alphabet, ∃ s t, a.successor? q c = some s ∧
      a.successor? r c = some t ∧ p.SameClass s t := by
  rw [moveAlike_iff_lastClass?]
  apply forall₂_congr
  intro c _
  simp only [Option.bind_eq_bind, Option.bind_eq_some_iff, sameClass_iff hp]
  constructor
  · intro h
    obtain ⟨i, ⟨s, hs, hsi⟩, ⟨t, ht, hti⟩⟩ := h
    exact ⟨s, t, hs, ht, i, hsi, hti⟩
  · intro h
    obtain ⟨s, t, hs, ht, i, hsi, hti⟩ := h
    exact ⟨i, ⟨s, hs, hsi⟩, ⟨t, ht, hti⟩⟩

/-! ## One round -/

theorem entries_refine_perm (p : Partition) : (p.refine a).entries.Perm p.entries := by
  simp only [entries, refine, List.flatMap_assoc]
  exact List.Perm.flatMap_left _ fun b _ => group_perm _ _

theorem Covers.refine (hp : p.Covers a) : (p.refine a).Covers a :=
  (entries_refine_perm p).trans hp

theorem sameClass_refine_iff (hp : p.entries.Nodup) (hne : q ≠ r) :
    (p.refine a).SameClass q r ↔ p.SameClass q r ∧ p.MoveAlike a q r := by
  have hgroup (b : Block) (hb : b ∈ p.blocks) (hq : q ∈ b) (hr : r ∈ b) :
      (∃ c ∈ group (fun x y => p.MoveAlike a x y) b.toList, q ∈ c ∧ r ∈ c) ↔ p.MoveAlike a q r := by
    rw [exists_group_iff _ _ (nodup_of_mem_blocks hp hb) hne hq hr, decide_eq_true_iff]
    · intro x y hxy
      exact decide_eq_true (of_decide_eq_true hxy).symm
    · intro x y z hxy hyz
      exact decide_eq_true ((of_decide_eq_true hxy).trans (of_decide_eq_true hyz))
  constructor
  · intro h
    obtain ⟨c, hc, hq, hr⟩ := h
    obtain ⟨b, hb, hc⟩ := List.mem_flatMap.mp hc
    have hqb : q ∈ b := mem_of_mem_group hc hq
    have hrb : r ∈ b := mem_of_mem_group hc hr
    exact ⟨⟨b, hb, hqb, hrb⟩, (hgroup b hb hqb hrb).mp ⟨c, hc, hq, hr⟩⟩
  · intro h
    obtain ⟨⟨b, hb, hq, hr⟩, halike⟩ := h
    obtain ⟨c, hc, hqc, hrc⟩ := (hgroup b hb hq hr).mpr halike
    exact ⟨c, List.mem_flatMap.mpr ⟨b, hb, hc⟩, hqc, hrc⟩

/-! ## Rounds that split nothing -/

theorem flatMap_eq_self_of_length {α : Type} {f : α → List α} (hpos : ∀ x, f x ≠ [])
    (hone : ∀ x, (f x).length = 1 → f x = [x]) {xs : List α}
    (hlength : (xs.flatMap f).length = xs.length) : xs.flatMap f = xs := by
  induction xs with
  | nil => rfl
  | cons x xs ih =>
    have hx := List.length_pos_of_ne_nil (hpos x)
    have hxs := length_le_length_flatMap fun x (_ : x ∈ xs) => hpos x
    simp only [List.flatMap_cons, List.length_append, List.length_cons] at hlength ⊢
    rw [hone x (by omega), ih (by omega)]
    rfl

theorem size_le_size_refine (p : Partition) : p.size ≤ (p.refine a).size :=
  length_le_length_flatMap fun b _ => group_toList_ne_nil b

/-- A round that splits no class changes nothing. -/
theorem refine_eq_of_size (h : (p.refine a).size = p.size) : p.refine a = p := by
  have hblocks := flatMap_eq_self_of_length (fun b => group_toList_ne_nil b)
    (fun _ hb => group_eq_of_length hb) h
  cases p
  exact congrArg mk hblocks

theorem refine_eq_iff : p.refine a = p ↔ (p.refine a).size = p.size :=
  ⟨fun h => congrArg size h, refine_eq_of_size⟩

/-! ## Many rounds -/

theorem refineRounds_eq_iterate (limit : Nat) (p : Partition) :
    refineRounds a limit p = (refine a)^[limit] p := by
  induction limit generalizing p with
  | zero => rfl
  | succ limit ih =>
    rw [refineRounds, Function.iterate_succ_apply]
    split
    next hsize =>
      -- The rounds left out would change nothing.
      have hstable : p.refine a = p := refine_eq_of_size hsize
      rw [hstable, Function.iterate_fixed hstable]
    next => exact ih (p.refine a)

theorem Covers.iterate (hp : p.Covers a) (k : Nat) : ((Partition.refine a)^[k] p).Covers a := by
  induction k generalizing p with
  | zero => exact hp
  | succ k ih => exact ih hp.refine

/-- As long as rounds split something, there are more classes than rounds. -/
theorem stable_or_lt_size (hp : 0 < p.size) (k : Nat) :
    ((refine a)^[k] p).refine a = (refine a)^[k] p ∨ k < ((refine a)^[k] p).size := by
  induction k with
  | zero => exact .inr hp
  | succ k ih =>
    rw [Function.iterate_succ_apply']
    by_cases hstable : ((refine a)^[k] p).refine a = (refine a)^[k] p
    · exact .inl (by rw [hstable, hstable])
    · -- A round that still splits something adds a class.
      have hlt := ih.resolve_left hstable
      have hle := size_le_size_refine (a := a) ((refine a)^[k] p)
      have hne := mt refine_eq_iff.mpr hstable
      exact .inr (by omega)

theorem iterate_of_size_eq_zero (hp : p.size = 0) (k : Nat) : (refine a)^[k] p = p := by
  have hnil : p.blocks = [] := List.length_eq_zero_iff.mp hp
  refine Function.iterate_fixed ?_ k
  cases p
  cases hnil
  rfl

/-- As many rounds as there are states end in a stable partition. -/
theorem refine_iterate_size (hp : p.Covers a) :
    ((refine a)^[a.size] p).refine a = (refine a)^[a.size] p := by
  by_cases hsize : p.size = 0
  · rw [← Function.iterate_succ_apply' (refine a), iterate_of_size_eq_zero hsize,
      iterate_of_size_eq_zero hsize]
  · refine (stable_or_lt_size (Nat.pos_of_ne_zero hsize) a.size).resolve_right ?_
    exact Nat.not_lt_of_le (hp.iterate a.size).size_le

end FiniteState.Partition
