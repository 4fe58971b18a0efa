import FiniteState.Search
import Mathlib.Data.List.Nodup
import Mathlib.Logic.Relation

/-! # Completeness of breadth-first search

A search whose items stay in a finite universe ends within as many steps as the universe has
entries, and has then found exactly the items that can be reached.
-/

namespace FiniteState.Search

variable {α : Type} [DecidableEq α] {next : α → List α} {s : Search α}

theorem run_induction {P : Search α → Prop} (hstep : ∀ s, P s → P (s.step next)) (fuel : Nat)
    (hs : P s) : P (s.run next fuel) := by
  induction fuel generalizing s with
  | zero => exact hs
  | succ fuel ih =>
    unfold run
    split
    · exact hs
    · exact ih (hstep s hs)

/-- What a search within a universe keeps: every entry found is in the universe and found once,
and the expanded entries lead to found ones only. -/
structure Within (all : List α) (next : α → List α) (s : Search α) : Prop where
  nodup : s.found.Nodup
  found_subset : s.found ⊆ all
  next_subset : ∀ x ∈ s.expanded, next x ⊆ s.found

variable {all : List α}

theorem Within.step (hclosed : ∀ x ∈ all, next x ⊆ all)
    (hs : s.Within all next) : (s.step next).Within all next := by
  cases hw : s.waiting with
  | nil => simpa [Search.step, hw] using hs
  | cons x rest =>
    have hx : x ∈ s.found := by simp [found, hw]
    refine ⟨nodup_found_step hs.nodup, ?_, ?_⟩
    · rw [found_step hw]
      intro y hy
      rcases List.mem_append.mp hy with hy | hy
      · exact hs.found_subset hy
      · exact hclosed x (hs.found_subset hx) (mem_unseen.mp hy).1
    · intro z hz y hy
      rw [found_step hw, List.mem_append, mem_unseen]
      -- What the expanded entry leads to has been found before or is found now.
      by_cases hyf : y ∈ s.found
      · exact .inl hyf
      · have hzx : z ∈ s.expanded ++ [x] := by simpa [Search.step, hw] using hz
        rcases List.mem_append.mp hzx with hz | hz
        · exact .inl (hs.next_subset z hz hy)
        · rw [List.mem_singleton] at hz
          subst hz
          exact .inr ⟨hy, hyf⟩

omit [DecidableEq α] in
theorem Within.expanded_length_le (hs : s.Within all next) :
    s.expanded.length + s.waiting.length ≤ all.length := by
  have hlength := hs.nodup.length_le_of_subset hs.found_subset
  simpa [found] using hlength

/-- With enough fuel nothing is left waiting. -/
theorem Within.waiting_run (hclosed : ∀ x ∈ all, next x ⊆ all) {fuel : Nat}
    (hs : s.Within all next) (hfuel : all.length ≤ fuel + s.expanded.length) :
    (s.run next fuel).waiting = [] := by
  induction fuel generalizing s with
  | zero =>
    have hle := hs.expanded_length_le
    rw [run, ← List.length_eq_zero_iff]
    omega
  | succ fuel ih =>
    unfold run
    split
    next hempty => exact List.isEmpty_iff.mp hempty
    next =>
      cases hw : s.waiting with
      | nil => simp_all
      | cons x rest =>
        apply ih (hs.step hclosed)
        simp only [Search.step, hw, List.length_append, List.length_singleton]
        omega

theorem within_start {xs : List α} (hxs : xs ⊆ all) :
    (start xs).Within all next := by
  refine ⟨nodup_unseen [] xs, ?_, by simp [start]⟩
  intro x hx
  exact hxs (mem_unseen.mp hx).1

theorem step_of_waiting (h : s.waiting = []) : s.step next = s := by
  simp only [step, h]

theorem run_of_waiting (h : s.waiting = []) (fuel : Nat) : s.run next fuel = s := by
  cases fuel with
  | zero => rfl
  | succ fuel => simp [run, h]

/-- The last step of a run changes nothing if the search has ended before. -/
theorem run_succ (fuel : Nat) (s : Search α) :
    s.run next (fuel + 1) = (s.run next fuel).step next := by
  induction fuel generalizing s with
  | zero =>
    cases hw : s.waiting with
    | nil => rw [run_of_waiting hw, run_of_waiting hw, step_of_waiting hw]
    | cons x rest => simp [run, hw]
  | succ fuel ih =>
    cases hw : s.waiting with
    | nil => rw [run_of_waiting hw, run_of_waiting hw, step_of_waiting hw]
    | cons x rest =>
      have hne : ¬s.waiting.isEmpty = true := by simp [hw]
      rw [run, if_neg hne, ih, run, if_neg hne]

theorem run_add (first second : Nat) (s : Search α) :
    s.run next (first + second) = (s.run next first).run next second := by
  induction second with
  | zero => rfl
  | succ second ih => rw [← Nat.add_assoc, run_succ, run_succ, ih]

theorem length_expanded_run (fuel : Nat) (s : Search α) :
    (s.run next fuel).expanded.length ≤ s.expanded.length + fuel := by
  induction fuel with
  | zero => exact Nat.le_refl _
  | succ fuel ih =>
    rw [run_succ]
    cases hw : (s.run next fuel).waiting with
    | nil =>
      rw [step_of_waiting hw]
      exact Nat.le_succ_of_le ih
    | cons x rest =>
      simp only [step, hw, List.length_append, List.length_singleton]
      omega

theorem unseen_congr {first second : List α} (h : ∀ x, x ∈ first ↔ x ∈ second) (xs : List α) :
    unseen first xs = unseen second xs := by
  induction xs generalizing first second with
  | nil => rfl
  | cons x xs ih =>
    have hcons : ∀ y, y ∈ x :: first ↔ y ∈ x :: second := by simp [h]
    simp only [unseen, h x, ih h, ih hcons]

/-- What is new in the first part of a list is known in the second. -/
theorem unseen_append (known xs ys : List α) :
    unseen known (xs ++ ys) = unseen known xs ++ unseen (known ++ unseen known xs) ys := by
  induction xs generalizing known with
  | nil => simp [unseen]
  | cons x xs ih =>
    rw [List.cons_append, unseen, unseen]
    split
    next => exact ih known
    next =>
      rw [ih, List.cons_append]
      congr 2
      exact unseen_congr (by simp [or_left_comm]) ys

theorem found_prefix_step : s.found <+: (s.step next).found := by
  cases hw : s.waiting with
  | nil => simp [step, hw]
  | cons x rest =>
    rw [found_step hw]
    exact List.prefix_append _ _

/-- What has been found stays found, at its place. -/
theorem found_prefix_run (fuel : Nat) : s.found <+: (s.run next fuel).found :=
  run_induction (P := fun t => s.found <+: t.found) (fun _ ht => ht.trans found_prefix_step) fuel
    List.prefix_rfl

/-- The first entry searched from is found first. -/
theorem head?_reach (bound : Nat) (x : α) (xs : List α) :
    (reach next bound (x :: xs)).head? = some x := by
  have hprefix : unseen [] (x :: xs) <+: reach next bound (x :: xs) :=
    found_prefix_run (s := start (x :: xs)) bound
  obtain ⟨rest, hrest⟩ := hprefix
  rw [← hrest, unseen, if_neg List.not_mem_nil]
  rfl

/-- What is found belongs to every property that holds at the beginning and is handed on. -/
theorem forall_mem_reach {P : α → Prop} {xs : List α} {bound : Nat} (hxs : ∀ x ∈ xs, P x)
    (hnext : ∀ x, P x → ∀ y ∈ next x, P y) : ∀ y ∈ reach next bound xs, P y := by
  refine run_induction (P := fun s => ∀ y ∈ s.found, P y) ?_ bound ?_
  · intro s hs
    cases hw : s.waiting with
    | nil => simpa [step, hw] using hs
    | cons x rest =>
      rw [found_step hw]
      intro y hy
      rcases List.mem_append.mp hy with hy | hy
      · exact hs y hy
      · exact hnext x (hs x (by simp [found, hw])) y (mem_unseen.mp hy).1
  · intro y hy
    exact hxs y (mem_unseen.mp hy).1

/-- The bound suffices: when the search has expanded as many items, none is waiting. -/
def Ends (next : α → List α) (bound : Nat) (xs : List α) : Prop :=
  ((start xs).run next bound).waiting = []

section Reach

variable {xs : List α} {bound : Nat} (hxs : xs ⊆ all)
  (hclosed : ∀ x ∈ all, next x ⊆ all) (hbound : all.length ≤ bound)

include hxs hclosed hbound

/-- Within a universe that the bound covers, a search ends. -/
theorem ends : Ends next bound xs :=
  (within_start hxs).waiting_run hclosed (by simp [start, hbound])

/-- Within a universe that the bound covers, a search finds all that its findings lead to. -/
theorem next_subset_reach : ∀ x ∈ reach next bound xs, next x ⊆ reach next bound xs := by
  have hend : ((start xs).run next bound).Within all next :=
    run_induction (fun _ h => h.step hclosed) bound (within_start hxs)
  have hwaiting : ((start xs).run next bound).waiting = [] :=
    ends hxs hclosed hbound
  intro x hx
  apply hend.next_subset
  simpa [reach, found, hwaiting] using hx

/-- Within a universe that the bound covers, a search finds exactly what can be reached. -/
theorem mem_reach_iff {y : α} : y ∈ reach next bound xs ↔
    ∃ x ∈ xs, Relation.ReflTransGen (fun a b => b ∈ next a) x y := by
  constructor
  · intro hy
    refine forall_mem_reach
      (P := fun z => ∃ x ∈ xs, Relation.ReflTransGen (fun a b => b ∈ next a) x z) ?_ ?_ y hy
    · exact fun x hx => ⟨x, hx, .refl⟩
    · rintro z ⟨x, hx, hxz⟩ w hw
      exact ⟨x, hx, hxz.tail hw⟩
  · rintro ⟨x, hx, hxy⟩
    induction hxy with
    | refl =>
      apply (found_prefix_run bound).subset
      simpa [start, found, mem_unseen] using hx
    | tail _ hbc ih => exact next_subset_reach hxs hclosed hbound _ ih hbc

/-- A search expands one item after the other, and has found all of them when all are expanded. -/
theorem waiting_run_eq_nil_iff {rounds : Nat} : ((start xs).run next rounds).waiting = [] ↔
    (reach next bound xs).length ≤ rounds := by
  have hwithin (rounds : Nat) : ((start xs).run next rounds).Within all next :=
    run_induction (fun _ h => h.step hclosed) rounds (within_start hxs)
  constructor
  · intro hwaiting
    have hfound : ((start xs).run next rounds).found = ((start xs).run next rounds).expanded := by
      rw [found, hwaiting, List.append_nil]
    -- What has been expanded contains the beginning and all that it leads to.
    have hreach : reach next bound xs ⊆ ((start xs).run next rounds).expanded := by
      refine forall_mem_reach (P := (· ∈ ((start xs).run next rounds).expanded)) ?_ ?_
      · intro x hx
        rw [← hfound]
        refine (found_prefix_run rounds).subset ?_
        simpa [start, found, mem_unseen] using hx
      · intro x hx y hy
        rw [← hfound]
        exact (hwithin rounds).next_subset x hx hy
    have hlength := (nodup_reach bound xs).length_le_of_subset hreach
    have hexpanded : ((start xs).run next rounds).expanded.length ≤ 0 + rounds :=
      length_expanded_run rounds (start xs)
    rw [Nat.zero_add] at hexpanded
    exact Nat.le_trans hlength hexpanded
  · intro hrounds
    have hbegin : xs ⊆ reach next bound xs :=
      fun x hx => (mem_reach_iff hxs hclosed hbound).mpr ⟨x, hx, .refl⟩
    exact (within_start hbegin).waiting_run (next_subset_reach hxs hclosed hbound)
      (by simpa [start] using hrounds)

theorem found_run_of_le {rounds : Nat} (h : (reach next bound xs).length ≤ rounds) :
    ((start xs).run next rounds).found = reach next bound xs := by
  have hended := (waiting_run_eq_nil_iff hxs hclosed hbound).mpr h
  have hbounded : ((start xs).run next bound).waiting = [] := ends hxs hclosed hbound
  -- The longer of the two runs only continues the shorter one, which has ended.
  rcases Nat.le_total rounds bound with hle | hle
  · rw [reach, ← Nat.add_sub_of_le hle, run_add, run_of_waiting hended]
  · rw [reach, ← Nat.add_sub_of_le hle, run_add, run_of_waiting hbounded]

end Reach

end FiniteState.Search
