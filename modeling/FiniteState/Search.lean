/-! # Breadth-first search

A search keeps the items it has found, each once and oldest first, split into those already
expanded and those still waiting. It expands the oldest waiting item until none is left. The main
statement says that no item is found twice.
-/

namespace FiniteState

structure Search (α : Type) where
  /-- The expanded items, oldest first. -/
  expanded : List α
  /-- The items found but not yet expanded, oldest first. -/
  waiting : List α
deriving DecidableEq, Repr

namespace Search

variable {α : Type}

/-- The items found so far, oldest first. -/
def found (s : Search α) : List α := s.expanded ++ s.waiting

variable [DecidableEq α]

/-- The entries of a list that are not known yet, each once, in the order of the list. -/
def unseen (known : List α) : List α → List α
  | [] => []
  | x :: rest => if x ∈ known then unseen known rest else x :: unseen (x :: known) rest

/-- The search that has expanded nothing and found the entries of a list. -/
def start (xs : List α) : Search α := ⟨[], unseen [] xs⟩

/-- Expands the oldest waiting item. -/
def step (next : α → List α) (s : Search α) : Search α :=
  match s.waiting with
  | [] => s
  | x :: rest => ⟨s.expanded ++ [x], rest ++ unseen s.found (next x)⟩

/-- Expands items until none is waiting, but at most `fuel` of them. -/
def run (next : α → List α) : Nat → Search α → Search α
  | 0, s => s
  | fuel + 1, s => if s.waiting.isEmpty then s else run next fuel (s.step next)

/-- The items found from the entries of a list, oldest first, when at most `bound` items can be
found. -/
def reach (next : α → List α) (bound : Nat) (xs : List α) : List α :=
  (run next bound (start xs)).found

/-! ## Unseen entries -/

theorem mem_unseen {known xs : List α} {y : α} :
    y ∈ unseen known xs ↔ y ∈ xs ∧ y ∉ known := by
  induction xs generalizing known with
  | nil => simp [unseen]
  | cons x rest ih =>
    unfold unseen
    split
    next hx =>
      rw [ih]
      constructor
      · rintro ⟨hy, hk⟩
        exact ⟨List.mem_cons_of_mem _ hy, hk⟩
      · rintro ⟨hy, hk⟩
        rcases List.mem_cons.mp hy with rfl | hy
        · exact absurd hx hk
        · exact ⟨hy, hk⟩
    next hx =>
      by_cases hyx : y = x
      · subst hyx
        simpa using hx
      · simp [ih, hyx]

theorem nodup_unseen (known xs : List α) : (unseen known xs).Nodup := by
  induction xs generalizing known with
  | nil => simp [unseen]
  | cons x rest ih =>
    unfold unseen
    split
    · exact ih known
    · refine List.nodup_cons.mpr ⟨?_, ih _⟩
      simp [mem_unseen]

/-! ## What a search keeps -/

variable {next : α → List α} {s : Search α} {x : α} {rest : List α}

theorem found_step (h : s.waiting = x :: rest) :
    (s.step next).found = s.found ++ unseen s.found (next x) := by
  simp [step, found, h]

theorem nodup_found_step (h : s.found.Nodup) : (s.step next).found.Nodup := by
  cases hw : s.waiting with
  | nil => simpa [step, hw] using h
  | cons x rest =>
    rw [found_step hw, List.nodup_append]
    refine ⟨h, nodup_unseen _ _, ?_⟩
    rintro y hy z hz rfl
    exact (mem_unseen.mp hz).2 hy

/-- No item is found twice. -/
theorem nodup_found_run (fuel : Nat) (h : s.found.Nodup) : (s.run next fuel).found.Nodup := by
  induction fuel generalizing s with
  | zero => exact h
  | succ fuel ih =>
    unfold run
    split
    · exact h
    · exact ih (nodup_found_step h)

theorem nodup_reach (bound : Nat) (xs : List α) : (reach next bound xs).Nodup :=
  nodup_found_run bound (nodup_unseen [] xs)

end Search

end FiniteState
