/-! # Ordered sets

A finite set is kept as the strictly ascending list of its members, so every set has one
representation: two sets with the same members are equal, and iteration is always ascending.
The main statements describe membership after each operation.
-/

namespace FiniteState

/-- A finite set, listed in strictly ascending order. -/
structure OrderedSet (α : Type) [LT α] where
  toList : List α
  ascending : toList.Pairwise (· < ·)

namespace OrderedSet

variable {α : Type} [LT α]

instance [DecidableEq α] : DecidableEq (OrderedSet α) := fun s t =>
  if h : s.toList = t.toList then
    isTrue (by cases s; cases t; cases h; rfl)
  else
    isFalse fun e => h (congrArg toList e)

def empty : OrderedSet α := ⟨[], .nil⟩

instance : EmptyCollection (OrderedSet α) := ⟨empty⟩

instance : Inhabited (OrderedSet α) := ⟨∅⟩

instance : Membership α (OrderedSet α) := ⟨fun s a => a ∈ s.toList⟩

instance [DecidableEq α] (a : α) (s : OrderedSet α) : Decidable (a ∈ s) :=
  inferInstanceAs (Decidable (a ∈ s.toList))

def size (s : OrderedSet α) : Nat := s.toList.length

def isEmpty (s : OrderedSet α) : Bool := s.toList.isEmpty

def filter (keep : α → Bool) (s : OrderedSet α) : OrderedSet α :=
  ⟨s.toList.filter keep, s.ascending.sublist List.filter_sublist⟩

section Insertion

variable [DecidableLT α]

/-- Puts `a` in front of the first greater entry, unless it is there already. -/
def insertSorted (a : α) : List α → List α
  | [] => [a]
  | b :: rest =>
    if a < b then a :: b :: rest
    else if b < a then b :: insertSorted a rest
    else b :: rest

theorem eq_or_mem_of_mem_insertSorted {a x : α} {xs : List α} (h : x ∈ insertSorted a xs) :
    x = a ∨ x ∈ xs := by
  induction xs with
  | nil => simpa [insertSorted] using h
  | cons b rest ih =>
    unfold insertSorted at h
    split at h
    · simpa using h
    · split at h
      · rcases List.mem_cons.mp h with rfl | h
        · simp
        · rcases ih h with rfl | h <;> simp [*]
      · exact .inr h

variable [Trans (α := α) (β := α) (γ := α) (· < ·) (· < ·) (· < ·)]

theorem pairwise_insertSorted {a : α} {xs : List α} (h : xs.Pairwise (· < ·)) :
    (insertSorted a xs).Pairwise (· < ·) := by
  induction xs with
  | nil => simp [insertSorted]
  | cons b rest ih =>
    obtain ⟨hb, hrest⟩ := List.pairwise_cons.mp h
    unfold insertSorted
    split
    next hab =>
      refine List.pairwise_cons.mpr ⟨?_, h⟩
      intro x hx
      rcases List.mem_cons.mp hx with rfl | hx
      · exact hab
      · exact Trans.trans hab (hb x hx)
    next =>
      split
      next hba =>
        refine List.pairwise_cons.mpr ⟨?_, ih hrest⟩
        intro x hx
        rcases eq_or_mem_of_mem_insertSorted hx with rfl | hx
        · exact hba
        · exact hb x hx
      next => exact h

def insert (a : α) (s : OrderedSet α) : OrderedSet α :=
  ⟨insertSorted a s.toList, pairwise_insertSorted s.ascending⟩

/-- The set of the entries of a list. -/
def ofList (xs : List α) : OrderedSet α := xs.foldl (fun s a => s.insert a) ∅

/-- The members of either set. -/
def union (s t : OrderedSet α) : OrderedSet α := t.toList.foldl (fun s a => s.insert a) s

instance : Union (OrderedSet α) := ⟨union⟩

/-- The union of the sets that a function gives for the members. -/
def biUnion {β : Type} [LT β] (s : OrderedSet β) (f : β → OrderedSet α) : OrderedSet α :=
  s.toList.foldl (fun union b => union ∪ f b) ∅

end Insertion

/-! ## Membership -/

@[simp] theorem mem_toList {a : α} {s : OrderedSet α} : a ∈ s.toList ↔ a ∈ s := .rfl

@[simp] theorem not_mem_empty {a : α} : a ∉ (∅ : OrderedSet α) := List.not_mem_nil

theorem isEmpty_iff {s : OrderedSet α} : s.isEmpty = true ↔ s = ∅ := by
  cases s with
  | mk xs hxs =>
    constructor
    · intro h
      have : xs = [] := List.isEmpty_iff.mp h
      subst this
      rfl
    · intro h
      exact List.isEmpty_iff.mpr (congrArg toList h)

theorem exists_mem_of_ne_empty {s : OrderedSet α} (h : s ≠ ∅) : ∃ a, a ∈ s := by
  apply List.exists_mem_of_ne_nil s.toList
  intro hnil
  exact h (isEmpty_iff.mp (List.isEmpty_iff.mpr hnil))

theorem ne_empty_of_mem {a : α} {s : OrderedSet α} (h : a ∈ s) : s ≠ ∅ := by
  rintro rfl
  exact not_mem_empty h

@[simp] theorem mem_filter {a : α} {keep : α → Bool} {s : OrderedSet α} :
    a ∈ s.filter keep ↔ a ∈ s ∧ keep a = true := List.mem_filter

section Membership

variable [DecidableLT α] [Std.Trichotomous (α := α) (· < ·)]

theorem mem_insertSorted {a x : α} {xs : List α} :
    x ∈ insertSorted a xs ↔ x = a ∨ x ∈ xs := by
  refine ⟨eq_or_mem_of_mem_insertSorted, ?_⟩
  induction xs with
  | nil => simp [insertSorted]
  | cons b rest ih =>
    intro h
    unfold insertSorted
    split
    · simpa using h
    · split
      · rcases h with rfl | h
        · exact List.mem_cons_of_mem _ (ih (.inl rfl))
        · rcases List.mem_cons.mp h with rfl | h
          · simp
          · exact List.mem_cons_of_mem _ (ih (.inr h))
      next hab hba =>
        rcases h with rfl | h
        · simp [Std.Trichotomous.trichotomous x b hab hba]
        · exact h

variable [Trans (α := α) (β := α) (γ := α) (· < ·) (· < ·) (· < ·)]

@[simp] theorem mem_insert {a x : α} {s : OrderedSet α} :
    x ∈ s.insert a ↔ x = a ∨ x ∈ s := mem_insertSorted

theorem mem_foldl_insert {x : α} {xs : List α} {s : OrderedSet α} :
    x ∈ xs.foldl (fun s a => s.insert a) s ↔ x ∈ xs ∨ x ∈ s := by
  induction xs generalizing s with
  | nil => simp
  | cons a rest ih => simp [ih, or_assoc, or_left_comm]

@[simp] theorem mem_ofList {x : α} {xs : List α} : x ∈ ofList xs ↔ x ∈ xs := by
  simp [ofList, mem_foldl_insert]

@[simp] theorem mem_union {x : α} {s t : OrderedSet α} : x ∈ s ∪ t ↔ x ∈ s ∨ x ∈ t := by
  rw [or_comm]
  exact mem_foldl_insert

theorem mem_foldl_union {β : Type} {x : α} {f : β → OrderedSet α} {bs : List β}
    {s : OrderedSet α} :
    x ∈ bs.foldl (fun union b => union ∪ f b) s ↔ x ∈ s ∨ ∃ b ∈ bs, x ∈ f b := by
  induction bs generalizing s with
  | nil => simp
  | cons b rest ih => simp [ih, or_assoc]

@[simp] theorem mem_biUnion {β : Type} [LT β] {x : α} {s : OrderedSet β}
    {f : β → OrderedSet α} : x ∈ s.biUnion f ↔ ∃ b ∈ s, x ∈ f b := by
  simp [biUnion, mem_foldl_union]

end Membership

end OrderedSet

end FiniteState
