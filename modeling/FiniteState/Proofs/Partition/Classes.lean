import FiniteState.Partition.Basic
import FiniteState.Proofs.Automaton.WellFormed

/-! # Classes of a partition

A partition covers an automaton if its classes hold every state exactly once and nothing else.
Then the number of the last class that holds a state is the number of its only class, and it
tells the classes apart.
-/

namespace FiniteState

namespace Partition

variable {a : Automaton} {p : Partition} {q r : StateId} {b : Block} {i j : Nat}

/-- The entries of the classes, one class after the other. -/
def entries (p : Partition) : List StateId := p.blocks.flatMap Block.toList

/-- Whether some class holds both states. -/
def SameClass (p : Partition) (q r : StateId) : Prop := ∃ b ∈ p.blocks, q ∈ b ∧ r ∈ b

/-- The classes hold every state exactly once and nothing else. -/
def Covers (p : Partition) (a : Automaton) : Prop := p.entries.Perm a.ids

instance (p : Partition) (q r : StateId) : Decidable (p.SameClass q r) :=
  inferInstanceAs (Decidable (∃ b ∈ p.blocks, q ∈ b ∧ r ∈ b))

instance (p : Partition) (a : Automaton) : Decidable (p.Covers a) :=
  inferInstanceAs (Decidable (p.entries.Perm a.ids))

theorem mem_entries_iff : q ∈ p.entries ↔ ∃ b ∈ p.blocks, q ∈ b := List.mem_flatMap

theorem sameClass_self_iff : p.SameClass q q ↔ q ∈ p.entries := by
  simp only [SameClass, and_self, mem_entries_iff]

/-! ## Numbers of classes -/

theorem mem_of_lastClass? (h : p.lastClass? q = some i) : ∃ b, p.blocks[i]? = some b ∧ q ∈ b := by
  obtain ⟨⟨b, n⟩, hlast, rfl⟩ := Option.map_eq_some_iff.mp h
  obtain ⟨hmem, hq⟩ := List.mem_filter.mp (List.mem_of_getLast? hlast)
  exact ⟨b, List.mk_mem_zipIdx_iff_getElem?.mp hmem, by simpa using hq⟩

theorem exists_lastClass? (h : q ∈ p.entries) : ∃ i, p.lastClass? q = some i := by
  obtain ⟨b, hb, hq⟩ := mem_entries_iff.mp h
  obtain ⟨i, hi⟩ := List.mem_iff_getElem?.mp hb
  have hmem : (b, i) ∈ p.blocks.zipIdx.filter fun x => q ∈ x.1 :=
    List.mem_filter.mpr ⟨List.mk_mem_zipIdx_iff_getElem?.mpr hi, by simpa using hq⟩
  obtain ⟨x, hx⟩ : ∃ x, (p.blocks.zipIdx.filter fun x => q ∈ x.1).getLast? = some x :=
    ⟨_, List.getLast?_eq_some_getLast (List.ne_nil_of_mem hmem)⟩
  exact ⟨x.2, Option.map_eq_some_iff.mpr ⟨x, hx, rfl⟩⟩

theorem lastClass?_eq_none_iff : p.lastClass? q = none ↔ q ∉ p.entries := by
  constructor
  · intro hnone hq
    obtain ⟨i, hi⟩ := exists_lastClass? hq
    rw [hnone] at hi
    cases hi
  · intro hq
    cases hi : p.lastClass? q with
    | none => rfl
    | some i =>
      obtain ⟨b, hb, hqb⟩ := mem_of_lastClass? hi
      exact absurd (mem_entries_iff.mpr ⟨b, List.mem_of_getElem? hb, hqb⟩) hq

theorem lt_size_of_lastClass? (h : p.lastClass? q = some i) : i < p.size := by
  obtain ⟨b, hb, _⟩ := mem_of_lastClass? h
  exact (List.getElem?_eq_some_iff.mp hb).1

theorem not_isEmpty_of_lt (h : i < p.size) : ¬p.isEmpty = true := by
  intro hempty
  rw [size, List.isEmpty_iff.mp hempty] at h
  exact Nat.not_lt_zero i h

section Nodup

variable (hp : p.entries.Nodup)

include hp

theorem class_unique {c : Block} (hb : p.blocks[i]? = some b) (hc : p.blocks[j]? = some c)
    (hqb : q ∈ b) (hqc : q ∈ c) : i = j := by
  have hdisjoint : p.blocks.Pairwise (fun b c => List.Disjoint b.toList c.toList) :=
    (List.nodup_flatMap.mp hp).2
  obtain ⟨hi, rfl⟩ := List.getElem?_eq_some_iff.mp hb
  obtain ⟨hj, rfl⟩ := List.getElem?_eq_some_iff.mp hc
  rw [List.pairwise_iff_getElem] at hdisjoint
  -- Blocks at different positions share no entry.
  rcases Nat.lt_trichotomy i j with hij | hij | hij
  · exact absurd hqc (hdisjoint i j hi hj hij hqb)
  · exact hij
  · exact absurd hqb (hdisjoint j i hj hi hij hqc)

theorem lastClass?_eq_some_iff : p.lastClass? q = some i ↔ ∃ b, p.blocks[i]? = some b ∧ q ∈ b := by
  refine ⟨mem_of_lastClass?, ?_⟩
  rintro ⟨b, hb, hq⟩
  obtain ⟨j, hj⟩ := exists_lastClass? (mem_entries_iff.mpr ⟨b, List.mem_of_getElem? hb, hq⟩)
  obtain ⟨c, hc, hqc⟩ := mem_of_lastClass? hj
  rw [hj, class_unique hp hb hc hq hqc]

theorem sameClass_iff :
    p.SameClass q r ↔ ∃ i, p.lastClass? q = some i ∧ p.lastClass? r = some i := by
  simp only [lastClass?_eq_some_iff hp]
  constructor
  · intro h
    obtain ⟨b, hb, hq, hr⟩ := h
    obtain ⟨i, hi⟩ := List.mem_iff_getElem?.mp hb
    exact ⟨i, ⟨b, hi, hq⟩, ⟨b, hi, hr⟩⟩
  · intro h
    obtain ⟨i, ⟨b, hb, hq⟩, ⟨c, hc, hr⟩⟩ := h
    rw [hb] at hc
    cases hc
    exact ⟨b, List.mem_of_getElem? hb, hq, hr⟩

theorem SameClass.trans {s : StateId} (hqr : p.SameClass q r) (hrs : p.SameClass r s) :
    p.SameClass q s := by
  obtain ⟨i, hq, hr⟩ := (sameClass_iff hp).mp hqr
  obtain ⟨j, hrj, hs⟩ := (sameClass_iff hp).mp hrs
  cases hr.symm.trans hrj
  exact (sameClass_iff hp).mpr ⟨i, hq, hs⟩

theorem nodup_of_mem_blocks (hb : b ∈ p.blocks) : b.toList.Nodup :=
  (List.nodup_flatMap.mp hp).1 b hb

end Nodup

/-! ## Coverage -/

theorem Covers.mem_iff (hp : p.Covers a) : q ∈ p.entries ↔ q ∈ a :=
  List.Perm.mem_iff hp

theorem Covers.mem_of_sameClass (hp : p.Covers a) (hqr : p.SameClass q r) : q ∈ a ∧ r ∈ a := by
  obtain ⟨b, hb, hq, hr⟩ := hqr
  exact ⟨hp.mem_iff.mp (mem_entries_iff.mpr ⟨b, hb, hq⟩),
    hp.mem_iff.mp (mem_entries_iff.mpr ⟨b, hb, hr⟩)⟩

theorem Covers.nodup (hp : p.Covers a) (ha : a.WellFormed) : p.entries.Nodup :=
  (List.Perm.nodup_iff hp).mpr ha.nodup_ids

/-- Every class is the one of a state. -/
theorem Covers.exists_mem_of_lt (hp : p.Covers a) (ha : a.WellFormed) (hi : i < p.size) :
    ∃ q ∈ a, p.lastClass? q = some i := by
  have hb : p.blocks[i]? = some p.blocks[i] := List.getElem?_eq_getElem hi
  have hmem : p.blocks[i].representative ∈ p.blocks[i] := List.mem_cons_self
  refine ⟨p.blocks[i].representative, ?_, ?_⟩
  · exact hp.mem_iff.mp (mem_entries_iff.mpr ⟨_, List.mem_of_getElem? hb, hmem⟩)
  · exact (lastClass?_eq_some_iff (hp.nodup ha)).mpr ⟨_, hb, hmem⟩

theorem Covers.size_le (hp : p.Covers a) : p.size ≤ a.size := by
  have hlength : p.entries.length = a.size := by
    rw [List.Perm.length_eq hp, Automaton.length_ids]
  rw [← hlength]
  exact length_le_length_flatMap fun b _ => List.cons_ne_nil b.representative b.others

/-! ## The split by acceptance -/

theorem entries_ofLists (classes : List (List StateId)) :
    (ofLists classes).entries = classes.flatten := by
  induction classes with
  | nil => rfl
  | cons c rest ih =>
    cases c with
    | nil => simpa [ofLists, entries, List.filterMap_cons, Block.ofList?] using ih
    | cons q qs =>
      simpa [ofLists, entries, List.filterMap_cons, Block.ofList?, Block.toList] using ih

theorem sameClass_ofLists_iff {classes : List (List StateId)} :
    (ofLists classes).SameClass q r ↔ ∃ c ∈ classes, q ∈ c ∧ r ∈ c := by
  simp only [SameClass, ofLists, List.mem_filterMap]
  constructor
  · intro h
    obtain ⟨b, ⟨c, hc, hb⟩, hq, hr⟩ := h
    cases c with
    | nil => cases hb
    | cons x xs =>
      cases hb
      exact ⟨_, hc, hq, hr⟩
  · intro h
    obtain ⟨c, hc, hq, hr⟩ := h
    cases c with
    | nil => cases hq
    | cons x xs => exact ⟨_, ⟨_, hc, rfl⟩, hq, hr⟩

theorem covers_byAcceptance (a : Automaton) : (byAcceptance a).Covers a := by
  have hperm : (a.states.filter (fun s => !s.accepting) ++ a.states.filter (·.accepting)).Perm
      a.states := by
    simpa using List.filter_append_perm (fun s : State => !s.accepting) a.states
  rw [Covers, byAcceptance, entries_ofLists]
  simpa [Automaton.rejectingIds, Automaton.acceptingIds, Automaton.ids] using hperm.map (·.id)

theorem sameClass_byAcceptance_iff (ha : a.WellFormed) (hq : q ∈ a) (hr : r ∈ a) :
    (byAcceptance a).SameClass q r ↔ a.isAccepting q = a.isAccepting r := by
  rw [byAcceptance, sameClass_ofLists_iff]
  simp only [List.mem_cons, List.not_mem_nil, or_false, exists_eq_or_imp, exists_eq_left,
    ha.mem_rejectingIds_iff, ha.mem_acceptingIds_iff, hq, hr, true_and]
  cases a.isAccepting q <;> cases a.isAccepting r <;> simp

end Partition

end FiniteState
