import FiniteState.Proofs.Partition.Limit
import FiniteState.Proofs.Partition.Scan

/-! # Sub-classes

A round of refinement puts a run of sub-classes in the place of every class, whatever the automaton
and the partition are: classes may hold unknown states, hold a state more than once or share one,
and a state stands for the last class that holds it. Where classes are told apart by their members,
as in all partitions that minimizing gives, this is also the first class that holds it.
-/

namespace FiniteState.Partition

variable {a : Automaton} {p : Partition} {q r : StateId} {i : Nat}

/-! ## Last classes -/

/-- The class with this number holds the state, and no later one does. -/
def IsLastClass (p : Partition) (q : StateId) (i : Nat) : Prop :=
  (∃ b, p.blocks[i]? = some b ∧ q ∈ b) ∧ ∀ j b, p.blocks[j]? = some b → q ∈ b → j ≤ i

theorem IsLastClass.unique {j : Nat} (hi : p.IsLastClass q i) (hj : p.IsLastClass q j) :
    i = j := by
  obtain ⟨⟨b, hb, hqb⟩, hilast⟩ := hi
  obtain ⟨⟨c, hc, hqc⟩, hjlast⟩ := hj
  exact Nat.le_antisymm (hjlast i b hb hqb) (hilast j c hc hqc)

theorem isLastClass_of_lastClass? (h : p.lastClass? q = some i) : p.IsLastClass q i := by
  refine ⟨mem_of_lastClass? h, ?_⟩
  intro j b hb hq
  obtain ⟨last, hlast, rfl⟩ := Option.map_eq_some_iff.mp h
  obtain ⟨earlier, hearlier⟩ := List.getLast?_eq_some_iff.mp hlast
  -- The numbers of the classes that hold the state ascend, and `j` is one of them.
  have hmem : (b, j) ∈ earlier ++ [last] := by
    rw [← hearlier]
    exact List.mem_filter.mpr ⟨List.mk_mem_zipIdx_iff_getElem?.mpr hb, by simpa using hq⟩
  have hascending : (earlier ++ [last]).Pairwise fun x y => x.2 < y.2 := by
    rw [← hearlier]
    refine List.Pairwise.sublist List.filter_sublist (List.pairwise_map.mp ?_)
    rw [List.zipIdx_map_snd]
    exact List.pairwise_lt_range'
  rcases List.mem_append.mp hmem with hbefore | hlast
  · exact ((List.pairwise_append.mp hascending).2.2 _ hbefore _ List.mem_cons_self).le
  · rw [← List.mem_singleton.mp hlast]

theorem lastClass?_eq_some_iff_isLastClass : p.lastClass? q = some i ↔ p.IsLastClass q i := by
  refine ⟨isLastClass_of_lastClass?, ?_⟩
  intro hi
  obtain ⟨b, hb, hq⟩ := hi.1
  obtain ⟨j, hj⟩ := exists_lastClass? (mem_entries_iff.mpr ⟨b, List.mem_of_getElem? hb, hq⟩)
  rw [hj, hi.unique (isLastClass_of_lastClass? hj)]

theorem firstClass?_eq_lastClass? (hp : p.entries.Nodup) (q : StateId) :
    p.firstClass? q = p.lastClass? q := by
  cases hlast : p.lastClass? q with
  | none =>
    rw [firstClass?, List.findIdx?_eq_none_iff]
    intro b hb
    rw [decide_eq_false_iff_not]
    exact fun hq => lastClass?_eq_none_iff.mp hlast (mem_entries_iff.mpr ⟨b, hb, hq⟩)
  | some i =>
    obtain ⟨b, hb, hq⟩ := mem_of_lastClass? hlast
    obtain ⟨hi, rfl⟩ := List.getElem?_eq_some_iff.mp hb
    refine List.findIdx?_eq_some_iff_getElem.mpr ⟨hi, decide_eq_true hq, ?_⟩
    intro j hji hj
    have hjb : p.blocks[j]? = some p.blocks[j] := List.getElem?_eq_getElem (hji.trans hi)
    exact hji.ne (class_unique hp hjb hb (of_decide_eq_true hj) hq)

/-! ## One round -/

/-- Every symbol leads from each of the two states to exactly one state, and the last class that
holds the one is the last class that holds the other. -/
def LeadsAlike (a : Automaton) (p : Partition) (q r : StateId) : Prop :=
  ∀ c ∈ a.alphabet, ∃ s t i, a.targets q (.symbol c) = [s] ∧ a.targets r (.symbol c) = [t] ∧
    p.IsLastClass s i ∧ p.IsLastClass t i

theorem moveAlike_iff_leadsAlike : p.MoveAlike a q r ↔ p.LeadsAlike a q r := by
  rw [moveAlike_iff_lastClass?]
  apply forall₂_congr
  intro c _
  simp only [Option.bind_eq_bind, Option.bind_eq_some_iff, Automaton.successor?_eq_some_iff_targets,
    lastClass?_eq_some_iff_isLastClass]
  constructor
  · rintro ⟨i, ⟨s, hs, hsi⟩, t, ht, hti⟩
    exact ⟨s, t, i, hs, ht, hsi, hti⟩
  · rintro ⟨s, t, i, hs, ht, hsi, hti⟩
    exact ⟨i, ⟨s, hs, hsi⟩, t, ht, hti⟩

/-- The sub-classes that a round puts in the place of a class. -/
def subclasses (a : Automaton) (p : Partition) (b : Block) : List Block :=
  group (fun q r => p.MoveAlike a q r) b.toList

theorem blocks_refine (a : Automaton) (p : Partition) :
    (p.refine a).blocks = p.blocks.flatMap (p.subclasses a) := rfl

theorem decide_moveAlike_symm (a : Automaton) (p : Partition) (q r : StateId)
    (h : decide (p.MoveAlike a q r) = true) : decide (p.MoveAlike a r q) = true :=
  decide_eq_true (of_decide_eq_true h).symm

theorem decide_moveAlike_trans (a : Automaton) (p : Partition) (q r s : StateId)
    (hqr : decide (p.MoveAlike a q r) = true) (hrs : decide (p.MoveAlike a r s) = true) :
    decide (p.MoveAlike a q s) = true :=
  decide_eq_true ((of_decide_eq_true hqr).trans (of_decide_eq_true hrs))

/-- Entries at different positions of a class stay together exactly if they lead alike. -/
theorem exists_places_subclasses (a : Automaton) (p : Partition) (b : Block) :
    ∃ places, Places (p.LeadsAlike a) b.toList places ∧
      (p.subclasses a b).map (fun s => s.toList.map some) =
        places.map fun is => is.map (b.toList[·]?) := by
  have halike : (fun q r => decide (p.MoveAlike a q r) = true) = p.LeadsAlike a := by
    funext q r
    rw [decide_eq_true_eq, moveAlike_iff_leadsAlike]
  obtain ⟨places, hplaces, hentries⟩ :=
    exists_places (decide_moveAlike_symm a p) (decide_moveAlike_trans a p) b.toList
  rw [halike] at hplaces
  exact ⟨places, hplaces, hentries⟩

theorem members_subclasses_perm (a : Automaton) (p : Partition) {b c : Block}
    (h : b.toList.Perm c.toList) :
    ((p.subclasses a b).map Block.members).Perm ((p.subclasses a c).map Block.members) :=
  members_group_perm (decide_moveAlike_symm a p) (decide_moveAlike_trans a p) h

/-! ## What minimizing gives -/

theorem eq_iterate_of_minimize {limit : Option Nat} (h : minimize a limit = .ok p) :
    p = (refine a)^[limit.getD a.size] (byAcceptance a) := by
  unfold minimize at h
  split at h
  next => cases h
  next =>
    cases h
    exact refineRounds_eq_iterate _ _

/-- A round puts a run of sub-classes in the place of every class, also in a partition written by
hand: they hold the entries of the class in their order, and come in the order of their first
entries. Entries at different positions stay together exactly if they lead alike, in whichever order
they are scanned, and a round that adds no class changes nothing. So minimizing gives classes that
hold every state once, never an accepting and a rejecting one together, and the first class that
holds a state is the last one. -/
theorem refine_subclasses (a : Automaton) :
    (∀ p : Partition,
      (p.refine a).blocks = p.blocks.flatMap (p.subclasses a) ∧
      (∀ b : Block, ∃ places, Places (p.LeadsAlike a) b.toList places ∧
        (p.subclasses a b).map (fun s => s.toList.map some) =
          places.map fun is => is.map (b.toList[·]?)) ∧
      (∀ b c : Block, b.toList.Perm c.toList →
        ((p.subclasses a b).map Block.members).Perm ((p.subclasses a c).map Block.members)) ∧
      p.size ≤ (p.refine a).size ∧ ((p.refine a).size = p.size → p.refine a = p)) ∧
    (a.Built → ∀ (limit : Option Nat) (p : Partition), minimize a limit = .ok p →
      p.entries.Perm a.ids ∧ p.entries.Nodup ∧
      (∀ b ∈ p.blocks, ∀ q ∈ b, ∀ r ∈ b, a.isAccepting q = a.isAccepting r) ∧
      ∀ q, p.firstClass? q = p.lastClass? q) := by
  constructor
  · intro p
    exact ⟨blocks_refine a p, exists_places_subclasses a p,
      fun b c => members_subclasses_perm a p, size_le_size_refine p, refine_eq_of_size⟩
  · intro ha limit p hmin
    rw [eq_iterate_of_minimize hmin]
    have hcovers := covers_iterate a (limit.getD a.size)
    have hnodup := hcovers.nodup ha.wellFormed
    refine ⟨hcovers, hnodup, ?_, firstClass?_eq_lastClass? hnodup⟩
    intro b hb q hq r hr
    exact isAccepting_eq_of_sameClass_iterate ha.wellFormed ⟨b, hb, hq, hr⟩

/-- Two states with the same successor, which has two successors itself. -/
def loose : Automaton := .ofEdits (.ofSymbols ['a'])
  [.addState "p" false, .addState "q" false, .addState "r" true, .addEdge 0 (.symbol 'a') 2,
    .addEdge 1 (.symbol 'a') 2, .addEdge 2 (.symbol 'a') 0, .addEdge 2 (.symbol 'a') 1]

/-- Repeated entries stay together if they have a unique successor, and unknown ones do not. -/
theorem refine_subclasses_loose :
    loose.isDeterministic = false ∧
      ((⟨[⟨0, [9, 1, 0]⟩, ⟨2, [2]⟩]⟩ : Partition).refine loose).toLists =
        [[0, 1, 0], [9], [2], [2]] ∧
      (∃ places, Places (Partition.LeadsAlike loose ⟨[⟨0, [9, 1, 0]⟩, ⟨2, [2]⟩]⟩) [0, 9, 1, 0]
          places ∧ ∃ is ∈ places, 0 ∈ is ∧ 3 ∈ is) ∧
      ∃ p, minimize row none = .ok p ∧ p.entries.Perm row.ids ∧
        p.firstClass? 2 = p.lastClass? 2 := by
  obtain ⟨_, hplaces, _⟩ := (refine_subclasses loose).1 ⟨[⟨0, [9, 1, 0]⟩, ⟨2, [2]⟩]⟩
  obtain ⟨places, hplaces, _⟩ := hplaces ⟨0, [9, 1, 0]⟩
  refine ⟨by decide, by decide, ⟨places, hplaces, ?_⟩, ?_⟩
  · -- The entries at the first and the last position are the same state, which leads to one state.
    have halike : Partition.LeadsAlike loose ⟨[⟨0, [9, 1, 0]⟩, ⟨2, [2]⟩]⟩ 0 0 :=
      moveAlike_iff_leadsAlike.mp (by decide)
    exact (hplaces.together_iff 0 3 0 0 rfl rfl (by decide)).mpr halike
  · have hmin : minimize row none = .ok ⟨[⟨0, []⟩, ⟨1, []⟩, ⟨2, []⟩, ⟨3, []⟩]⟩ := by decide
    obtain ⟨hperm, _, _, hclass⟩ :=
      (refine_subclasses row).2 (Automaton.built_ofEdits _ _) none _ hmin
    exact ⟨_, hmin, hperm, hclass 2⟩

end FiniteState.Partition
