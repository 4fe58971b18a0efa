import FiniteState.Proofs.Automaton.Walk
import Mathlib.Data.Set.Card

/-! # Residual languages

The residual of a word is the set of the words with which it makes up an accepted one. In a
total deterministic automaton a word leads to a state from which exactly the words of its
residual are accepted. Such an automaton therefore has no fewer states than residuals, and no more
reachable ones if all its states differ in what they accept.
-/

namespace FiniteState.Automaton

variable {a b : Automaton} {q t : StateId} {w : List Char}

/-- The words over the alphabet. -/
def words (a : Automaton) : Set (List Char) := {w | ∀ c ∈ w, c ∈ a.alphabet}

/-- The words over the alphabet that lead from a state to an accepting one. -/
def languageFrom (a : Automaton) (q : StateId) : Set (List Char) :=
  {w ∈ a.words | a.AcceptsFrom q w}

/-- The words over the alphabet with which a word makes up an accepted one. -/
def residual (a : Automaton) (w : List Char) : Set (List Char) :=
  {v ∈ a.words | a.accepts (w ++ v) = true}

/-- The residuals of the words over the alphabet. -/
def residuals (a : Automaton) : Set (Set (List Char)) := a.residual '' a.words

/-- The states to which words lead from the start. -/
def reachable (a : Automaton) : Set StateId := {t | ∃ q ∈ a.start, ∃ w, Path a.edgeSet q w t}

/-- The states to which paths that spell a word lead from the start. -/
def reachedBy (a : Automaton) (w : List Char) : Set StateId :=
  {t | ∃ q ∈ a.start, Path a.edgeSet q w t}

theorem residuals_congr (halphabet : a.alphabet = b.alphabet)
    (haccepts : ∀ w, a.accepts w = b.accepts w) : a.residuals = b.residuals := by
  have hwords : a.words = b.words := by simp only [words, halphabet]
  have hresidual : a.residual = b.residual := by
    funext w
    simp only [residual, hwords, haccepts]
  rw [residuals, residuals, hwords, hresidual]

theorem finite_mem (a : Automaton) : {q | q ∈ a}.Finite := a.ids.finite_toSet

namespace WellFormed

variable (ha : a.WellFormed)

include ha

theorem ncard_mem : {q | q ∈ a}.ncard = a.size := by
  have hmem : {q | q ∈ a} = (a.ids.toFinset : Set StateId) := by
    ext q
    simp [Membership.mem]
  rw [hmem, Set.ncard_coe_finset, List.toFinset_card_of_nodup ha.nodup_ids, length_ids]

theorem mem_of_mem_reachedBy (h : t ∈ a.reachedBy w) : t ∈ a := by
  obtain ⟨q, hq, hp⟩ := h
  exact ha.mem_of_path hp (ha.start_mem q hq)

theorem reachable_subset : a.reachable ⊆ {q | q ∈ a} := by
  rintro t ⟨q, hq, w, hp⟩
  exact ha.mem_of_mem_reachedBy ⟨q, hq, hp⟩

/-- The search along edges stays among the known states. -/
theorem neighbours_universe : a.start.toList ⊆ a.ids ∧
    (∀ q ∈ a.ids, a.neighbours q ⊆ a.ids) ∧ a.ids.length ≤ a.size := by
  refine ⟨fun q hq => ha.start_mem q (Option.mem_toList.mp hq), ?_, a.length_ids.le⟩
  intro q _ t ht
  obtain ⟨label, he⟩ := a.mem_neighbours.mp ht
  exact (ha.edges_fit _ he).target_mem

/-- The search along edges finds the reachable states. -/
theorem mem_reachableIds_iff : t ∈ a.reachableIds ↔ t ∈ a.reachable := by
  obtain ⟨hstart, hclosed, hbound⟩ := ha.neighbours_universe
  rw [reachableIds, Search.mem_reach_iff hstart hclosed hbound]
  simp only [mem_neighbours, ← mem_edgeSet, Option.mem_toList, ← Path.exists_word_iff]
  rfl

/-- Paths spell words over the alphabet. -/
theorem mem_words_of_path (hp : Path a.edgeSet q w t) : w ∈ a.words := by
  induction hp with
  | refl => exact List.forall_mem_nil _
  | silent _ _ ih => exact ih
  | consume he _ ih => exact List.forall_mem_cons.mpr ⟨(ha.edges_fit _ he).allowed, ih⟩

theorem mem_words_of_walk (h : a.walk q w = some t) : w ∈ a.words := by
  induction w generalizing q with
  | nil => exact fun c hc => absurd hc List.not_mem_nil
  | cons c w ih =>
    obtain ⟨r, hr, hw⟩ := walk_cons_eq_some_iff.mp h
    exact List.forall_mem_cons.mpr ⟨(mem_of_successor? ha hr).1, ih hw⟩

end WellFormed

/-! ## Total deterministic automata -/

/-- In a deterministic automaton a word leads to one state at most. -/
theorem Deterministic.mem_reachedBy_iff (hdet : a.Deterministic) (ht : t ∈ a.reachedBy w) :
    q ∈ a.reachedBy w ↔ q = t := by
  constructor
  · intro hq
    obtain ⟨p, hp, hpt⟩ := ht
    obtain ⟨r, hr, hrq⟩ := hq
    cases hp.symm.trans hr
    exact Option.some.inj ((hdet.path_iff_walk.mp hrq).symm.trans (hdet.path_iff_walk.mp hpt))
  · rintro rfl
    exact ht

section Deterministic

variable (ha : a.WellFormed) (hdet : a.Deterministic) (hstart : a.start = some q)

include ha hdet hstart

/-- The residual of a word is what is accepted from the state that it leads to. -/
theorem residual_eq_languageFrom (h : a.walk q w = some t) : a.residual w = a.languageFrom t := by
  ext v
  refine and_congr_right fun _ => ?_
  rw [ha.accepts_iff_walk hdet, hstart]
  simp only [Option.mem_some_iff, exists_eq_left', AcceptsFrom, walk_append, h]
  rfl

variable (htotal : a.Total)

include htotal

theorem residuals_eq_image : a.residuals = a.languageFrom '' a.reachable := by
  ext L
  constructor
  · rintro ⟨w, hw, rfl⟩
    obtain ⟨t, ht⟩ := htotal.exists_walk ha (ha.start_mem q hstart) hw
    refine ⟨t, ⟨q, hstart, w, hdet.path_iff_walk.mpr ht⟩, ?_⟩
    exact (residual_eq_languageFrom ha hdet hstart ht).symm
  · rintro ⟨t, ⟨q', hq', w, hp⟩, rfl⟩
    cases hstart.symm.trans hq'
    have ht := hdet.path_iff_walk.mp hp
    exact ⟨w, ha.mem_words_of_walk ht, residual_eq_languageFrom ha hdet hstart ht⟩

theorem finite_residuals : a.residuals.Finite := by
  rw [residuals_eq_image ha hdet hstart htotal]
  exact (a.finite_mem.subset ha.reachable_subset).image _

/-- There are at least as many states as residuals. -/
theorem ncard_residuals_le : a.residuals.ncard ≤ a.size := by
  rw [residuals_eq_image ha hdet hstart htotal, ← ha.ncard_mem]
  calc (a.languageFrom '' a.reachable).ncard
      ≤ a.reachable.ncard := Set.ncard_image_le (a.finite_mem.subset ha.reachable_subset)
    _ ≤ {q | q ∈ a}.ncard := Set.ncard_le_ncard ha.reachable_subset a.finite_mem

/-- If no two states accept the same words, reachable states and residuals are equally many. -/
theorem ncard_reachable (hinj : Set.InjOn a.languageFrom {q | q ∈ a}) :
    a.reachable.ncard = a.residuals.ncard := by
  rw [residuals_eq_image ha hdet hstart htotal]
  exact (hinj.mono ha.reachable_subset).ncard_image.symm

end Deterministic

end FiniteState.Automaton
