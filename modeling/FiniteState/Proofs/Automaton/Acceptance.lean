import FiniteState.Acceptance
import FiniteState.Proofs.Automaton.Path
import FiniteState.Proofs.Automaton.WellFormed
import FiniteState.Proofs.Search

/-! # Acceptance by paths

A well-formed automaton accepts exactly the words that some path spells which leads from the
start to an accepting state.
-/

namespace FiniteState.Automaton

variable {a : Automaton} {q t : StateId} {qs : List StateId} {c : Char} {w : List Char}

namespace WellFormed

theorem target_mem_of_targets (ha : a.WellFormed) {label : Label} (ht : t ∈ a.targets q label) :
    t ∈ a :=
  (ha.edges_fit _ ((mem_targets a).mp ht)).target_mem

theorem mem_silentReach_iff (ha : a.WellFormed) (hqs : ∀ q ∈ qs, q ∈ a) :
    t ∈ a.silentReach qs ↔ ∃ q ∈ qs, Path a.edgeSet q [] t := by
  have hbound : a.ids.length ≤ a.size + 1 := by
    rw [length_ids]
    exact Nat.le_succ _
  rw [silentReach, Search.mem_reach_iff (fun q hq => hqs q hq)
    (fun q _ t ht => ha.target_mem_of_targets ht) hbound]
  simp only [Path.nil_iff, mem_targets, mem_edgeSet]

theorem mem_of_path (ha : a.WellFormed) (hp : Path a.edgeSet q w t) (hq : q ∈ a) : t ∈ a :=
  hp.preserves (P := fun x => x ∈ a) (fun e he _ => (ha.edges_fit e he).target_mem) hq

/-- The states reached position by position are those at the ends of the paths that spell the
characters consumed. -/
theorem mem_foldl_advance_iff (ha : a.WellFormed) (hqs : ∀ q ∈ qs, q ∈ a) :
    t ∈ w.foldl a.advance (a.silentReach qs) ↔ ∃ q ∈ qs, Path a.edgeSet q w t := by
  induction w generalizing qs with
  | nil => exact ha.mem_silentReach_iff hqs
  | cons c w ih =>
    rw [List.foldl_cons, advance, ih]
    · -- The path splits at the edge that consumes the first character.
      simp only [List.mem_flatMap, mem_targets, ha.mem_silentReach_iff hqs, Path.cons_iff]
      constructor
      · intro h
        obtain ⟨s, ⟨r, ⟨q, hq, hr⟩, hrs⟩, hs⟩ := h
        exact ⟨q, hq, r, s, hr, hrs, hs⟩
      · intro h
        obtain ⟨q, hq, r, s, hr, hrs, hs⟩ := h
        exact ⟨s, ⟨r, ⟨q, hq, hr⟩, hrs⟩, hs⟩
    · intro s hs
      obtain ⟨r, _, hrs⟩ := List.mem_flatMap.mp hs
      exact ha.target_mem_of_targets hrs

end WellFormed

/-- The visits that consume the whole word are those to the states reached last. -/
theorem mem_visitsFrom_iff (consumed : Nat) :
    ⟨consumed + w.length, t⟩ ∈ a.visitsFrom consumed qs w ↔ t ∈ w.foldl a.advance qs := by
  induction w generalizing consumed qs with
  | nil => simp [visitsFrom]
  | cons c w ih =>
    have hne : consumed ≠ consumed + (w.length + 1) := by omega
    have hsum : consumed + (w.length + 1) = consumed + 1 + w.length := by omega
    simp only [visitsFrom, List.mem_append, List.mem_map, List.length_cons, List.foldl_cons,
      Configuration.mk.injEq, hne, false_and, and_false, exists_false, false_or]
    rw [hsum]
    exact ih (consumed + 1)

theorem accepts_iff_exists_visit :
    a.accepts w = true ↔ ∃ t ∈ w.foldl a.advance a.initialStates, a.isAccepting t = true := by
  have hvisit (t : StateId) :
      ⟨w.length, t⟩ ∈ a.visits w ↔ t ∈ w.foldl a.advance a.initialStates := by
    simpa [visits] using mem_visitsFrom_iff 0
  simp only [accepts, List.any_eq_true, isFinal, Bool.and_eq_true, decide_eq_true_eq]
  constructor
  · intro h
    obtain ⟨⟨n, t⟩, hmem, rfl, ht⟩ := h
    exact ⟨t, (hvisit t).mp hmem, ht⟩
  · intro h
    obtain ⟨t, hmem, ht⟩ := h
    exact ⟨⟨w.length, t⟩, (hvisit t).mpr hmem, rfl, ht⟩

/-- A word is accepted if some path from the start spells it and ends in an accepting state. -/
theorem WellFormed.accepts_iff_path (ha : a.WellFormed) :
    a.accepts w = true ↔
      ∃ q ∈ a.start, ∃ t, Path a.edgeSet q w t ∧ a.isAccepting t = true := by
  have hstart : ∀ q ∈ a.start.toList, q ∈ a := fun q hq => ha.start_mem q (by simpa using hq)
  simp only [accepts_iff_exists_visit, initialStates, ha.mem_foldl_advance_iff hstart,
    Option.mem_toList, Option.mem_def]
  constructor
  · intro h
    obtain ⟨t, ⟨q, hq, hp⟩, ht⟩ := h
    exact ⟨q, hq, t, hp, ht⟩
  · intro h
    obtain ⟨q, hq, t, hp, ht⟩ := h
    exact ⟨t, ⟨q, hq, hp⟩, ht⟩

end FiniteState.Automaton
