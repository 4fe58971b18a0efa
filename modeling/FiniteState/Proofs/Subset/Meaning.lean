import FiniteState.Proofs.Subset.Total

/-! # What the states of the subset construction stand for

The states of the deterministic automaton are the non-empty sets of states that words lead to, each
once, and possibly a trap. Every word leads to the state of the set that it leads to, or to the trap
if that set is empty. Every state has exactly one successor for each symbol, whether a trap was
added or not: where no trap is, no word leads to the empty set.
-/

namespace FiniteState

namespace SubsetAutomaton

/-! ## Numbered sets -/

section Numbered

variable {d : SubsetAutomaton} {i : StateId} {s : StateSet}

theorem mem_numberedSubsets_iff : (i, s) ∈ d.numberedSubsets ↔ d.subsets[i]? = some s := by
  simp [numberedSubsets, List.mk_mem_zipIdx_iff_getElem?]

theorem keys_numberedSubsets (d : SubsetAutomaton) :
    d.numberedSubsets.map (·.1) = List.range d.subsetCount := by
  rw [numberedSubsets, List.map_map, List.range_eq_range']
  exact List.zipIdx_map_snd 0 d.subsets

theorem values_numberedSubsets (d : SubsetAutomaton) :
    d.numberedSubsets.map (·.2) = d.subsets := by
  rw [numberedSubsets, List.map_map]
  exact List.zipIdx_map_fst 0 d.subsets

end Numbered

/-- What the states of a deterministic automaton stand for, and how they move. -/
structure TracksSubsets (d : SubsetAutomaton) (nfa : Automaton) : Prop where
  alphabet_eq : d.dfa.alphabet = nfa.alphabet
  /-- Exactly the states other than the trap stand for a set. -/
  exists_subset_iff : ∀ i, (∃ s, (i, s) ∈ d.numberedSubsets) ↔ i ∈ d.dfa ∧ d.trap ≠ some i
  keys_nodup : (d.numberedSubsets.map (·.1)).Nodup
  values_nodup : (d.numberedSubsets.map (·.2)).Nodup
  /-- The sets are the non-empty ones that words over the alphabet lead to. -/
  mem_values_iff : ∀ s, s ∈ d.numberedSubsets.map (·.2) ↔
    s ≠ ∅ ∧ ∃ w ∈ nfa.words, ∀ q, q ∈ s ↔ q ∈ nfa.reachedBy w
  /-- Every state, the trap included, has one successor for each symbol. -/
  targets_eq_singleton : ∀ i ∈ d.dfa, ∀ c ∈ nfa.alphabet, ∃ j, d.dfa.targets i (.symbol c) = [j]
  /-- There are no other edges. -/
  label_eq_symbol : ∀ e ∈ d.dfa.edges, ∃ c ∈ nfa.alphabet, e.label = .symbol c
  /-- A word leads from the start to the state of the set that it leads to, or to the trap. -/
  walk_from_start : ∃ first, d.dfa.start = some first ∧ ∀ w ∈ nfa.words,
    ∃ i, d.dfa.walk first w = some i ∧
      ((∃ s, (i, s) ∈ d.numberedSubsets ∧ ∀ q, q ∈ s ↔ q ∈ nfa.reachedBy w) ∨
        (d.trap = some i ∧ nfa.reachedBy w = ∅))
  isAccepting_iff : ∀ i ∈ d.dfa, d.dfa.isAccepting i = true ↔
    ∃ s, (i, s) ∈ d.numberedSubsets ∧ ∃ q ∈ s, nfa.isAccepting q = true
  isDeterministic_eq : d.dfa.isDeterministic = true
  total : d.dfa.Total

variable {nfa : Automaton} {symbols : List Char} {q r : StateId} {s : StateSet} {i : Nat}
  {w : List Char}

section Started

variable (hn : nfa.WellFormed) (hq : nfa.start = some q)

include hn hq

theorem mem_moveAlong_iff_reachedBy :
    r ∈ ((Closures.ofAutomaton nfa).ofState q).moveAlong nfa w ↔ r ∈ nfa.reachedBy w := by
  simp [StateSet.mem_moveAlong_iff hn (hn.start_mem q hq), Automaton.reachedBy, hq]

theorem mem_of_mem_subsets (hs : s ∈ (inOrder nfa symbols).subsets) : ∀ r ∈ s, r ∈ nfa := by
  obtain ⟨_, w, rfl⟩ := exists_word_of_mem_subsets hn hq hs
  intro r hr
  exact hn.mem_of_mem_reachedBy ((mem_moveAlong_iff_reachedBy hn hq).mp hr)

omit hn in
theorem exists_subset_inOrder_iff :
    (∃ s, (inOrder nfa symbols).subsets[i]? = some s) ↔
      i ∈ (inOrder nfa symbols).dfa ∧ (inOrder nfa symbols).trap ≠ some i := by
  constructor
  · rintro ⟨s, hs⟩
    exact ⟨subset_mem_inOrder hq hs, trap_ne_of_subset hq hs⟩
  · rintro ⟨hi, htrap⟩
    obtain ⟨s, hs | ⟨hi, _⟩⟩ := exists_represents hq hi
    · exact ⟨s, hs⟩
    · exact absurd hi htrap

variable (hsymbols : ∀ c, c ∈ symbols ↔ c ∈ nfa.alphabet)

include hsymbols

/-- The found sets are the non-empty ones that words lead to. -/
theorem mem_subsets_iff : s ∈ (inOrder nfa symbols).subsets ↔
    s ≠ ∅ ∧ ∃ w ∈ nfa.words, ∀ r, r ∈ s ↔ r ∈ nfa.reachedBy w := by
  constructor
  · intro hs
    obtain ⟨hne, w, rfl⟩ := exists_word_of_mem_subsets hn hq hs
    refine ⟨hne, w, ?_, fun r => mem_moveAlong_iff_reachedBy hn hq⟩
    -- Some path spells the word, so its characters are symbols.
    obtain ⟨r, hr⟩ := OrderedSet.exists_mem_of_ne_empty hne
    obtain ⟨_, _, hp⟩ := (mem_moveAlong_iff_reachedBy hn hq).mp hr
    exact hn.mem_words_of_path hp
  · rintro ⟨hne, w, _, hs⟩
    obtain rfl : ((Closures.ofAutomaton nfa).ofState q).moveAlong nfa w = s :=
      OrderedSet.ext fun r => (mem_moveAlong_iff_reachedBy hn hq).trans (hs r).symm
    have hzero : (inOrder nfa symbols).Represents 0 ((Closures.ofAutomaton nfa).ofState q) :=
      represents_zero hq
    obtain ⟨j, hp⟩ := hzero.exists_path hq hn (fun c => (hsymbols c).mpr) hne
    exact List.mem_of_getElem? ((hzero.path hq hn hp).resolve_right fun h => hne h.2)

/-- Words lead to the states of the sets that they lead to, the trap standing for the empty set. -/
theorem exists_walk_inOrder (hw : w ∈ nfa.words) :
    ∃ i, (inOrder nfa symbols).dfa.walk 0 w = some i ∧
      ((∃ s, (inOrder nfa symbols).subsets[i]? = some s ∧ ∀ r, r ∈ s ↔ r ∈ nfa.reachedBy w) ∨
        ((inOrder nfa symbols).trap = some i ∧ nfa.reachedBy w = ∅)) := by
  have hd := wellFormed_inOrder hn fun c => (hsymbols c).mp
  have hdet : (inOrder nfa symbols).dfa.Deterministic := deterministic_inOrder_of_start hq
  have hzero : (inOrder nfa symbols).Represents 0 ((Closures.ofAutomaton nfa).ofState q) :=
    represents_zero hq
  have hw' : ∀ c ∈ w, c ∈ (inOrder nfa symbols).dfa.alphabet := by
    rw [alphabet_inOrder hq]
    exact hw
  obtain ⟨i, hi⟩ :=
    (total_inOrder hn hq hsymbols).exists_walk hd (hzero.mem_inOrder hq) hw'
  refine ⟨i, hi, ?_⟩
  rcases hzero.path hq hn (hdet.path_iff_walk.mpr hi) with hs | ⟨htrap, hempty⟩
  · exact .inl ⟨_, hs, fun r => mem_moveAlong_iff_reachedBy hn hq⟩
  · refine .inr ⟨htrap, Set.eq_empty_of_forall_notMem ?_⟩
    intro r hr
    rw [← mem_moveAlong_iff_reachedBy hn hq, hempty] at hr
    exact OrderedSet.not_mem_empty hr

theorem isAccepting_inOrder_iff (hi : i ∈ (inOrder nfa symbols).dfa) :
    (inOrder nfa symbols).dfa.isAccepting i = true ↔
      ∃ s, (inOrder nfa symbols).subsets[i]? = some s ∧ ∃ r ∈ s, nfa.isAccepting r = true := by
  have hd := wellFormed_inOrder hn fun c => (hsymbols c).mp
  obtain ⟨s, hs⟩ := exists_represents hq hi
  rw [hs.isAccepting_eq hq hd, List.any_eq_true]
  rcases hs with hs | ⟨htrap, rfl⟩
  · simp [hs]
  · refine iff_of_false ?_ ?_
    · rintro ⟨r, hr, _⟩
      exact OrderedSet.not_mem_empty hr
    · rintro ⟨s, hs, _⟩
      exact trap_ne_of_subset hq hs htrap

theorem tracksSubsets_inOrder : (inOrder nfa symbols).TracksSubsets nfa where
  alphabet_eq := alphabet_inOrder hq
  exists_subset_iff i := by
    simp only [mem_numberedSubsets_iff]
    exact exists_subset_inOrder_iff hq
  keys_nodup := by
    rw [keys_numberedSubsets]
    exact List.nodup_range
  values_nodup := by
    rw [values_numberedSubsets]
    exact nodup_subsets hq
  mem_values_iff s := by
    rw [values_numberedSubsets]
    exact mem_subsets_iff hn hq hsymbols
  targets_eq_singleton i hi c hc := by
    rw [← alphabet_inOrder hq] at hc
    obtain ⟨j, hj⟩ := total_inOrder hn hq hsymbols i hi c hc
    exact ⟨j, Automaton.successor?_eq_some_iff_targets.mp hj⟩
  label_eq_symbol e he := by
    obtain ⟨c, hc, hlabel, _⟩ := (mem_edges_inOrder_iff hq).mp he
    exact ⟨c, (hsymbols c).mp hc, hlabel⟩
  walk_from_start := by
    simp only [mem_numberedSubsets_iff]
    exact ⟨0, start_inOrder hq, fun w hw => exists_walk_inOrder hn hq hsymbols hw⟩
  isAccepting_iff i hi := by
    simp only [mem_numberedSubsets_iff]
    exact isAccepting_inOrder_iff hn hq hsymbols hi
  isDeterministic_eq :=
    (wellFormed_inOrder hn fun c => (hsymbols c).mp).isDeterministic_iff.mpr
      (deterministic_inOrder_of_start hq)
  total := total_inOrder hn hq hsymbols

end Started

/-- The states of the subset construction stand for the sets that words lead to. -/
theorem tracksSubsets_ofNfa (hn : nfa.Built) (hstart : nfa.start.isSome = true) :
    (ofNfa nfa).TracksSubsets nfa := by
  obtain ⟨q, hq⟩ := Option.isSome_iff_exists.mp hstart
  exact tracksSubsets_inOrder hn.wellFormed hq fun _ => Alphabet.mem_toList

/-- A state with two edges for one symbol and none for the other. -/
def branching : Automaton := .ofEdits (.ofSymbols ['a', 'b'])
  [.addState "p" false, .addState "q" false, .addState "r" true, .addEdge 0 (.symbol 'a') 0,
    .addEdge 0 (.symbol 'a') 1, .addEdge 1 (.symbol 'b') 2]

theorem tracksSubsets_ofNfa_branching :
    (ofNfa branching).TracksSubsets branching ∧ (ofNfa branching).trap = some 3 ∧
      branching.reachedBy ['b'] = ∅ ∧ branching.reachedBy ['a', 'b'] = {2} := by
  have htracks : (ofNfa branching).TracksSubsets branching :=
    tracksSubsets_ofNfa (Automaton.built_ofEdits _ _) (by decide)
  obtain ⟨first, hfirst, hwalk⟩ := htracks.walk_from_start
  obtain rfl : 0 = first := by
    have hzero : (ofNfa branching).dfa.start = some 0 := by decide
    exact Option.some.inj (hzero.symm.trans hfirst)
  have hb : (ofNfa branching).dfa.walk 0 ['b'] = some 3 := by decide
  have hab : (ofNfa branching).dfa.walk 0 ['a', 'b'] = some 2 := by decide
  have hsymbols (w : List Char) (hw : w ⊆ ['a', 'b']) : w ∈ branching.words := by
    intro c hc
    rcases List.mem_pair.mp (hw hc) with rfl | rfl <;> decide
  refine ⟨htracks, by decide, ?_, ?_⟩
  · obtain ⟨i, hi, ⟨s, hs, _⟩ | ⟨_, hempty⟩⟩ := hwalk ['b'] (hsymbols _ (by simp))
    · cases hb.symm.trans hi
      exact absurd ⟨s, hs⟩ (mt (htracks.exists_subset_iff 3).mp (by decide))
    · exact hempty
  · obtain ⟨i, hi, ⟨s, hs, hmem⟩ | ⟨htrap, _⟩⟩ := hwalk ['a', 'b'] (hsymbols _ (by simp))
    · cases hab.symm.trans hi
      have hvalue : (ofNfa branching).subsets[2]? = some (.ofList [2]) := by decide
      obtain rfl := Option.some.inj (hvalue.symm.trans (mem_numberedSubsets_iff.mp hs))
      ext q
      simp [← hmem q]
    · cases hab.symm.trans hi
      exact absurd htrap (by decide)

end SubsetAutomaton

end FiniteState
