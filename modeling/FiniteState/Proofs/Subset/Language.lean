import FiniteState.Proofs.Automaton.Built

/-! # Language of the subset construction

A run of the deterministic automaton stands for the moves of a set along the word: every edge
leads from the state of a set to the state of its move, and a move that is not empty has an edge.
The construction therefore keeps the language. Characters that the alphabet lacks move every set
to the empty one, so nothing has to be assumed of the word.
-/

namespace FiniteState

namespace SubsetAutomaton

variable {nfa : Automaton} {symbols : List Char} {q : StateId} {s : StateSet} {c : Char}
  {i j : Nat} {w : List Char}

theorem mem_alphabet_of_move (hn : nfa.WellFormed)
    (hne : (Move.of nfa (.ofAutomaton nfa) s c).states ≠ ∅) : c ∈ nfa.alphabet := by
  by_contra hc
  refine hne (OrderedSet.ext fun r => iff_of_false ?_ OrderedSet.not_mem_empty)
  rw [hn.mem_move_iff]
  intro h
  obtain ⟨q, _, _, hp⟩ := h
  obtain ⟨p, t, _, hpt, _⟩ := Path.cons_iff.mp hp
  exact hc (hn.edges_fit _ hpt).allowed

section Started

variable (hq : nfa.start = some q)

include hq

/-- The id of the trap comes after those of the sets. -/
theorem trap_ne_of_subset (hs : (inOrder nfa symbols).subsets[i]? = some s) :
    (inOrder nfa symbols).trap ≠ some i := by
  intro htrap
  have hlt := (List.getElem?_eq_some_iff.mp hs).1
  have hlength := trap_eq_length hq htrap
  omega

theorem deterministic_inOrder_of_start : (inOrder nfa symbols).dfa.Deterministic where
  symbol_label e he := by
    obtain ⟨c, _, hlabel, _⟩ := (mem_edges_inOrder_iff hq).mp he
    rw [hlabel]
    exact Label.noConfusion
  target_unique i label j k hij hik := by
    obtain ⟨c, _, hlabel, hj⟩ := (mem_edges_inOrder_iff hq).mp hij
    obtain ⟨d, _, hsame, hk⟩ := (mem_edges_inOrder_iff hq).mp hik
    cases hlabel.symm.trans hsame
    rcases hj with ⟨s, hs, hj⟩ | ⟨htrap, hj⟩
    · rcases hk with ⟨t, ht, hk⟩ | ⟨htrap, _⟩
      · rw [hs] at ht
        cases ht
        exact Option.some.inj (hj.symm.trans hk)
      · exact absurd htrap (trap_ne_of_subset hq hs)
    · rcases hk with ⟨t, ht, _⟩ | ⟨_, hk⟩
      · exact absurd htrap (trap_ne_of_subset hq ht)
      · rw [hj, hk]

/-! ## Simulation -/

/-- An edge leads to the state that stands for the move. -/
theorem Represents.step (hn : nfa.WellFormed) (hi : (inOrder nfa symbols).Represents i s)
    (he : ⟨i, .symbol c, j⟩ ∈ (inOrder nfa symbols).dfa.edges) :
    (inOrder nfa symbols).Represents j (Move.of nfa (.ofAutomaton nfa) s c).states := by
  obtain ⟨_, hc, hlabel, he⟩ := (mem_edges_inOrder_iff hq).mp he
  cases hlabel
  rcases hi with hi | ⟨hi, rfl⟩
  · rcases he with ⟨t, ht, hj⟩ | ⟨htrap, _⟩
    · rw [hi] at ht
      cases ht
      exact represents_target hq hn hi hc hj
    · exact absurd htrap (trap_ne_of_subset hq hi)
  · rcases he with ⟨t, ht, _⟩ | ⟨_, rfl⟩
    · exact absurd hi (trap_ne_of_subset hq ht)
    · exact .inr ⟨hi, StateSet.move_empty⟩

/-- A move that is not empty has an edge. -/
theorem Represents.exists_edge (hi : (inOrder nfa symbols).Represents i s) (hc : c ∈ symbols)
    (hne : (Move.of nfa (.ofAutomaton nfa) s c).states ≠ ∅) :
    ∃ j, ⟨i, .symbol c, j⟩ ∈ (inOrder nfa symbols).dfa.edges := by
  rcases hi with hi | ⟨_, rfl⟩
  · have htarget : (inOrder nfa symbols).target? (Move.of nfa (.ofAutomaton nfa) s c).states =
        some _ := if_neg (mt OrderedSet.isEmpty_iff.mp hne)
    exact ⟨_, (mem_edges_inOrder_iff hq).mpr ⟨c, hc, rfl, .inl ⟨s, hi, htarget⟩⟩⟩
  · exact absurd StateSet.move_empty hne

theorem Represents.isAccepting_eq (hd : (inOrder nfa symbols).dfa.WellFormed)
    (hi : (inOrder nfa symbols).Represents i s) :
    (inOrder nfa symbols).dfa.isAccepting i = s.toList.any nfa.isAccepting := by
  obtain ⟨trap, htrap, hstates, hfacts⟩ := exists_trap_inOrder symbols hq
  rcases hi with hi | ⟨hi, rfl⟩
  · rw [subsetStates_eq] at hstates
    have haccepting := hd.isAccepting_numbered (by simp) hstates hi
    exact haccepting
  · obtain ⟨x, hx, rfl⟩ := Option.map_eq_some_iff.mp (htrap.symm.trans hi)
    have hmem : x ∈ (inOrder nfa symbols).dfa.states := by
      rw [hstates]
      exact List.mem_append_right _ (by simp [hx])
    rw [hd.isAccepting_eq hmem, (hfacts x hx).2.1]
    rfl

theorem Represents.path (hn : nfa.WellFormed)
    (hp : Path (inOrder nfa symbols).dfa.edgeSet i w j)
    (hi : (inOrder nfa symbols).Represents i s) :
    (inOrder nfa symbols).Represents j (s.moveAlong nfa w) := by
  induction hp generalizing s with
  | refl => exact hi
  | silent he => exact absurd rfl ((deterministic_inOrder_of_start hq).symbol_label _ he)
  | consume he _ ih => exact ih (hi.step hq hn he)

theorem Represents.exists_path (hn : nfa.WellFormed)
    (hsymbols : ∀ c ∈ nfa.alphabet, c ∈ symbols)
    (hi : (inOrder nfa symbols).Represents i s) (hne : s.moveAlong nfa w ≠ ∅) :
    ∃ j, Path (inOrder nfa symbols).dfa.edgeSet i w j := by
  induction w generalizing i s with
  | nil => exact ⟨i, .refl i⟩
  | cons c w ih =>
    rw [StateSet.moveAlong_cons] at hne
    -- No word leads out of the empty set.
    have hmove : (Move.of nfa (.ofAutomaton nfa) s c).states ≠ ∅ := by
      intro hempty
      rw [hempty, StateSet.moveAlong_empty] at hne
      exact hne rfl
    obtain ⟨j, he⟩ := hi.exists_edge hq (hsymbols c (mem_alphabet_of_move hn hmove)) hmove
    obtain ⟨k, hp⟩ := ih (hi.step hq hn he) hne
    exact ⟨k, .consume he hp⟩

end Started

/-! ## Results for every automaton -/

section WellFormed

variable (hn : nfa.WellFormed) (hsymbols : ∀ c, c ∈ symbols ↔ c ∈ nfa.alphabet)

include hn hsymbols

/-- The order in which symbols are tried does not matter to the language. -/
theorem accepts_inOrder_iff :
    (inOrder nfa symbols).dfa.accepts w = true ↔ nfa.accepts w = true := by
  have hd := wellFormed_inOrder hn fun c => (hsymbols c).mp
  rw [hd.accepts_iff_path, hn.accepts_iff_path]
  cases hstart : nfa.start with
  | none => simp [inOrder_of_start_eq_none hstart, Automaton.new]
  | some q =>
    have hqn : q ∈ nfa := hn.start_mem q hstart
    have hzero : (inOrder nfa symbols).Represents 0 ((Closures.ofAutomaton nfa).ofState q) :=
      represents_zero hstart
    simp only [start_inOrder hstart, Option.mem_some_iff, exists_eq_left']
    constructor
    · rintro ⟨j, hp, hj⟩
      rw [(hzero.path hstart hn hp).isAccepting_eq hstart hd, List.any_eq_true] at hj
      obtain ⟨t, ht, haccepting⟩ := hj
      exact ⟨t, (StateSet.mem_moveAlong_iff hn hqn).mp ht, haccepting⟩
    · intro h
      obtain ⟨t, hp, haccepting⟩ := h
      have ht := (StateSet.mem_moveAlong_iff hn hqn).mpr hp
      have hne : ((Closures.ofAutomaton nfa).ofState q).moveAlong nfa w ≠ ∅ := by
        intro hempty
        rw [hempty] at ht
        exact OrderedSet.not_mem_empty ht
      obtain ⟨j, hp⟩ := hzero.exists_path hstart hn (fun c => (hsymbols c).mpr) hne
      refine ⟨j, hp, ?_⟩
      rw [(hzero.path hstart hn hp).isAccepting_eq hstart hd, List.any_eq_true]
      exact ⟨t, ht, haccepting⟩

end WellFormed

/-- The deterministic automaton accepts the same words. -/
theorem accepts_ofNfa (hn : nfa.Built) (w : List Char) :
    (ofNfa nfa).dfa.accepts w = nfa.accepts w :=
  Bool.eq_iff_iff.mpr (accepts_inOrder_iff hn.wellFormed fun _ => Alphabet.mem_toList)

/-- A silent cycle around a state that was removed meanwhile. -/
def silentCycle : Automaton := .ofEdits (.ofSymbols ['a'])
  [.addState "p" false, .addState "q" false, .addState "r" true, .addEdge 0 (.symbol 'a') 1,
    .removeState 1, .addEdge 0 .epsilon 2, .addEdge 2 .epsilon 0, .addEdge 2 (.symbol 'a') 2]

theorem accepts_ofNfa_silentCycle :
    ((ofNfa silentCycle).dfa.accepts ['a'] = silentCycle.accepts ['a'] ∧
      silentCycle.accepts ['a'] = true) ∧
    ((ofNfa silentCycle).dfa.accepts ['z'] = silentCycle.accepts ['z'] ∧
      silentCycle.accepts ['z'] = false) :=
  ⟨⟨accepts_ofNfa (Automaton.built_ofEdits _ _) _, by decide⟩,
    ⟨accepts_ofNfa (Automaton.built_ofEdits _ _) _, by decide⟩⟩

end SubsetAutomaton

end FiniteState
