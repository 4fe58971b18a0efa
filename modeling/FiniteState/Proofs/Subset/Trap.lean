import FiniteState.Proofs.Subset.Meaning

/-! # When the subset construction needs a trap

Whether there is a trap is a matter of the nondeterministic automaton alone: it is there if some
word leads to a state that cannot go on with some symbol, even if other states that the same word
leads to can. The trap comes after the states of the sets, does not accept, and takes every move
that leads to no state at all.
-/

namespace FiniteState

/-- No state that silent edges lead to from the given one has an edge with the symbol. -/
def Automaton.IsStuck (a : Automaton) (q : StateId) (c : Char) : Prop :=
  ∀ p, Path a.edgeSet q [] p → ∀ t, ⟨p, .symbol c, t⟩ ∉ a.edges

namespace SubsetAutomaton

/-- What the trap of a subset construction is like. -/
structure IsTrap (d : SubsetAutomaton) (nfa : Automaton) (t : StateId) : Prop where
  mem : t ∈ d.dfa
  isAccepting_eq : d.dfa.isAccepting t = false
  /-- No state has a higher id. -/
  le_trap : ∀ i ∈ d.dfa, i ≤ t
  /-- A symbol that leads a set to no states leads to the trap. -/
  targets_of_move_eq_empty : ∀ i s, (i, s) ∈ d.numberedSubsets → ∀ c ∈ nfa.alphabet,
    (Move.of nfa (.ofAutomaton nfa) s c).states = ∅ → d.dfa.targets i (.symbol c) = [t]
  /-- No symbol leads out of the trap. -/
  targets_trap : ∀ c ∈ nfa.alphabet, d.dfa.targets t (.symbol c) = [t]

variable {nfa : Automaton} {symbols : List Char} {q r : StateId} {s : StateSet} {c : Char}
  {i t : StateId}

/-- A known member of a set is stuck if it has no edge to follow. -/
theorem isStuck_iff (hn : nfa.WellFormed) (hr : r ∈ nfa) : nfa.IsStuck r c ↔
    ∀ t, t ∉ Move.targetsFrom nfa (.ofAutomaton nfa) c r := by
  simp only [Automaton.IsStuck, Move.mem_targetsFrom, hn.mem_ofState_iff, hr, true_and, not_exists,
    not_and]
  exact ⟨fun h t p hp => h p hp t, fun h p hp t => h t p hp⟩

section Started

variable (hn : nfa.WellFormed) (hq : nfa.start = some q)

include hq

/-- There is one state for every set, and one more for the trap. -/
theorem stateCount_inOrder : (inOrder nfa symbols).stateCount =
    (inOrder nfa symbols).subsetCount + if (inOrder nfa symbols).hasTrap then 1 else 0 := by
  obtain ⟨trap, htrap, hstates, -⟩ := exists_trap_inOrder symbols hq
  rw [stateCount, Automaton.size, hstates, List.length_append, subsetStates_eq,
    length_numberedStates (by simp), subsetCount, hasTrap, htrap, Option.isSome_map]
  cases trap <;> rfl

include hn

variable (hsymbols : ∀ c, c ∈ symbols ↔ c ∈ nfa.alphabet)

include hsymbols

/-- There is a trap if a word leads to a state that is stuck on some symbol. -/
theorem hasTrap_inOrder_iff_isStuck : (inOrder nfa symbols).hasTrap = true ↔
    ∃ w ∈ nfa.words, ∃ r ∈ nfa.reachedBy w, ∃ c ∈ nfa.alphabet, nfa.IsStuck r c := by
  simp only [hasTrap_inOrder_iff hq, Move.stuck_iff, mem_subsets_iff hn hq hsymbols, hsymbols]
  constructor
  · rintro ⟨s, ⟨_, w, hw, hs⟩, c, hc, r, hr, hstuck⟩
    have hrw := (hs r).mp hr
    exact ⟨w, hw, r, hrw, c, hc, (isStuck_iff hn (hn.mem_of_mem_reachedBy hrw)).mpr hstuck⟩
  · rintro ⟨w, hw, r, hr, c, hc, hstuck⟩
    -- The set that the word leads to has the stuck state as a member.
    let s := ((Closures.ofAutomaton nfa).ofState q).moveAlong nfa w
    have hs (p : StateId) : p ∈ s ↔ p ∈ nfa.reachedBy w := mem_moveAlong_iff_reachedBy hn hq
    have hrs : r ∈ s := (hs r).mpr hr
    exact ⟨s, ⟨OrderedSet.ne_empty_of_mem hrs, w, hw, hs⟩, c, hc, r, hrs,
      (isStuck_iff hn (hn.mem_of_mem_reachedBy hr)).mp hstuck⟩

theorem isTrap_inOrder (ht : (inOrder nfa symbols).trap = some t) :
    (inOrder nfa symbols).IsTrap nfa t := by
  have hd := wellFormed_inOrder hn fun c => (hsymbols c).mp
  have hdet : (inOrder nfa symbols).dfa.Deterministic := deterministic_inOrder_of_start hq
  have hempty : (inOrder nfa symbols).Represents t ∅ := .inr ⟨ht, rfl⟩
  have htargets {i : StateId} {s : StateSet} {c : Char} (hi : (inOrder nfa symbols).Represents i s)
      (hc : c ∈ nfa.alphabet) (hmove : (Move.of nfa (.ofAutomaton nfa) s c).states = ∅) :
      (inOrder nfa symbols).dfa.targets i (.symbol c) = [t] := by
    rw [← Automaton.successor?_eq_some_iff_targets, hdet.successor?_eq_some_iff]
    exact hi.trap_mem_edges hq ht ((hsymbols c).mpr hc) hmove
  refine ⟨trap_mem_inOrder hq ht, hempty.isAccepting_eq hq hd, ?_, ?_, ?_⟩
  · intro i hi
    have hcount : (inOrder nfa symbols).dfa.states.length =
        (inOrder nfa symbols).subsets.length + if (inOrder nfa symbols).hasTrap then 1 else 0 :=
      stateCount_inOrder hq
    have htrap : (inOrder nfa symbols).hasTrap = true := by rw [hasTrap, ht, Option.isSome_some]
    rw [mem_inOrder_iff hq, nextId_inOrder hq, hcount, if_pos htrap, ← trap_eq_length hq ht] at hi
    exact Nat.le_of_lt_succ hi
  · intro i s hi c hc hmove
    exact htargets (.inl (mem_numberedSubsets_iff.mp hi)) hc hmove
  · intro c hc
    exact htargets hempty hc StateSet.move_empty

end Started

/-- The subset construction has a trap exactly if a word over the alphabet leads to a state that
cannot go on with some symbol. The trap is the last state, and there is one state for every set
besides. -/
theorem trap_ofNfa (hn : nfa.Built) (hstart : nfa.start.isSome = true) :
    ((ofNfa nfa).hasTrap = true ↔
      ∃ w ∈ nfa.words, ∃ q ∈ nfa.reachedBy w, ∃ c ∈ nfa.alphabet, nfa.IsStuck q c) ∧
    (∀ t, (ofNfa nfa).trap = some t → (ofNfa nfa).IsTrap nfa t) ∧
    (ofNfa nfa).stateCount =
      (ofNfa nfa).subsetCount + if (ofNfa nfa).hasTrap then 1 else 0 := by
  obtain ⟨q, hq⟩ := Option.isSome_iff_exists.mp hstart
  exact ⟨hasTrap_inOrder_iff_isStuck hn.wellFormed hq fun _ => Alphabet.mem_toList,
    fun t => isTrap_inOrder hn.wellFormed hq fun _ => Alphabet.mem_toList, stateCount_inOrder hq⟩

/-- One of two states that a symbol leads to from the first cannot go on. -/
def lagging : Automaton := .ofEdits (.ofSymbols ['a'])
  [.addState "p" true, .addState "q" false, .addEdge 0 (.symbol 'a') 0,
    .addEdge 0 (.symbol 'a') 1]

/-- There is a trap although no word leads to it. -/
theorem trap_ofNfa_lagging :
    (ofNfa lagging).hasTrap = true ∧ (ofNfa lagging).IsTrap lagging 2 ∧
      (ofNfa lagging).stateCount = 3 := by
  have hbuilt : lagging.Built := Automaton.built_ofEdits _ _
  obtain ⟨hiff, htrap, hcount⟩ := trap_ofNfa hbuilt (by decide)
  have hword : ['a'] ∈ lagging.words := by
    intro c hc
    rw [List.mem_singleton.mp hc]
    decide
  have hedge : (⟨0, .symbol 'a', 1⟩ : Edge) ∈ lagging.edges := by decide
  have hreached : 1 ∈ lagging.reachedBy ['a'] := ⟨0, by decide, .consume hedge (.refl 1)⟩
  have hstuck : lagging.IsStuck 1 'a' := by
    have htargets : Move.targetsFrom lagging (.ofAutomaton lagging) 'a' 1 = [] := by decide
    rw [isStuck_iff hbuilt.wellFormed (by decide), htargets]
    exact fun t => List.not_mem_nil
  have hhas := hiff.mpr ⟨['a'], hword, 1, hreached, 'a', by decide, hstuck⟩
  refine ⟨hhas, htrap 2 (by decide), ?_⟩
  rw [hcount, if_pos hhas]
  decide

end SubsetAutomaton

end FiniteState
