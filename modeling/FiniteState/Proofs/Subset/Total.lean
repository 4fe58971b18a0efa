import FiniteState.Proofs.Automaton.Residual
import FiniteState.Proofs.Subset.Language

/-! # Totality of the subset construction

A symbol leads a found set nowhere only if it leaves members stuck, and then there is a trap, so
no state lacks a move. Every found set is the set of a word, so its state is reachable. The trap
alone may be unreachable; no word is accepted from it.
-/

namespace FiniteState.SubsetAutomaton

variable {nfa : Automaton} {symbols : List Char} {q : StateId} {s t : StateSet} {c : Char}
  {i j : Nat}

section Started

variable (hn : nfa.WellFormed) (hq : nfa.start = some q)

include hn hq

/-! ## Found sets -/

/-- The found sets are sets of words, and none of them is empty. -/
theorem exists_word_of_mem_subsets (hs : s ∈ (inOrder nfa symbols).subsets) : s ≠ ∅ ∧
    ∃ w, ((Closures.ofAutomaton nfa).ofState q).moveAlong nfa w = s := by
  rw [subsets_inOrder hq] at hs
  refine Search.forall_mem_reach (P := fun s => s ≠ ∅ ∧
    ∃ w, ((Closures.ofAutomaton nfa).ofState q).moveAlong nfa w = s) ?_ ?_ s hs
  · intro s hs
    rw [List.mem_singleton] at hs
    subst hs
    refine ⟨?_, [], rfl⟩
    intro hempty
    have hself : q ∈ (Closures.ofAutomaton nfa).ofState q :=
      hn.mem_ofState_iff.mpr ⟨hn.start_mem q hq, .refl q⟩
    rw [hempty] at hself
    exact OrderedSet.not_mem_empty hself
  · rintro s ⟨_, w, rfl⟩ t ht
    obtain ⟨c, _, rfl, hne⟩ := mem_successors_iff.mp ht
    exact ⟨mt OrderedSet.isEmpty_iff.mpr (by simpa using hne), w ++ [c], StateSet.moveAlong_concat⟩

omit hn in
theorem nodup_subsets : (inOrder nfa symbols).subsets.Nodup := by
  rw [subsets_inOrder hq]
  exact Search.nodup_reach _ _

omit hn in
/-- A state stands for one set. -/
theorem Represents.set_unique (hs : (inOrder nfa symbols).Represents i s)
    (ht : (inOrder nfa symbols).Represents i t) : s = t := by
  rcases hs with hs | ⟨htrap, rfl⟩
  · rcases ht with ht | ⟨htrap, _⟩
    · exact Option.some.inj (hs.symm.trans ht)
    · exact absurd htrap (trap_ne_of_subset hq hs)
  · rcases ht with ht | ⟨_, rfl⟩
    · exact absurd htrap (trap_ne_of_subset hq ht)
    · rfl

/-- One state stands for a set. -/
theorem Represents.state_unique (hi : (inOrder nfa symbols).Represents i s)
    (hj : (inOrder nfa symbols).Represents j s) : i = j := by
  have hne (k : Nat) (hk : (inOrder nfa symbols).subsets[k]? = some s) : s ≠ ∅ :=
    (exists_word_of_mem_subsets hn hq (List.mem_of_getElem? hk)).1
  rcases hi with hi | ⟨hi, hempty⟩
  · rcases hj with hj | ⟨_, hempty⟩
    · have hlt := (List.getElem?_eq_some_iff.mp hi).1
      exact (List.getElem?_inj hlt (nodup_subsets hq)).mp (hi.trans hj.symm)
    · exact absurd hempty (hne i hi)
  · rcases hj with hj | ⟨hj, _⟩
    · exact absurd hempty (hne j hj)
    · exact Option.some.inj (hi.symm.trans hj)

/-! ## Moves -/

/-- If a symbol leads a found set nowhere, there is a trap. -/
theorem exists_trap_of_move_eq_empty (hs : s ∈ (inOrder nfa symbols).subsets) (hc : c ∈ symbols)
    (h : (Move.of nfa (.ofAutomaton nfa) s c).states = ∅) :
    ∃ t, (inOrder nfa symbols).trap = some t := by
  have hstuck := hn.stuck_of_move_eq_empty (exists_word_of_mem_subsets hn hq hs).1 h
  exact Option.isSome_iff_exists.mp ((hasTrap_inOrder_iff hq).mpr ⟨s, hs, c, hc, hstuck⟩)

omit hn in
/-- A symbol leads the trap, and any set that it leads nowhere, to the trap. -/
theorem Represents.trap_mem_edges (hi : (inOrder nfa symbols).Represents i s) {t : StateId}
    (ht : (inOrder nfa symbols).trap = some t) (hc : c ∈ symbols)
    (hmove : (Move.of nfa (.ofAutomaton nfa) s c).states = ∅) :
    ⟨i, .symbol c, t⟩ ∈ (inOrder nfa symbols).dfa.edges := by
  rw [mem_edges_inOrder_iff hq]
  refine ⟨c, hc, rfl, ?_⟩
  rcases hi with hi | ⟨hi, _⟩
  · refine .inl ⟨s, hi, ?_⟩
    rw [target?, if_pos (OrderedSet.isEmpty_iff.mpr hmove), ht]
  · exact .inr ⟨hi, Option.some.inj (ht.symm.trans hi)⟩

variable (hsymbols : ∀ c, c ∈ symbols ↔ c ∈ nfa.alphabet)

include hsymbols

theorem total_inOrder : (inOrder nfa symbols).dfa.Total := by
  intro i hi c hc
  rw [alphabet_inOrder hq, ← hsymbols] at hc
  simp only [(deterministic_inOrder_of_start hq).successor?_eq_some_iff]
  obtain ⟨s, hs⟩ := exists_represents hq hi
  by_cases hmove : (Move.of nfa (.ofAutomaton nfa) s c).states = ∅
  · obtain ⟨t, ht⟩ : ∃ t, (inOrder nfa symbols).trap = some t := by
      rcases hs with hs | ⟨htrap, _⟩
      · exact exists_trap_of_move_eq_empty hn hq (List.mem_of_getElem? hs) hc hmove
      · exact ⟨i, htrap⟩
    exact ⟨t, hs.trap_mem_edges hq ht hc hmove⟩
  · exact hs.exists_edge hq hc hmove

/-- The edges are the moves of the sets that the states stand for. -/
theorem Represents.mem_edges_iff (hi : (inOrder nfa symbols).Represents i s)
    (hj : (inOrder nfa symbols).Represents j t) :
    ⟨i, .symbol c, j⟩ ∈ (inOrder nfa symbols).dfa.edges ↔
      c ∈ nfa.alphabet ∧ (Move.of nfa (.ofAutomaton nfa) s c).states = t := by
  have halphabet : (inOrder nfa symbols).dfa.alphabet = nfa.alphabet := alphabet_inOrder hq
  constructor
  · intro he
    have hd := wellFormed_inOrder hn fun c => (hsymbols c).mp
    exact ⟨halphabet ▸ (hd.edges_fit _ he).allowed, (hi.step hq hn he).set_unique hq hj⟩
  · rintro ⟨hc, rfl⟩
    rw [← halphabet] at hc
    obtain ⟨k, hk⟩ := total_inOrder hn hq hsymbols i (hi.mem_inOrder hq) c hc
    have he := (deterministic_inOrder_of_start hq).successor?_eq_some_iff.mp hk
    rwa [hj.state_unique hn hq (hi.step hq hn he)]

/-! ## Reachable states -/

theorem subset_mem_reachable (hi : (inOrder nfa symbols).subsets[i]? = some s) :
    i ∈ (inOrder nfa symbols).dfa.reachable := by
  obtain ⟨hne, w, rfl⟩ := exists_word_of_mem_subsets hn hq (List.mem_of_getElem? hi)
  have hzero : (inOrder nfa symbols).Represents 0 ((Closures.ofAutomaton nfa).ofState q) :=
    represents_zero hq
  obtain ⟨j, hp⟩ := hzero.exists_path hq hn (fun c => (hsymbols c).mpr) hne
  have hj := (hzero.path hq hn hp).resolve_right fun h => hne h.2
  -- No set is found twice, so the state that the word leads to is the given one.
  have hlt := (List.getElem?_eq_some_iff.mp hi).1
  obtain rfl := (List.getElem?_inj hlt (nodup_subsets hq)).mp (hi.trans hj.symm)
  exact ⟨0, start_inOrder hq, w, hp⟩

/-- All states but the trap are reachable. -/
theorem mem_inOrder_iff_reachable_or : i ∈ (inOrder nfa symbols).dfa ↔
      i ∈ (inOrder nfa symbols).dfa.reachable ∨ (inOrder nfa symbols).trap = some i := by
  constructor
  · intro hi
    obtain ⟨s, hs | ⟨htrap, _⟩⟩ := exists_represents hq hi
    · exact .inl (subset_mem_reachable hn hq hsymbols hs)
    · exact .inr htrap
  · rintro (hi | hi)
    · exact (wellFormed_inOrder hn fun c => (hsymbols c).mp).reachable_subset hi
    · exact trap_mem_inOrder hq hi

/-- No word is accepted from the trap. -/
theorem languageFrom_trap (hi : (inOrder nfa symbols).trap = some i) :
    (inOrder nfa symbols).dfa.languageFrom i = ∅ := by
  have hd := wellFormed_inOrder hn fun c => (hsymbols c).mp
  rw [Set.eq_empty_iff_forall_notMem]
  rintro w ⟨_, t, hw, haccepting⟩
  have hempty : (inOrder nfa symbols).Represents i ∅ := .inr ⟨hi, rfl⟩
  have ht := hempty.path hq hn ((deterministic_inOrder_of_start hq).path_iff_walk.mpr hw)
  rw [ht.isAccepting_eq hq hd, StateSet.moveAlong_empty] at haccepting
  cases haccepting

end Started

end FiniteState.SubsetAutomaton
