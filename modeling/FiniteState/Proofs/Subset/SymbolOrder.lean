import FiniteState.Proofs.Automaton.Isomorphism
import FiniteState.Proofs.Subset.Trap

/-! # The order of the symbols

The order in which the symbols are tried decides the order in which the subset construction finds
sets, and with it the ids and the marks on names. It does not decide which sets are found, nor
whether there is a trap, so the automata are isomorphic: the states that stand for the same set
correspond.
-/

namespace FiniteState.SubsetAutomaton

/-- The state of another construction that stands for the set of a state; the trap, which has the
number after those of the sets, if the state has no set. -/
def counterpart (d e : SubsetAutomaton) (i : StateId) : StateId :=
  match d.subsets[i]? with
  | some s => e.subsets.idxOf s
  | none => e.subsetCount

variable {nfa : Automaton} {symbols others : List Char} {q : StateId} {s t : StateSet} {c : Char}
  {i j : Nat}

section Started

variable (hn : nfa.WellFormed) (hq : nfa.start = some q)
  (hsymbols : ∀ c, c ∈ symbols ↔ c ∈ nfa.alphabet)
  (hothers : ∀ c, c ∈ others ↔ c ∈ nfa.alphabet)

include hn hq hsymbols hothers

theorem mem_subsets_congr :
    s ∈ (inOrder nfa symbols).subsets ↔ s ∈ (inOrder nfa others).subsets := by
  rw [mem_subsets_iff hn hq hsymbols, mem_subsets_iff hn hq hothers]

theorem hasTrap_congr : (inOrder nfa symbols).hasTrap = (inOrder nfa others).hasTrap := by
  rw [Bool.eq_iff_iff, hasTrap_inOrder_iff_isStuck hn hq hsymbols,
    hasTrap_inOrder_iff_isStuck hn hq hothers]

theorem subsetCount_congr :
    (inOrder nfa symbols).subsetCount = (inOrder nfa others).subsetCount := by
  have hperm : (inOrder nfa symbols).subsets.Perm (inOrder nfa others).subsets :=
    (List.perm_ext_iff_of_nodup (nodup_subsets hq) (nodup_subsets hq)).mpr fun _ =>
      mem_subsets_congr hn hq hsymbols hothers
  exact hperm.length_eq

/-- What a state stands for, its counterpart stands for as well. -/
theorem Represents.counterpart (hi : (inOrder nfa symbols).Represents i s) :
    (inOrder nfa others).Represents ((inOrder nfa symbols).counterpart (inOrder nfa others) i)
      s := by
  unfold SubsetAutomaton.counterpart
  rcases hi with hi | ⟨htrap, rfl⟩
  · have hs : s ∈ (inOrder nfa others).subsets :=
      (mem_subsets_congr hn hq hsymbols hothers).mp (List.mem_of_getElem? hi)
    simp only [hi]
    exact .inl (List.getElem?_idxOf hs)
  · have hnone : (inOrder nfa symbols).subsets[i]? = none := by
      rw [trap_eq_length hq htrap]
      exact List.getElem?_eq_none le_rfl
    have hhas : (inOrder nfa others).hasTrap = true := by
      rw [← hasTrap_congr hn hq hsymbols hothers, hasTrap, htrap, Option.isSome_some]
    obtain ⟨t, ht⟩ := Option.isSome_iff_exists.mp hhas
    simp only [hnone]
    exact .inr ⟨by rw [ht, trap_eq_length hq ht, subsetCount], rfl⟩

theorem isIso_counterpart : Automaton.IsIso
    ((inOrder nfa symbols).counterpart (inOrder nfa others)) (inOrder nfa symbols).dfa
      (inOrder nfa others).dfa where
  alphabet_eq := (alphabet_inOrder hq).trans (alphabet_inOrder hq).symm
  bijOn := by
    refine ⟨?_, ?_, ?_⟩
    · intro i hi
      obtain ⟨s, hs⟩ := exists_represents hq hi
      exact (hs.counterpart hn hq hsymbols hothers).mem_inOrder hq
    · intro i hi j hj hij
      obtain ⟨s, hs⟩ := exists_represents hq hi
      obtain ⟨t, ht⟩ := exists_represents hq hj
      have hs' := hs.counterpart hn hq hsymbols hothers
      have ht' := ht.counterpart hn hq hsymbols hothers
      rw [hij] at hs'
      cases hs'.set_unique hq ht'
      exact hs.state_unique hn hq ht
    · intro j hj
      obtain ⟨s, hs⟩ := exists_represents hq hj
      -- The state for the same set has the given one as its counterpart.
      have hi := hs.counterpart hn hq hothers hsymbols
      exact ⟨_, hi.mem_inOrder hq,
        (hi.counterpart hn hq hsymbols hothers).state_unique hn hq hs⟩
  start_eq := by
    have hzero : (inOrder nfa symbols).Represents 0 ((Closures.ofAutomaton nfa).ofState q) :=
      represents_zero hq
    have hsame := (hzero.counterpart hn hq hsymbols hothers).state_unique hn hq (represents_zero hq)
    rw [start_inOrder hq, start_inOrder hq, Option.map_some, hsame]
  isAccepting_eq i hi := by
    obtain ⟨s, hs⟩ := exists_represents hq hi
    rw [(hs.counterpart hn hq hsymbols hothers).isAccepting_eq hq
      (wellFormed_inOrder hn fun c => (hothers c).mp),
      hs.isAccepting_eq hq (wellFormed_inOrder hn fun c => (hsymbols c).mp)]
  mem_edges_iff i hi label j hj := by
    obtain ⟨s, hs⟩ := exists_represents hq hi
    obtain ⟨t, ht⟩ := exists_represents hq hj
    refine Automaton.Deterministic.mem_edges_congr (deterministic_inOrder_of_start hq)
      (deterministic_inOrder_of_start hq) (fun c => ?_) label
    rw [hs.mem_edges_iff hn hq hsymbols ht, (hs.counterpart hn hq hsymbols hothers).mem_edges_iff
      hn hq hothers (ht.counterpart hn hq hsymbols hothers)]

/-- The states of a set correspond, and so do the traps. -/
theorem numberedSubsets_counterpart (hi : (i, s) ∈ (inOrder nfa symbols).numberedSubsets) :
    ((inOrder nfa symbols).counterpart (inOrder nfa others) i, s) ∈
      (inOrder nfa others).numberedSubsets := by
  rw [mem_numberedSubsets_iff] at hi ⊢
  have hs : (inOrder nfa symbols).Represents i s := .inl hi
  refine (hs.counterpart hn hq hsymbols hothers).resolve_right fun h => ?_
  exact (exists_word_of_mem_subsets hn hq (List.mem_of_getElem? hi)).1 h.2

theorem trap_counterpart (hi : (inOrder nfa symbols).trap = some i) :
    (inOrder nfa others).trap =
      some ((inOrder nfa symbols).counterpart (inOrder nfa others) i) := by
  have hempty : (inOrder nfa symbols).Represents i ∅ := .inr ⟨hi, rfl⟩
  rcases hempty.counterpart hn hq hsymbols hothers with hs | ⟨htrap, _⟩
  · exact absurd rfl (exists_word_of_mem_subsets hn hq (List.mem_of_getElem? hs)).1
  · exact htrap

end Started

/-- However the symbols are ordered, the subset construction finds the same sets and decides alike
whether there is a trap. The states that stand for the same set correspond, and so do the traps:
this is an isomorphism of the automata. -/
theorem inOrder_perm (hn : nfa.Built) (hperm : symbols.Perm nfa.alphabet.toList) :
    (∀ s, s ∈ (inOrder nfa symbols).subsets ↔ s ∈ (ofNfa nfa).subsets) ∧
    (inOrder nfa symbols).hasTrap = (ofNfa nfa).hasTrap ∧
    (inOrder nfa symbols).subsetCount = (ofNfa nfa).subsetCount ∧
    (inOrder nfa symbols).stateCount = (ofNfa nfa).stateCount ∧
    ∃ f, Automaton.IsIso f (ofNfa nfa).dfa (inOrder nfa symbols).dfa ∧
      (∀ i s, (i, s) ∈ (ofNfa nfa).numberedSubsets →
        (f i, s) ∈ (inOrder nfa symbols).numberedSubsets) ∧
      ∀ t, (ofNfa nfa).trap = some t → (inOrder nfa symbols).trap = some (f t) := by
  have hlisted : ∀ c, c ∈ nfa.alphabet.toList ↔ c ∈ nfa.alphabet := fun _ => Alphabet.mem_toList
  have hsymbols : ∀ c, c ∈ symbols ↔ c ∈ nfa.alphabet := fun _ => hperm.mem_iff
  unfold ofNfa
  cases hstart : nfa.start with
  | none =>
    -- Without a start neither construction finds anything.
    have hsame : inOrder nfa symbols = inOrder nfa nfa.alphabet.toList :=
      (inOrder_of_start_eq_none hstart).trans (inOrder_of_start_eq_none hstart).symm
    rw [hsame]
    exact ⟨fun _ => .rfl, rfl, rfl, rfl, id, Automaton.isIso_id _, fun _ _ => id, fun _ => id⟩
  | some q =>
    have hw := hn.wellFormed
    have htrap : (inOrder nfa symbols).hasTrap = (inOrder nfa nfa.alphabet.toList).hasTrap :=
      hasTrap_congr hw hstart hsymbols hlisted
    have hcount : (inOrder nfa symbols).subsetCount =
        (inOrder nfa nfa.alphabet.toList).subsetCount :=
      subsetCount_congr hw hstart hsymbols hlisted
    refine ⟨fun s => mem_subsets_congr hw hstart hsymbols hlisted, htrap, hcount, ?_, _,
      isIso_counterpart hw hstart hlisted hsymbols,
      fun i s => numberedSubsets_counterpart hw hstart hlisted hsymbols,
      fun t => trap_counterpart hw hstart hlisted hsymbols⟩
    rw [stateCount_inOrder hstart, stateCount_inOrder hstart, hcount, htrap]

/-- A state whose name is the joint name of two others. -/
def clashing : Automaton := .ofEdits (.ofSymbols ['a', 'b'])
  [.addState "p" false, .addState "q" false, .addState "r" true, .addState "q-r" false,
    .addEdge 0 (.symbol 'a') 1, .addEdge 0 (.symbol 'a') 2, .addEdge 0 (.symbol 'b') 3]

/-- The set that is found second and keeps its joint name in one order is found third and gets a
mark in the other. -/
theorem inOrder_perm_clashing :
    ['b', 'a'].Perm clashing.alphabet.toList ∧
      (inOrder clashing ['b', 'a']).hasTrap = (ofNfa clashing).hasTrap ∧
      (∃ f, Automaton.IsIso f (ofNfa clashing).dfa (inOrder clashing ['b', 'a']).dfa ∧
        f 1 = 2 ∧ f 2 = 1) ∧
      (ofNfa clashing).dfa.name? 1 = some "q-r" ∧
      (inOrder clashing ['b', 'a']).dfa.name? 2 = some "q-r'" := by
  have hperm : ['b', 'a'].Perm clashing.alphabet.toList := by decide
  have hbuilt : clashing.Built := Automaton.built_ofEdits _ _
  have hstart : clashing.start = some 0 := by decide
  obtain ⟨_, htrap, _, _, f, hiso, hsets, _⟩ := inOrder_perm hbuilt hperm
  refine ⟨hperm, htrap, ⟨f, hiso, ?_, ?_⟩, by decide, by decide⟩
  · have h : (inOrder clashing ['b', 'a']).Represents (f 1) (.ofList [1, 2]) :=
      .inl (mem_numberedSubsets_iff.mp (hsets 1 _ (by decide)))
    exact h.state_unique hbuilt.wellFormed hstart (.inl (by decide))
  · have h : (inOrder clashing ['b', 'a']).Represents (f 2) (.ofList [3]) :=
      .inl (mem_numberedSubsets_iff.mp (hsets 2 _ (by decide)))
    exact h.state_unique hbuilt.wellFormed hstart (.inl (by decide))

end FiniteState.SubsetAutomaton
