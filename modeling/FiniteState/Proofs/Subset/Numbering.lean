import FiniteState.Proofs.Automaton.Isomorphism
import FiniteState.Proofs.DiscoveryOrder
import FiniteState.Proofs.Subset.Meaning
import Mathlib.Data.Char

/-! # Numbering of the subset construction

The least word that leads to a state is the first one in the shortlex order: by length, then by
symbols. The subset construction numbers its sets in the order of these words, so isomorphic
results have the same numbers, and the trap comes last.
-/

namespace FiniteState

namespace Automaton

variable {a : Automaton} {q : StateId} {u v w : List Char}

/-- A word leads from the start to a state, and no word before it in the shortlex order does. -/
def IsLeastAccess (a : Automaton) (w : List Char) (q : StateId) : Prop :=
  q ∈ a.reachedBy w ∧ ∀ v, q ∈ a.reachedBy v → ¬List.Shortlex (· < ·) v w

theorem isLeastAccess_iff : a.IsLeastAccess w q ↔
    q ∈ a.reachedBy w ∧ ∀ v, q ∈ a.reachedBy v → wordRank w ≤ wordRank v := by
  simp only [IsLeastAccess, ← wordRank_lt_iff, not_lt]

theorem IsLeastAccess.unique (hu : a.IsLeastAccess u q) (hv : a.IsLeastAccess v q) : u = v := by
  rw [isLeastAccess_iff] at hu hv
  exact wordRank_injective (le_antisymm (hu.2 v hv.1) (hv.2 u hu.1))

end Automaton

namespace SubsetAutomaton

variable {nfa other : Automaton} {symbols : List Char} {q r : StateId} {s t : StateSet} {c : Char}
  {i j : Nat} {w : List Char} {f : StateId → StateId}

/-! ## Moves between found sets -/

/-- The set that a symbol leads to, unless it is empty. -/
def move? (nfa : Automaton) (s : StateSet) (c : Char) : Option StateSet :=
  some (Move.of nfa (.ofAutomaton nfa) s c).states |>.filter fun t => !t.isEmpty

theorem move?_eq_some_iff :
    move? nfa s c = some t ↔ (Move.of nfa (.ofAutomaton nfa) s c).states = t ∧ t ≠ ∅ := by
  simp only [move?, Option.filter_eq_some_iff, Option.some_inj, Bool.not_eq_true',
    ← Bool.not_eq_true, OrderedSet.isEmpty_iff, ne_eq]

theorem successors_eq_filterMap :
    successors nfa symbols (.ofAutomaton nfa) s = symbols.filterMap (move? nfa s) := by
  rw [successors, ← List.filterMap_eq_filter, List.filterMap_map]
  rfl

/-- Words that lead from a set to another that is not empty lead there by sets that are not. -/
theorem follow_move?_eq_some_iff (hs : s ≠ ∅) :
    Search.follow (move? nfa) s w = some t ↔ s.moveAlong nfa w = t ∧ t ≠ ∅ := by
  induction w using List.reverseRecOn generalizing t with
  | nil =>
    rw [Search.follow_nil, Option.some_inj, StateSet.moveAlong_nil]
    refine ⟨?_, And.left⟩
    rintro rfl
    exact ⟨rfl, hs⟩
  | append_singleton w c ih =>
    simp only [Search.follow_concat, Option.bind_eq_some_iff, ih, move?_eq_some_iff,
      StateSet.moveAlong_concat]
    constructor
    · rintro ⟨_, ⟨rfl, _⟩, ht⟩
      exact ht
    · rintro ⟨rfl, ht⟩
      refine ⟨_, ⟨rfl, ?_⟩, rfl, ht⟩
      intro hempty
      rw [hempty, StateSet.move_empty] at ht
      exact ht rfl

/-! ## Least words -/

section Started

variable (hn : nfa.WellFormed) (hq : nfa.start = some q)

include hn hq

/-- The words that lead to the state of a set are those that lead to the set. -/
theorem mem_reachedBy_inOrder_iff (hsymbols : ∀ c ∈ nfa.alphabet, c ∈ symbols)
    (hi : (inOrder nfa symbols).subsets[i]? = some s) :
    i ∈ (inOrder nfa symbols).dfa.reachedBy w ↔
      ((Closures.ofAutomaton nfa).ofState q).moveAlong nfa w = s := by
  have hzero : (inOrder nfa symbols).Represents 0 ((Closures.ofAutomaton nfa).ofState q) :=
    represents_zero hq
  simp only [Automaton.reachedBy, start_inOrder hq, Option.mem_some_iff, exists_eq_left',
    Set.mem_ofPred_eq]
  constructor
  · intro hp
    exact (hzero.path hq hn hp).set_unique hq (.inl hi)
  · rintro rfl
    have hne := (exists_word_of_mem_subsets hn hq (List.mem_of_getElem? hi)).1
    obtain ⟨j, hp⟩ := hzero.exists_path hq hn hsymbols hne
    have hj := hzero.path hq hn hp
    rwa [hj.state_unique hn hq (.inl hi)] at hp

theorem isLeastAccess_iff_isLeastWord (hi : (ofNfa nfa).subsets[i]? = some s) :
    (ofNfa nfa).dfa.IsLeastAccess w i ↔
      Search.IsLeastWord (move? nfa) ((Closures.ofAutomaton nfa).ofState q) w s := by
  have hne : (Closures.ofAutomaton nfa).ofState q ≠ ∅ :=
    OrderedSet.ne_empty_of_mem (hn.mem_ofState_iff.mpr ⟨hn.start_mem q hq, .refl q⟩)
  have hs : s ≠ ∅ := (exists_word_of_mem_subsets hn hq (List.mem_of_getElem? hi)).1
  have hreached (v : List Char) : i ∈ (ofNfa nfa).dfa.reachedBy v ↔
      Search.follow (move? nfa) ((Closures.ofAutomaton nfa).ofState q) v = some s := by
    rw [follow_move?_eq_some_iff hne, and_iff_left hs]
    exact mem_reachedBy_inOrder_iff hn hq (fun _ => Alphabet.mem_toList.mpr) hi
  rw [Automaton.isLeastAccess_iff]
  simp only [hreached]
  exact ⟨fun h => ⟨h.1, h.2⟩, fun h => ⟨h.leads, h.least⟩⟩

/-- The least words that lead to the sets ascend with the numbers. -/
theorem exists_leastWords_subsets : ∃ words : List (List Char),
    words.Pairwise (fun u v => wordRank u < wordRank v) ∧
      List.Forall₂ (Search.IsLeastWord (move? nfa) ((Closures.ofAutomaton nfa).ofState q)) words
        (ofNfa nfa).subsets := by
  have hascending : nfa.alphabet.toList.Pairwise (· < ·) := nfa.alphabet.symbols.ascending
  have hmove : ∀ s c t, move? nfa s c = some t → c ∈ nfa.alphabet.toList := by
    intro s c t h
    obtain ⟨rfl, ht⟩ := move?_eq_some_iff.mp h
    exact mem_alphabet_of_move hn ht
  have hsubsets : (ofNfa nfa).subsets = discover nfa nfa.alphabet.toList (.ofAutomaton nfa) q :=
    subsets_inOrder hq
  rw [hsubsets]
  refine Search.exists_leastWords (fun _ => successors_eq_filterMap) hascending hmove ?_
  exact Search.ends (closure_subset_stateSets hn)
    (successors_subset_stateSets nfa.alphabet.toList hn) (length_stateSets nfa).le

/-- The least words that lead to the states of the sets ascend with the numbers. -/
theorem exists_leastAccess_words : ∃ words : List (List Char),
    words.Pairwise (fun u v => wordRank u < wordRank v) ∧
      words.length = (ofNfa nfa).subsetCount ∧ ∀ i w, words[i]? = some w ↔
        i < (ofNfa nfa).subsetCount ∧ (ofNfa nfa).dfa.IsLeastAccess w i := by
  obtain ⟨words, hascending, hleast⟩ := exists_leastWords_subsets hn hq
  obtain ⟨hlength, hleast⟩ := List.forall₂_iff_get.mp hleast
  have haccess : ∀ i (hi : i < words.length), (ofNfa nfa).dfa.IsLeastAccess words[i] i := by
    intro i hi
    rw [isLeastAccess_iff_isLeastWord hn hq (List.getElem?_eq_getElem (hlength ▸ hi))]
    exact hleast i hi _
  refine ⟨words, hascending, hlength, ?_⟩
  intro i w
  rw [List.getElem?_eq_some_iff, subsetCount, ← hlength]
  constructor
  · rintro ⟨hi, rfl⟩
    exact ⟨hi, haccess i hi⟩
  · rintro ⟨hi, hw⟩
    exact ⟨hi, (haccess i hi).unique hw⟩

omit hn in
/-- The numbers below the number of sets are the states other than the trap. -/
theorem mem_and_ne_trap_iff : i ∈ (ofNfa nfa).dfa ∧ (ofNfa nfa).trap ≠ some i ↔
    i < (ofNfa nfa).subsetCount := by
  refine (exists_subset_inOrder_iff hq).symm.trans ⟨?_, ?_⟩
  · rintro ⟨s, hs⟩
    exact (List.getElem?_eq_some_iff.mp hs).1
  · intro hi
    exact ⟨_, List.getElem?_eq_getElem hi⟩

omit hn in
/-- No edge leads from the trap to a set. -/
theorem source_lt_subsetCount : ∀ e ∈ (ofNfa nfa).dfa.edges,
    e.target < (ofNfa nfa).subsetCount → e.source < (ofNfa nfa).subsetCount := by
  intro e he htarget
  obtain ⟨_, _, _, ⟨s, hs, _⟩ | ⟨_, hself⟩⟩ := (mem_edges_inOrder_iff hq).mp he
  · exact (List.getElem?_eq_some_iff.mp hs).1
  · exact hself ▸ htarget

omit hn in
theorem start_lt_subsetCount : ∀ i ∈ (ofNfa nfa).dfa.start, i < (ofNfa nfa).subsetCount := by
  intro i hi
  obtain rfl : 0 = i := Option.some.inj ((start_inOrder hq).symm.trans hi)
  exact (List.getElem?_eq_some_iff.mp (getElem?_zero_subsets hq)).1

/-- The numbers of the sets cannot be told from the automaton in another way. -/
theorem eq_of_isIsoOn (hm : other.WellFormed) (hr : other.start = some r)
    (h : Automaton.IsIsoOn f {i | i < (ofNfa nfa).subsetCount} {i | i < (ofNfa other).subsetCount}
      (ofNfa nfa).dfa (ofNfa other).dfa) (hi : i < (ofNfa nfa).subsetCount) : f i = i := by
  have hleast {k : Nat} {w : List Char} (hk : k < (ofNfa nfa).subsetCount) :
      (ofNfa other).dfa.IsLeastAccess w (f k) ↔ (ofNfa nfa).dfa.IsLeastAccess w k := by
    have hreached (v : List Char) :
        f k ∈ (ofNfa other).dfa.reachedBy v ↔ k ∈ (ofNfa nfa).dfa.reachedBy v :=
      h.mem_reachedBy_iff (start_lt_subsetCount hq) (source_lt_subsetCount hq)
        (source_lt_subsetCount hr) hk
    simp only [Automaton.IsLeastAccess, hreached]
  obtain ⟨words, hascending, hlength, hwords⟩ := exists_leastAccess_words hn hq
  obtain ⟨words', hascending', -, hwords'⟩ := exists_leastAccess_words hm hr
  -- The same words are least words of states here and there, so both lists are the same.
  have hmem (w : List Char) : w ∈ words ↔ w ∈ words' := by
    simp only [List.mem_iff_getElem?, hwords, hwords']
    constructor
    · rintro ⟨k, hk, hw⟩
      exact ⟨f k, h.bijOn.mapsTo hk, (hleast hk).mpr hw⟩
    · rintro ⟨l, hl, hw⟩
      obtain ⟨k, hk, rfl⟩ := h.bijOn.surjOn hl
      exact ⟨k, hk, (hleast hk).mp hw⟩
  obtain rfl := eq_of_ascending_words hascending hascending' hmem
  obtain ⟨w, hw⟩ : ∃ w, words[i]? = some w := ⟨_, List.getElem?_eq_getElem (hlength ▸ hi)⟩
  have himage : words[f i]? = some w :=
    (hwords' _ _).mpr ⟨h.bijOn.mapsTo hi, (hleast hi).mpr ((hwords i w).mp hw).2⟩
  have hnodup : words.Nodup := hascending.imp fun huv heq => (heq ▸ huv).false
  exact (List.getElem?_inj (List.getElem?_eq_some_iff.mp himage).1 hnodup).mp (himage.trans hw.symm)

end Started

/-- The sets are numbered from 0, the start, in the order of the least words that lead to their
states. Only the trap has no such number, and isomorphic results have the same numbers. -/
theorem ofNfa_numbering (hn : nfa.Built) (hstart : nfa.start.isSome = true) :
    (∀ i, i ∈ (ofNfa nfa).dfa ∧ (ofNfa nfa).trap ≠ some i ↔ i < (ofNfa nfa).subsetCount) ∧
    (ofNfa nfa).dfa.start = some 0 ∧
    (∀ i < (ofNfa nfa).subsetCount, ∃! w, (ofNfa nfa).dfa.IsLeastAccess w i) ∧
    (∀ i j u v, i < j → j < (ofNfa nfa).subsetCount → (ofNfa nfa).dfa.IsLeastAccess u i →
      (ofNfa nfa).dfa.IsLeastAccess v j → List.Shortlex (· < ·) u v) ∧
    ∀ other : Automaton, other.Built → other.start.isSome = true → ∀ f,
      Automaton.IsIsoOn f {i | i < (ofNfa nfa).subsetCount} {i | i < (ofNfa other).subsetCount}
        (ofNfa nfa).dfa (ofNfa other).dfa → ∀ i < (ofNfa nfa).subsetCount, f i = i := by
  obtain ⟨q, hq⟩ := Option.isSome_iff_exists.mp hstart
  obtain ⟨words, hascending, hlength, hwords⟩ := exists_leastAccess_words hn.wellFormed hq
  refine ⟨fun i => mem_and_ne_trap_iff hq, start_inOrder hq, ?_, ?_, ?_⟩
  · intro i hi
    have hw := ((hwords i words[i]).mp (List.getElem?_eq_getElem (hlength ▸ hi))).2
    exact ⟨_, hw, fun v hv => hv.unique hw⟩
  · intro i j u v hij hj hu hv
    obtain ⟨hi, rfl⟩ := List.getElem?_eq_some_iff.mp ((hwords i u).mpr ⟨hij.trans hj, hu⟩)
    obtain ⟨hj, rfl⟩ := List.getElem?_eq_some_iff.mp ((hwords j v).mpr ⟨hj, hv⟩)
    exact wordRank_lt_iff.mp (List.pairwise_iff_getElem.mp hascending i j hi hj hij)
  · intro other hm hmstart f hf i hi
    obtain ⟨r, hr⟩ := Option.isSome_iff_exists.mp hmstart
    exact eq_of_isIsoOn hn.wellFormed hq hm.wellFormed hr hf hi

/-- The three sets of `branching` are numbered along their least words, before the trap, and no
isomorphism exchanges them. -/
theorem ofNfa_numbering_branching :
    (ofNfa branching).subsetCount = 3 ∧ (ofNfa branching).trap = some 3 ∧
      (∃ u v, (ofNfa branching).dfa.IsLeastAccess u 1 ∧ (ofNfa branching).dfa.IsLeastAccess v 2 ∧
        List.Shortlex (· < ·) u v) ∧
      ∀ f, Automaton.IsIsoOn f {i | i < (ofNfa branching).subsetCount}
        {i | i < (ofNfa branching).subsetCount} (ofNfa branching).dfa (ofNfa branching).dfa →
        f 1 = 1 ∧ f 2 = 2 := by
  have hbuilt : branching.Built := Automaton.built_ofEdits _ _
  have hstart : branching.start.isSome = true := by decide
  obtain ⟨_, _, hleast, hascending, hfixed⟩ := ofNfa_numbering hbuilt hstart
  obtain ⟨u, hu, _⟩ := hleast 1 (by decide)
  obtain ⟨v, hv, _⟩ := hleast 2 (by decide)
  have huv := hascending 1 2 u v (by decide) (by decide) hu hv
  refine ⟨by decide, by decide, ⟨u, v, hu, hv, huv⟩, ?_⟩
  intro f hf
  have hself := hfixed branching hbuilt hstart f hf
  exact ⟨hself 1 (by decide), hself 2 (by decide)⟩

end SubsetAutomaton

end FiniteState
