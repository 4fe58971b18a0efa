import FiniteState.Subset.Construction
import FiniteState.Proofs.Automaton.Numbered
import FiniteState.Proofs.Automaton.Walk
import FiniteState.Proofs.Subset.Move
import Mathlib.Data.List.Sublists

/-! # Shape of the subset construction

The discovered sets begin with the closure of the start and are closed under non-empty moves. The
automaton built from them is well-formed, and its edges are those between the numbers of the
sets, with the trap in place of the empty set.
-/

namespace FiniteState

namespace SubsetAutomaton

variable {nfa : Automaton} {symbols : List Char} {q : StateId} {s t : StateSet} {c : Char}
  {i j : Nat}

/-! ## Discovery -/

/-- Every set of states of an automaton, as a universe for the search. -/
def stateSets (nfa : Automaton) : List StateSet := nfa.ids.sublists.map OrderedSet.ofList

theorem length_stateSets (nfa : Automaton) : (stateSets nfa).length = Nat.pow 2 nfa.size := by
  rw [stateSets, List.length_map, List.length_sublists, Automaton.length_ids]
  rfl

theorem mem_stateSets (hs : ∀ q ∈ s, q ∈ nfa) : s ∈ stateSets nfa := by
  refine List.mem_map.mpr ⟨nfa.ids.filter (· ∈ s), ?_, ?_⟩
  · exact List.mem_sublists.mpr List.filter_sublist
  · ext q
    simp only [OrderedSet.mem_ofList, List.mem_filter, decide_eq_true_eq, and_iff_right_iff_imp]
    exact hs q

theorem mem_successors_iff {closures : Closures} :
    t ∈ successors nfa symbols closures s ↔
      ∃ c ∈ symbols, (Move.of nfa closures s c).states = t ∧ t.isEmpty = false := by
  simp only [successors, List.mem_filter, List.mem_map, Bool.not_eq_true']
  constructor
  · intro h
    obtain ⟨⟨c, hc, rfl⟩, hne⟩ := h
    exact ⟨c, hc, rfl, hne⟩
  · intro h
    obtain ⟨c, hc, rfl, hne⟩ := h
    exact ⟨⟨c, hc, rfl⟩, hne⟩

theorem mem_of_mem_move (hn : nfa.WellFormed) {r : StateId}
    (hr : r ∈ (Move.of nfa (.ofAutomaton nfa) s c).states) : r ∈ nfa := by
  obtain ⟨q, _, hq, hp⟩ := hn.mem_move_iff.mp hr
  exact hn.mem_of_path hp hq

section Discovery

variable (hn : nfa.WellFormed) (symbols)

include hn

theorem closure_subset_stateSets :
    [(Closures.ofAutomaton nfa).ofState q] ⊆ stateSets nfa := by
  rw [List.cons_subset]
  refine ⟨?_, List.nil_subset _⟩
  apply mem_stateSets
  intro r hr
  obtain ⟨hq, hp⟩ := hn.mem_ofState_iff.mp hr
  exact hn.mem_of_path hp hq

theorem successors_subset_stateSets :
    ∀ s ∈ stateSets nfa, successors nfa symbols (.ofAutomaton nfa) s ⊆ stateSets nfa := by
  intro s _ t ht
  obtain ⟨c, _, rfl, _⟩ := mem_successors_iff.mp ht
  exact mem_stateSets fun r hr => mem_of_mem_move hn hr

/-- Non-empty moves of discovered sets are discovered. -/
theorem move_mem_discover (hs : s ∈ discover nfa symbols (.ofAutomaton nfa) q) (hc : c ∈ symbols)
    (hne : (Move.of nfa (.ofAutomaton nfa) s c).states.isEmpty = false) :
    (Move.of nfa (.ofAutomaton nfa) s c).states ∈ discover nfa symbols (.ofAutomaton nfa) q := by
  refine Search.next_subset_reach (closure_subset_stateSets hn)
    (successors_subset_stateSets symbols hn) ?_ s hs ?_
  · exact (length_stateSets nfa).le
  · exact mem_successors_iff.mpr ⟨c, hc, rfl, hne⟩

end Discovery

theorem discover_zero (closures : Closures) :
    (discover nfa symbols closures q)[0]? = some (closures.ofState q) := by
  rw [discover, ← List.head?_eq_getElem?, Search.head?_reach]

/-! ## The automaton -/

theorem inOrder_of_start_eq_none (h : nfa.start = none) :
    inOrder nfa symbols = ⟨.new nfa.alphabet, [], none⟩ := by
  simp only [inOrder, h]

/-- Where a move to a set leads: to its number, or to the trap if the set is empty. -/
def target? (d : SubsetAutomaton) (s : StateSet) : Option StateId :=
  if s.isEmpty then d.trap else some (d.subsets.idxOf s)

/-- A state stands for the set found under its number, the trap for the empty set. -/
def Represents (d : SubsetAutomaton) (i : StateId) (s : StateSet) : Prop :=
  d.subsets[i]? = some s ∨ (d.trap = some i ∧ s = ∅)

theorem subsetStates_eq (nfa : Automaton) (subsets : List StateSet) :
    subsetStates nfa subsets = numberedStates subsets
      (Naming.distinct (subsets.map (·.name nfa))) fun s => s.toList.any nfa.isAccepting := rfl

theorem trapState?_eq_some {moves : List NumberedMove} {states : List State} {x : State}
    (h : trapState? moves states = some x) :
    x.id = states.length ∧ x.name ∉ states.map (·.name) ∧ x.accepting = false := by
  unfold trapState? at h
  split at h
  next =>
    cases h
    exact ⟨rfl, Naming.unused_not_mem _ _, rfl⟩
  next => cases h

theorem mem_movesOf_iff {closures : Closures} {subsets : List StateSet} {m : NumberedMove} :
    m ∈ movesOf nfa symbols closures subsets ↔ ∃ s, subsets[m.source]? = some s ∧
      m.symbol ∈ symbols ∧ m.move = Move.of nfa closures s m.symbol := by
  simp only [movesOf, List.mem_flatMap, Prod.exists, List.mk_mem_zipIdx_iff_getElem?, List.mem_map]
  constructor
  · intro h
    obtain ⟨s, i, hs, c, hc, rfl⟩ := h
    exact ⟨s, hs, hc, rfl⟩
  · intro h
    obtain ⟨s, hs, hc, hmove⟩ := h
    exact ⟨s, m.source, hs, m.symbol, hc, by rw [← hmove]⟩

theorem edge?_eq_some_iff {subsets : List StateSet} {trap : Option StateId} {m : NumberedMove}
    {label : Label} : edge? subsets trap m = some ⟨i, label, j⟩ ↔
      m.source = i ∧ .symbol m.symbol = label ∧
        (if m.move.states.isEmpty then trap else some (subsets.idxOf m.move.states)) = some j := by
  simp only [edge?, Option.map_eq_some_iff, Edge.mk.injEq]
  constructor
  · intro h
    obtain ⟨t, ht, hi, hlabel, rfl⟩ := h
    exact ⟨hi, hlabel, ht⟩
  · intro h
    obtain ⟨hi, hlabel, hj⟩ := h
    exact ⟨j, hj, hi, hlabel, rfl⟩

section Started

variable (hq : nfa.start = some q)

include hq

theorem start_inOrder : (inOrder nfa symbols).dfa.start = some 0 := by
  simp only [inOrder, hq]

theorem subsets_inOrder :
    (inOrder nfa symbols).subsets = discover nfa symbols (.ofAutomaton nfa) q := by
  simp only [inOrder, hq]

theorem alphabet_inOrder : (inOrder nfa symbols).dfa.alphabet = nfa.alphabet := by
  simp only [inOrder, hq]

variable (symbols) in
/-- The states are those of the subsets and, if there is one, the trap after them. -/
theorem exists_trap_inOrder : ∃ trap : Option State,
    (inOrder nfa symbols).trap = trap.map (·.id) ∧
      (inOrder nfa symbols).dfa.states =
        subsetStates nfa (inOrder nfa symbols).subsets ++ trap.toList ∧
      ∀ x ∈ trap, x.id = (inOrder nfa symbols).subsets.length ∧ x.accepting = false ∧
        x.name ∉ (subsetStates nfa (inOrder nfa symbols).subsets).map (·.name) := by
  simp only [inOrder, hq]
  refine ⟨_, rfl, rfl, ?_⟩
  intro x hx
  obtain ⟨hid, hname, haccepting⟩ := trapState?_eq_some hx
  rw [subsetStates_eq, length_numberedStates (by simp)] at hid
  exact ⟨hid, haccepting, hname⟩

/-- There is a trap if some member of a found set is stuck on some symbol. -/
theorem hasTrap_inOrder_iff : (inOrder nfa symbols).hasTrap = true ↔
    ∃ s ∈ (inOrder nfa symbols).subsets, ∃ c ∈ symbols,
      (Move.of nfa (.ofAutomaton nfa) s c).stuck = true := by
  simp only [inOrder, hq, hasTrap, Option.isSome_map, trapState?, Option.isSome_ite,
    List.any_eq_true]
  constructor
  · rintro ⟨m, hm, hstuck⟩
    obtain ⟨s, hs, hc, hmove⟩ := mem_movesOf_iff.mp hm
    exact ⟨s, List.mem_of_getElem? hs, m.symbol, hc, hmove ▸ hstuck⟩
  · rintro ⟨s, hs, c, hc, hstuck⟩
    obtain ⟨i, hi⟩ := List.mem_iff_getElem?.mp hs
    exact ⟨⟨i, c, _⟩, mem_movesOf_iff.mpr ⟨s, hi, hc, rfl⟩, hstuck⟩

theorem nextId_inOrder :
    (inOrder nfa symbols).dfa.nextId = (inOrder nfa symbols).dfa.states.length := by
  simp only [inOrder, hq]

theorem mem_edges_inOrder_iff {label : Label} :
    ⟨i, label, j⟩ ∈ (inOrder nfa symbols).dfa.edges ↔ ∃ c ∈ symbols, label = .symbol c ∧
      ((∃ s, (inOrder nfa symbols).subsets[i]? = some s ∧
          (inOrder nfa symbols).target? (Move.of nfa (.ofAutomaton nfa) s c).states = some j) ∨
        ((inOrder nfa symbols).trap = some i ∧ j = i)) := by
  simp only [inOrder, hq, target?, OrderedSet.mem_ofList, List.mem_append, List.mem_filterMap,
    List.mem_flatMap, trapEdges, List.mem_map, Option.mem_toList, Option.map_eq_some_iff,
    mem_movesOf_iff, edge?_eq_some_iff, Edge.mk.injEq]
  constructor
  · rintro (⟨m, ⟨s, hs, hc, hmove⟩, rfl, rfl, hj⟩ | ⟨x, hx, c, hc, rfl, rfl, rfl⟩)
    · rw [hmove] at hj
      exact ⟨m.symbol, hc, rfl, .inl ⟨s, hs, hj⟩⟩
    · exact ⟨c, hc, rfl, .inr ⟨⟨x, hx, rfl⟩, rfl⟩⟩
  · intro h
    obtain ⟨c, hc, rfl, ⟨s, hs, hj⟩ | ⟨⟨x, hx, rfl⟩, rfl⟩⟩ := h
    · exact .inl ⟨⟨i, c, _⟩, ⟨s, hs, hc, rfl⟩, rfl, rfl, hj⟩
    · exact .inr ⟨x, hx, c, hc, rfl, rfl, rfl⟩

theorem ids_inOrder :
    (inOrder nfa symbols).dfa.ids = List.range (inOrder nfa symbols).dfa.nextId := by
  obtain ⟨trap, -, hstates, htrap⟩ := exists_trap_inOrder symbols hq
  rw [nextId_inOrder hq, Automaton.ids, hstates, List.map_append, List.length_append,
    subsetStates_eq, ids_numberedStates (by simp), length_numberedStates (by simp)]
  cases trap with
  | none => simp
  | some x => simp [(htrap x rfl).1, List.range_succ]

theorem mem_inOrder_iff :
    i ∈ (inOrder nfa symbols).dfa ↔ i < (inOrder nfa symbols).dfa.nextId :=
  Automaton.mem_iff_lt_of_ids (ids_inOrder hq)

theorem subset_mem_inOrder (hi : (inOrder nfa symbols).subsets[i]? = some s) :
    i ∈ (inOrder nfa symbols).dfa := by
  obtain ⟨trap, -, hstates, -⟩ := exists_trap_inOrder symbols hq
  have hlt := (List.getElem?_eq_some_iff.mp hi).1
  rw [mem_inOrder_iff hq, nextId_inOrder hq, hstates, List.length_append, subsetStates_eq,
    length_numberedStates (by simp)]
  omega

theorem trap_eq_length (hi : (inOrder nfa symbols).trap = some i) :
    i = (inOrder nfa symbols).subsets.length := by
  obtain ⟨trap, htrap, -, hfacts⟩ := exists_trap_inOrder symbols hq
  obtain ⟨x, hx, rfl⟩ := Option.map_eq_some_iff.mp (htrap.symm.trans hi)
  exact (hfacts x hx).1

theorem trap_mem_inOrder (hi : (inOrder nfa symbols).trap = some i) :
    i ∈ (inOrder nfa symbols).dfa := by
  obtain ⟨trap, htrap, hstates, -⟩ := exists_trap_inOrder symbols hq
  obtain ⟨x, hx, rfl⟩ := Option.map_eq_some_iff.mp (htrap.symm.trans hi)
  refine Automaton.mem_of_mem_states ?_
  rw [hstates]
  exact List.mem_append_right _ (by simp [hx])

theorem Represents.mem_inOrder (hi : (inOrder nfa symbols).Represents i s) :
    i ∈ (inOrder nfa symbols).dfa := by
  rcases hi with hi | ⟨hi, -⟩
  · exact subset_mem_inOrder hq hi
  · exact trap_mem_inOrder hq hi

theorem getElem?_zero_subsets : (inOrder nfa symbols).subsets[0]? =
    some ((Closures.ofAutomaton nfa).ofState q) := by
  rw [subsets_inOrder hq]
  exact discover_zero _

/-- The start stands for the closure of the start. -/
theorem represents_zero :
    (inOrder nfa symbols).Represents 0 ((Closures.ofAutomaton nfa).ofState q) :=
  .inl (getElem?_zero_subsets hq)

theorem exists_represents (hi : i ∈ (inOrder nfa symbols).dfa) :
    ∃ s, (inOrder nfa symbols).Represents i s := by
  obtain ⟨trap, htrap, hstates, hfacts⟩ := exists_trap_inOrder symbols hq
  rw [mem_inOrder_iff hq, nextId_inOrder hq, hstates, List.length_append, subsetStates_eq,
    length_numberedStates (by simp)] at hi
  by_cases hlt : i < (inOrder nfa symbols).subsets.length
  · exact ⟨_, .inl (List.getElem?_eq_getElem hlt)⟩
  · -- Only the trap has a number beyond those of the sets.
    cases trap with
    | none => exact absurd hi hlt
    | some x =>
      have hid : x.id = i := by
        rw [(hfacts x rfl).1]
        rw [Option.toList_some, List.length_singleton] at hi
        exact Nat.le_antisymm (Nat.le_of_not_lt hlt) (Nat.le_of_lt_succ hi)
      exact ⟨∅, .inr ⟨htrap.trans (congrArg some hid), rfl⟩⟩

/-- A move leads to the state that stands for the set reached. -/
theorem represents_target (hn : nfa.WellFormed)
    (hs : (inOrder nfa symbols).subsets[i]? = some s) (hc : c ∈ symbols)
    (hj : (inOrder nfa symbols).target? (Move.of nfa (.ofAutomaton nfa) s c).states = some j) :
    (inOrder nfa symbols).Represents j (Move.of nfa (.ofAutomaton nfa) s c).states := by
  unfold target? at hj
  split at hj
  next hempty => exact .inr ⟨hj, OrderedSet.isEmpty_iff.mp hempty⟩
  next hempty =>
    cases hj
    have hmem : (Move.of nfa (.ofAutomaton nfa) s c).states ∈ (inOrder nfa symbols).subsets := by
      rw [subsets_inOrder hq] at hs ⊢
      exact move_mem_discover symbols hn (List.mem_of_getElem? hs) hc (by simpa using hempty)
    exact .inl (by rw [List.getElem?_idxOf hmem])

theorem wellFormed_inOrder_of_start (hn : nfa.WellFormed)
    (hsymbols : ∀ c ∈ symbols, c ∈ nfa.alphabet) :
    (inOrder nfa symbols).dfa.WellFormed where
  ids_ascending := Automaton.ids_ascending_of_ids (ids_inOrder hq)
  lt_nextId i hi := (mem_inOrder_iff hq).mp hi
  names_nodup := by
    obtain ⟨trap, -, hstates, htrap⟩ := exists_trap_inOrder symbols hq
    rw [Automaton.names, hstates, List.map_append, List.nodup_append]
    refine ⟨?_, ?_, ?_⟩
    · rw [subsetStates_eq, names_numberedStates (by simp)]
      exact Naming.nodup_distinct _
    · cases trap <;> simp
    · -- The trap has got a name that no set has.
      intro n hn m hm hnm
      obtain ⟨x, hx, rfl⟩ := List.mem_map.mp hm
      exact (htrap x (by simpa using hx)).2.2 (hnm ▸ hn)
  edges_fit e he := by
    obtain ⟨c, hc, hlabel, hedge⟩ := (mem_edges_inOrder_iff hq).mp he
    refine ⟨?_, ?_, ?_⟩
    · rw [hlabel, alphabet_inOrder hq]
      exact hsymbols c hc
    · rcases hedge with ⟨s, hs, -⟩ | ⟨htrap, -⟩
      · exact subset_mem_inOrder hq hs
      · exact trap_mem_inOrder hq htrap
    · rcases hedge with ⟨s, hs, hj⟩ | ⟨htrap, heq⟩
      · exact (represents_target hq hn hs hc hj).mem_inOrder hq
      · exact heq ▸ trap_mem_inOrder hq htrap
  start_mem i hi := by
    have hzero : i = 0 := by simpa [start_inOrder hq, eq_comm] using hi
    subst hzero
    exact (represents_zero hq).mem_inOrder hq
  states_eq_nil h := by
    rw [start_inOrder hq] at h
    cases h

end Started

theorem wellFormed_inOrder (hn : nfa.WellFormed) (hsymbols : ∀ c ∈ symbols, c ∈ nfa.alphabet) :
    (inOrder nfa symbols).dfa.WellFormed := by
  cases hstart : nfa.start with
  | none =>
    rw [inOrder_of_start_eq_none hstart]
    exact Automaton.wellFormed_new _
  | some q => exact wellFormed_inOrder_of_start hstart hn hsymbols

theorem wellFormed_ofNfa (hn : nfa.WellFormed) : (ofNfa nfa).dfa.WellFormed :=
  wellFormed_inOrder hn fun _ => Alphabet.mem_toList.mp

end SubsetAutomaton

end FiniteState
