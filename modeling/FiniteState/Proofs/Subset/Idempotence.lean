import FiniteState.Proofs.Subset.Numbering
import FiniteState.Proofs.Subset.Trap

/-! # Subset constructions of total deterministic automata

In a total deterministic automaton a word leads to one state, so the sets found are those of one
reachable state each and no trap is needed. The result is the automaton without the states that
cannot be reached, under the same names. All of its states can be reached, and they are numbered in
the order in which they would be found again, so that a further construction changes nothing.
-/

namespace FiniteState

/-- An automaton that starts at a state and leaves no choice, but always a move. -/
structure Automaton.Complete (a : Automaton) (q : StateId) : Prop where
  wellFormed : a.WellFormed
  deterministic : a.Deterministic
  start_eq : a.start = some q
  total : a.Total

namespace SubsetAutomaton

/-- What the subset construction makes of an automaton whose words lead to one state each: its
reachable states as they are. -/
structure Restricts (d : SubsetAutomaton) (a : Automaton) : Prop where
  trap_eq_none : d.trap = none
  /-- The sets are those of one reachable state. -/
  mem_subsets_iff : ∀ s, s ∈ d.subsets ↔ ∃ q ∈ a.reachableIds, s = .ofList [q]
  /-- Each of them has the name of its state. -/
  name?_eq : ∀ i q, (i, .ofList [q]) ∈ d.numberedSubsets → d.dfa.name? i = a.name? q
  isPart : Automaton.IsPart (fun name => ∃ q ∈ a.reachableIds, a.name? q = some name) d.dfa a

variable {nfa a : Automaton} {q r t : StateId} {s : StateSet} {c : Char} {i : Nat}

/-- The state of the set of one state. -/
def single (d : SubsetAutomaton) (q : StateId) : StateId := d.subsets.idxOf (.ofList [q])

theorem ofList_singleton_injective :
    Function.Injective fun q : StateId => (OrderedSet.ofList [q] : StateSet) := by
  intro q r h
  exact (List.cons.inj (congrArg OrderedSet.toList h)).1

theorem mem_ofList_singleton {x : StateId} : x ∈ (OrderedSet.ofList [r] : StateSet) ↔ x = r := by
  rw [OrderedSet.mem_ofList, List.mem_singleton]

/-- The subset construction gives complete automata. -/
theorem complete_ofNfa (hn : nfa.WellFormed) (hq : nfa.start = some q) :
    (ofNfa nfa).dfa.Complete 0 where
  wellFormed := wellFormed_ofNfa hn
  deterministic := deterministic_inOrder_of_start hq
  start_eq := start_inOrder hq
  total := total_inOrder hn hq fun _ => Alphabet.mem_toList

section Complete

variable (ha : a.Complete q)

include ha

/-! ## Sets of one state -/

/-- A symbol leads from the set of one state to that of another if an edge with it does from the
one to the other. -/
theorem move_singleton_iff (hr : r ∈ a) :
    (Move.of a (.ofAutomaton a) (.ofList [r]) c).states = .ofList [t] ↔
      ⟨r, .symbol c, t⟩ ∈ a.edges := by
  have hmem (x : StateId) : x ∈ (Move.of a (.ofAutomaton a) (.ofList [r]) c).states ↔
      ⟨r, .symbol c, x⟩ ∈ a.edges := by
    rw [ha.wellFormed.mem_move_iff, ← ha.deterministic.successor?_eq_some_iff]
    simp [ha.deterministic.path_iff_walk, hr, Automaton.walk]
  constructor
  · intro h
    rw [← hmem, h, mem_ofList_singleton]
  · intro he
    ext x
    rw [hmem, mem_ofList_singleton]
    constructor
    · exact fun hx => ha.deterministic.target_unique _ _ _ _ hx he
    · rintro rfl
      exact he

/-- The sets found are those of one reachable state. -/
theorem mem_subsets_iff_reachable :
    s ∈ (ofNfa a).subsets ↔ ∃ r ∈ a.reachable, s = .ofList [r] := by
  have hiff : s ∈ (ofNfa a).subsets ↔ s ≠ ∅ ∧ ∃ w ∈ a.words, ∀ r, r ∈ s ↔ r ∈ a.reachedBy w :=
    mem_subsets_iff ha.wellFormed ha.start_eq fun _ => Alphabet.mem_toList
  rw [hiff]
  constructor
  · rintro ⟨hne, w, _, hs⟩
    obtain ⟨r, hr⟩ := OrderedSet.exists_mem_of_ne_empty hne
    obtain ⟨p, hp, hpath⟩ : r ∈ a.reachedBy w := (hs r).mp hr
    refine ⟨r, ⟨p, hp, w, hpath⟩, OrderedSet.ext fun x => ?_⟩
    rw [hs, ha.deterministic.mem_reachedBy_iff ⟨p, hp, hpath⟩, mem_ofList_singleton]
  · rintro ⟨r, ⟨p, hp, w, hpath⟩, rfl⟩
    have hne : (OrderedSet.ofList [r] : StateSet) ≠ ∅ :=
      OrderedSet.ne_empty_of_mem (mem_ofList_singleton.mpr rfl)
    refine ⟨hne, w, ha.wellFormed.mem_words_of_path hpath, fun x => ?_⟩
    rw [ha.deterministic.mem_reachedBy_iff ⟨p, hp, hpath⟩, mem_ofList_singleton]

theorem mem_reachable_of_singleton (h : .ofList [r] ∈ (ofNfa a).subsets) : r ∈ a.reachable := by
  obtain ⟨t, ht, hrt⟩ := (mem_subsets_iff_reachable ha).mp h
  exact (ofList_singleton_injective hrt).symm ▸ ht

/-- The set of a reachable state has been found under the number of its state. -/
theorem getElem?_single (hr : r ∈ a.reachable) :
    (ofNfa a).subsets[(ofNfa a).single r]? = some (.ofList [r]) :=
  List.getElem?_idxOf ((mem_subsets_iff_reachable ha).mpr ⟨r, hr, rfl⟩)

theorem represents_single (hr : r ∈ a.reachable) :
    (ofNfa a).Represents ((ofNfa a).single r) (.ofList [r]) :=
  .inl (getElem?_single ha hr)

/-- A set of one state has the name of the state. -/
theorem name?_of_singleton (hi : (ofNfa a).subsets[i]? = some (.ofList [r])) :
    (ofNfa a).dfa.name? i = a.name? r := by
  have hr : r ∈ a :=
    ha.wellFormed.reachable_subset (mem_reachable_of_singleton ha (List.mem_of_getElem? hi))
  have hone : ∀ s ∈ (ofNfa a).subsets, ∃ q ∈ a, s.toList = [q] := by
    intro s hs
    obtain ⟨t, ht, rfl⟩ := (mem_subsets_iff_reachable ha).mp hs
    exact ⟨t, ha.wellFormed.reachable_subset ht, rfl⟩
  have hnodup : ((ofNfa a).subsets.map OrderedSet.toList).Nodup := by
    refine (nodup_subsets ha.start_eq).map fun s t hst => OrderedSet.ext fun x => ?_
    rw [← OrderedSet.mem_toList, hst, OrderedSet.mem_toList]
  have hname := ha.wellFormed.getElem?_distinct_joint hnodup hone hi rfl
  obtain ⟨name, hrname⟩ := ha.wellFormed.exists_name?_eq hr
  obtain ⟨trap, _, hstates, _⟩ := exists_trap_inOrder a.alphabet.toList ha.start_eq
  rw [subsetStates_eq] at hstates
  rw [hrname] at hname ⊢
  exact (wellFormed_ofNfa ha.wellFormed).name?_numbered hstates hi hname

/-! ## No trap -/

theorem trap_ofNfa_eq_none : (ofNfa a).trap = none := by
  have hnot : ¬(ofNfa a).hasTrap = true := by
    intro htrap
    have hiff := hasTrap_inOrder_iff_isStuck ha.wellFormed ha.start_eq fun _ => Alphabet.mem_toList
    obtain ⟨w, _, r, ⟨p, hp, hpath⟩, c, hc, hstuck⟩ := hiff.mp htrap
    have hr : r ∈ a := ha.wellFormed.mem_of_path hpath (ha.wellFormed.start_mem p hp)
    obtain ⟨t, ht⟩ := ha.total r hr c hc
    exact hstuck r (.refl r) t (ha.deterministic.successor?_eq_some_iff.mp ht)
  simpa [hasTrap] using hnot

/-- All states stand for reachable ones. -/
theorem exists_eq_single (hi : i ∈ (ofNfa a).dfa) : ∃ r ∈ a.reachable, (ofNfa a).single r = i := by
  have htrap : (ofNfa a).trap ≠ some i := by simp [trap_ofNfa_eq_none ha]
  obtain ⟨s, hs⟩ := (exists_subset_inOrder_iff ha.start_eq).mpr ⟨hi, htrap⟩
  obtain ⟨r, hr, rfl⟩ := (mem_subsets_iff_reachable ha).mp (List.mem_of_getElem? hs)
  exact ⟨r, hr, (represents_single ha hr).state_unique ha.wellFormed ha.start_eq (.inl hs)⟩

/-- The set of the start is found first. -/
theorem single_start : (ofNfa a).single q = 0 := by
  have hzero : (ofNfa a).subsets[0]? = some ((Closures.ofAutomaton a).ofState q) :=
    getElem?_zero_subsets ha.start_eq
  obtain ⟨r, hr, hclosure⟩ :=
    (mem_subsets_iff_reachable ha).mp (List.mem_of_getElem? hzero)
  have hself : q ∈ (Closures.ofAutomaton a).ofState q :=
    ha.wellFormed.mem_ofState_iff.mpr ⟨ha.wellFormed.start_mem q ha.start_eq, .refl q⟩
  rw [hclosure] at hzero hself
  obtain rfl : q = r := mem_ofList_singleton.mp hself
  exact (represents_single ha hr).state_unique ha.wellFormed ha.start_eq (.inl hzero)

theorem reachable_ofNfa : (ofNfa a).dfa.reachable = {i | i ∈ (ofNfa a).dfa} := by
  ext i
  have htrap : (ofNfa a).trap ≠ some i := by simp [trap_ofNfa_eq_none ha]
  have hmem : i ∈ (ofNfa a).dfa ↔ i ∈ (ofNfa a).dfa.reachable ∨ (ofNfa a).trap = some i :=
    mem_inOrder_iff_reachable_or ha.wellFormed ha.start_eq fun _ => Alphabet.mem_toList
  exact (hmem.trans (or_iff_left htrap)).symm

theorem mem_ofNfa_iff_lt : i ∈ (ofNfa a).dfa ↔ i < (ofNfa a).subsetCount := by
  rw [← mem_and_ne_trap_iff ha.start_eq, trap_ofNfa_eq_none ha]
  simp

/-- The result is the reachable part of the automaton. -/
theorem isIsoOn_single : Automaton.IsIsoOn (ofNfa a).single a.reachable {i | i ∈ (ofNfa a).dfa} a
    (ofNfa a).dfa where
  alphabet_eq := alphabet_inOrder ha.start_eq
  bijOn := by
    refine ⟨?_, ?_, ?_⟩
    · intro r hr
      exact (represents_single ha hr).mem_inOrder ha.start_eq
    · intro r hr t ht hrt
      have hset := represents_single ha hr
      rw [hrt] at hset
      exact ofList_singleton_injective
        (hset.set_unique ha.start_eq (represents_single ha ht))
    · intro i hi
      exact exists_eq_single ha hi
  start_eq := by
    rw [ha.start_eq, Option.map_some, single_start ha]
    exact start_inOrder ha.start_eq
  isAccepting_eq r hr := by
    have haccepting :=
      (represents_single ha hr).isAccepting_eq ha.start_eq (wellFormed_ofNfa ha.wellFormed)
    exact haccepting.trans (Bool.or_false _)
  mem_edges_iff r hr label t ht := by
    have hresult := (complete_ofNfa ha.wellFormed ha.start_eq).deterministic
    refine hresult.mem_edges_congr ha.deterministic (fun c => ?_) label
    have hedges := (represents_single ha hr).mem_edges_iff (c := c) ha.wellFormed ha.start_eq
      (fun _ => Alphabet.mem_toList) (represents_single ha ht)
    rw [move_singleton_iff ha (ha.wellFormed.reachable_subset hr)] at hedges
    exact hedges.trans (and_iff_right_of_imp fun he => (ha.wellFormed.edges_fit _ he).allowed)

theorem name?_single (hr : r ∈ a.reachable) :
    (ofNfa a).dfa.name? ((ofNfa a).single r) = a.name? r :=
  name?_of_singleton ha (getElem?_single ha hr)

theorem restricts_ofNfa : (ofNfa a).Restricts a where
  trap_eq_none := trap_ofNfa_eq_none ha
  mem_subsets_iff s := by
    simp only [ha.wellFormed.mem_reachableIds_iff]
    exact mem_subsets_iff_reachable ha
  name?_eq i q hi := name?_of_singleton ha (mem_numberedSubsets_iff.mp hi)
  isPart := by
    have hstart : ∀ q ∈ a.start, q ∈ a.reachable := fun q hq => ⟨q, hq, [], .refl q⟩
    simp only [ha.wellFormed.mem_reachableIds_iff]
    exact (isIsoOn_single ha).isPart ha.wellFormed (wellFormed_ofNfa ha.wellFormed) hstart
      fun _ => name?_single ha

/-! ## No further change -/

/-- What a total deterministic automaton has become changes no more. -/
theorem ofNfa_dfa_eq_self : (ofNfa (ofNfa a).dfa).dfa = (ofNfa a).dfa := by
  have hb := complete_ofNfa ha.wellFormed ha.start_eq
  have hreachable := reachable_ofNfa ha
  have hiso : Automaton.IsIso (ofNfa (ofNfa a).dfa).single (ofNfa a).dfa
      (ofNfa (ofNfa a).dfa).dfa := by
    rw [Automaton.IsIso, ← hreachable]
    exact isIsoOn_single hb
  -- Both automata are numbered by the order of discovery, so the isomorphism moves no state.
  have hself : ∀ i ∈ (ofNfa a).dfa, (ofNfa (ofNfa a).dfa).single i = i := by
    intro i hi
    refine eq_of_isIsoOn ha.wellFormed ha.start_eq hb.wellFormed hb.start_eq ?_
      ((mem_ofNfa_iff_lt ha).mp hi)
    simp only [← mem_ofNfa_iff_lt ha, ← mem_ofNfa_iff_lt hb]
    exact hiso
  have hname : ∀ i ∈ (ofNfa a).dfa,
      (ofNfa (ofNfa a).dfa).dfa.name? i = (ofNfa a).dfa.name? i := by
    intro i hi
    have hr : i ∈ (ofNfa a).dfa.reachable := hreachable ▸ hi
    have hsingle := name?_single hb hr
    rwa [hself i hi] at hsingle
  have hnext : (ofNfa (ofNfa a).dfa).dfa.nextId = (ofNfa a).dfa.nextId := by
    have hids := hiso.ids_eq hb.wellFormed (wellFormed_ofNfa hb.wellFormed) hself
    have hrange : List.range (ofNfa (ofNfa a).dfa).dfa.nextId = List.range (ofNfa a).dfa.nextId :=
      (ids_inOrder hb.start_eq).symm.trans (hids.trans (ids_inOrder ha.start_eq))
    simpa using congrArg List.length hrange
  exact hiso.eq_of_eq_self hb.wellFormed (wellFormed_ofNfa hb.wellFormed) hself hname hnext

end Complete

/-- A second subset construction leaves out the trap if it cannot be reached and otherwise changes
nothing but the numbers of the states. A third one changes nothing. -/
theorem ofNfa_ofNfa (hn : nfa.Built) (hstart : nfa.start.isSome = true) :
    (ofNfa (ofNfa nfa).dfa).Restricts (ofNfa nfa).dfa ∧
      (ofNfa (ofNfa (ofNfa nfa).dfa).dfa).dfa = (ofNfa (ofNfa nfa).dfa).dfa := by
  obtain ⟨q, hq⟩ := Option.isSome_iff_exists.mp hstart
  have hfirst := complete_ofNfa hn.wellFormed hq
  exact ⟨restricts_ofNfa hfirst, ofNfa_dfa_eq_self hfirst⟩

/-- The trap of `branching` can be reached and gets another number, that of `lagging` vanishes. -/
theorem ofNfa_ofNfa_branching_lagging :
    ((ofNfa (ofNfa branching).dfa).Restricts (ofNfa branching).dfa ∧
      (ofNfa branching).trap = some 3 ∧
      (ofNfa (ofNfa branching).dfa).dfa.idOf? "trap" = some 2) ∧
    (ofNfa (ofNfa (ofNfa lagging).dfa).dfa).dfa = (ofNfa (ofNfa lagging).dfa).dfa ∧
      (ofNfa lagging).stateCount = 3 ∧ (ofNfa (ofNfa lagging).dfa).stateCount = 2 := by
  have hbranching := ofNfa_ofNfa (Automaton.built_ofEdits _ _ : branching.Built) (by decide)
  have hlagging := ofNfa_ofNfa (Automaton.built_ofEdits _ _ : lagging.Built) (by decide)
  refine ⟨⟨hbranching.1, by decide, by decide⟩, hlagging.2, by decide, by decide⟩

end SubsetAutomaton

end FiniteState
