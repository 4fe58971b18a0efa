import FiniteState.Proofs.Subset.Trap

/-! # Rounds of the subset construction

The sets can be found with a queue: each round takes the oldest set from it, records where every
symbol leads, and adds a state for every set that has none yet. At the end a trap is added if some
member was stuck, and the recorded moves become edges. A step can fail, since an edit may be refused
and a set may have no state. None does, whatever the names of the states are, and there are as many
rounds as sets.
-/

namespace FiniteState

/-- A move that has been tried: to the state of the set reached, unless that set is empty. -/
structure RecordedMove where
  source : StateId
  symbol : Char
  target : Option StateId
deriving DecidableEq

/-- Where the subset construction stands. -/
structure Exploration where
  /-- The automaton, without edges until all moves have been tried. -/
  dfa : Automaton
  /-- The sets found so far and their states. -/
  ids : List (StateSet × StateId)
  /-- The sets on which no symbol has been tried yet, oldest first. -/
  queue : List StateSet
  /-- All sets that have been put into the queue, oldest first. -/
  queued : List StateSet
  moves : List RecordedMove
  /-- Whether some member of a set was stuck. -/
  stuck : Bool

namespace Exploration

open SubsetAutomaton

section Steps

variable (nfa : Automaton) (symbols : List Char) (closures : Closures)

/-- Adds a state for a set, under its joint name with as many marks as make it unused, and puts the
set into the queue. -/
def enqueue (x : Exploration) (s : StateSet) : Option Exploration := do
  let name := Naming.unused x.dfa.names (s.name nfa)
  let dfa ← (x.dfa.addState name (s.toList.any nfa.isAccepting)).toOption
  return { x with
    dfa
    ids := x.ids ++ [(s, x.dfa.nextId)]
    queue := x.queue ++ [s]
    queued := x.queued ++ [s] }

/-- Records a move and whether it left a member stuck. -/
def record (x : Exploration) (m : RecordedMove) (stuck : Bool) : Exploration :=
  { x with moves := x.moves ++ [m], stuck := x.stuck || stuck }

/-- Tries a symbol on a set. A set that is reached for the first time gets a state. -/
def tryMove (current : StateSet) (source : StateId) (x : Exploration) (c : Char) :
    Option Exploration :=
  let move := Move.of nfa closures current c
  if move.states.isEmpty then
    some (x.record ⟨source, c, none⟩ move.stuck)
  else
    match x.ids.lookup move.states with
    | some target => some (x.record ⟨source, c, some target⟩ move.stuck)
    | none => do
      let next ← x.enqueue nfa move.states
      return next.record ⟨source, c, some x.dfa.nextId⟩ move.stuck

/-- Takes the oldest set from the queue and tries every symbol on it. -/
def round (x : Exploration) : Option Exploration :=
  match x.queue with
  | [] => some x
  | current :: rest => do
    let source ← x.ids.lookup current
    symbols.foldlM (tryMove nfa closures current source) { x with queue := rest }

/-- The construction from the closure of a state after a number of rounds. -/
def after (q : StateId) : Nat → Option Exploration
  | 0 => enqueue nfa ⟨.new nfa.alphabet, [], [], [], [], false⟩ (closures.ofState q)
  | rounds + 1 => do
    let x ← after q rounds
    x.round nfa symbols closures

/-- Adds the edge for a symbol from a state back to it. -/
def addLoop (q : StateId) (dfa : Automaton) (c : Char) : Option Automaton :=
  (dfa.replaceEdges q c q).toOption

/-- Adds a state that every symbol leads back to. -/
def addTrap (dfa : Automaton) : Option Automaton := do
  let name := Naming.unused dfa.names trapName
  let trapped ← (dfa.addState name false).toOption
  symbols.foldlM (addLoop dfa.nextId) trapped

/-- Adds the edge of a move, to the trap if no set was reached. -/
def addMove (trap : Option StateId) (dfa : Automaton) (m : RecordedMove) : Option Automaton :=
  match m.target.or trap with
  | none => some dfa
  | some target => (dfa.replaceEdges m.source m.symbol target).toOption

/-- The automaton of the sets found, with a trap if some member was stuck. -/
def withTrap (x : Exploration) : Option (Automaton × Option StateId) :=
  if x.stuck then (addTrap symbols x.dfa).map fun dfa => (dfa, some x.dfa.nextId)
  else some (x.dfa, none)

/-- The deterministic automaton, once all moves have been tried. -/
def complete (x : Exploration) : Option SubsetAutomaton := do
  let (dfa, trap) ← x.withTrap symbols
  let dfa ← x.moves.foldlM (addMove trap) dfa
  return ⟨dfa, x.ids.map (·.1), trap⟩

end Steps

/-! ## What has been found -/

/-- The states of the sets found so far. -/
def ofFound (nfa : Automaton) (found : List StateSet) : Automaton where
  alphabet := nfa.alphabet
  states := subsetStates nfa found
  edges := ∅
  start := if found = [] then none else some 0
  nextId := found.length

/-- The record of a move when these sets have been found. -/
def recordOf (found : List StateSet) (m : NumberedMove) : RecordedMove where
  source := m.source
  symbol := m.symbol
  target := if m.move.states.isEmpty then none else some (found.idxOf m.move.states)

/-- The exploration that has found these sets, the last of which wait, and has tried these moves. -/
def snapshot (nfa : Automaton) (found waiting : List StateSet) (moves : List NumberedMove) :
    Exploration where
  dfa := ofFound nfa found
  ids := found.zipIdx
  queue := waiting
  queued := found
  moves := moves.map (recordOf found)
  stuck := moves.any (·.move.stuck)

/-- The sets that moves lead to have been found. -/
def TargetsFound (found : List StateSet) (moves : List NumberedMove) : Prop :=
  ∀ m ∈ moves, m.move.states.isEmpty = false → m.move.states ∈ found

variable {nfa : Automaton} {symbols : List Char} {closures : Closures} {q : StateId}
  {found waiting more : List StateSet} {moves : List NumberedMove} {s : StateSet} {c : Char}
  {i : StateId}

/-- Finding more sets does not change what has been recorded. -/
theorem TargetsFound.map_recordOf (h : TargetsFound found moves) :
    moves.map (recordOf (found ++ more)) = moves.map (recordOf found) := by
  refine List.map_congr_left fun m hm => ?_
  unfold recordOf
  split
  next => rfl
  next hne => rw [List.idxOf_append_of_mem (h m hm (by simpa using hne))]

theorem names_ofFound (nfa : Automaton) (found : List StateSet) :
    (ofFound nfa found).names = Naming.distinct (found.map (·.name nfa)) := by
  change (subsetStates nfa found).map (·.name) = _
  rw [subsetStates_eq, names_numberedStates (by simp)]

/-- The state of one more set is the next one. -/
theorem addState_ofFound (nfa : Automaton) (found : List StateSet) (s : StateSet) :
    (ofFound nfa found).addState (Naming.unused (ofFound nfa found).names (s.name nfa))
      (s.toList.any nfa.isAccepting) = .ok (ofFound nfa (found ++ [s])) := by
  refine Automaton.addState_eq_ok_iff.mpr ⟨Naming.unused_not_mem _ _, ?_⟩
  have hstates : subsetStates nfa (found ++ [s]) =
      subsetStates nfa found ++ [⟨found.length,
        Naming.unused (ofFound nfa found).names (s.name nfa), s.toList.any nfa.isAccepting⟩] := by
    rw [subsetStates_eq, subsetStates_eq, List.map_append,
      List.map_singleton, Naming.distinct_concat, numberedStates_concat (by simp), names_ofFound]
  have hstart : (if found = [] then none else some 0).or (some found.length) = some 0 := by
    cases found <;> rfl
  simp [Automaton.insertState, ofFound, hstates, hstart]

theorem enqueue_snapshot (hmoves : TargetsFound found moves) (s : StateSet) :
    (snapshot nfa found waiting moves).enqueue nfa s =
      some (snapshot nfa (found ++ [s]) (waiting ++ [s]) moves) := by
  have hadd := addState_ofFound nfa found s
  simp only [enqueue, snapshot, hadd, Except.toOption, hmoves.map_recordOf, List.zipIdx_append]
  simp [ofFound]

/-- The state of a set is its position among the sets found. -/
theorem lookup_zipIdx (found : List StateSet) (s : StateSet) (k : Nat) :
    (found.zipIdx k).lookup s = if s ∈ found then some (k + found.idxOf s) else none := by
  induction found generalizing k with
  | nil => rfl
  | cons t found ih =>
    rw [List.zipIdx_cons, List.lookup_cons, ih, List.idxOf_cons]
    by_cases hst : s = t
    · simp [hst]
    · have hbeq : (s == t) = false := beq_eq_false_iff_ne.mpr hst
      have hbeq' : (t == s) = false := beq_eq_false_iff_ne.mpr (Ne.symm hst)
      simp [hst, hbeq, hbeq', Nat.add_assoc, Nat.add_comm 1]

theorem record_snapshot (m : NumberedMove) :
    (snapshot nfa found waiting moves).record (recordOf found m) m.move.stuck =
      snapshot nfa found waiting (moves ++ [m]) := by
  simp [record, snapshot]

/-- The set that a tried symbol leads to is found by then. -/
theorem TargetsFound.tryMove (h : TargetsFound found moves) (s : StateSet) (i : StateId)
    (c : Char) :
    TargetsFound (found ++ Search.unseen found (successors nfa [c] closures s))
      (moves ++ [⟨i, c, Move.of nfa closures s c⟩]) := by
  intro m hm hne
  by_cases hfound : m.move.states ∈ found
  · exact List.mem_append_left _ hfound
  · rcases List.mem_append.mp hm with hm | hm
    · exact absurd (h m hm hne) hfound
    · cases List.mem_singleton.mp hm
      refine List.mem_append_right _ (Search.mem_unseen.mpr ⟨?_, hfound⟩)
      exact mem_successors_iff.mpr ⟨c, List.mem_singleton_self c, rfl, hne⟩

theorem tryMove_snapshot (hmoves : TargetsFound found moves) (s : StateSet) (i : StateId)
    (c : Char) :
    tryMove nfa closures s i (snapshot nfa found waiting moves) c =
      some (snapshot nfa
        (found ++ Search.unseen found (successors nfa [c] closures s))
        (waiting ++ Search.unseen found (successors nfa [c] closures s))
        (moves ++ [⟨i, c, Move.of nfa closures s c⟩])) := by
  have hids : (snapshot nfa found waiting moves).ids = found.zipIdx 0 := rfl
  have hnext : (snapshot nfa found waiting moves).dfa.nextId = found.length := rfl
  simp only [tryMove, successors, hids, hnext, lookup_zipIdx, Nat.zero_add,
    List.map_singleton, enqueue_snapshot hmoves, Option.bind_eq_bind, Option.bind_some,
    ← record_snapshot]
  generalize Move.of nfa closures s c = move
  cases hempty : move.states.isEmpty with
  | true => simp [hempty, recordOf, Search.unseen]
  | false =>
    by_cases hfound : move.states ∈ found
    · simp [hempty, hfound, recordOf, Search.unseen]
    · simp [hempty, hfound, recordOf, Search.unseen, List.idxOf_append_of_notMem]

/-- Trying all symbols on a set finds the sets that it leads to. -/
theorem foldlM_tryMove (hmoves : TargetsFound found moves) (s : StateSet) (i : StateId) :
    symbols.foldlM (tryMove nfa closures s i) (snapshot nfa found waiting moves) =
      some (snapshot nfa
        (found ++ Search.unseen found (successors nfa symbols closures s))
        (waiting ++ Search.unseen found (successors nfa symbols closures s))
        (moves ++ symbols.map fun c => ⟨i, c, Move.of nfa closures s c⟩)) := by
  induction symbols generalizing found waiting moves with
  | nil => simp [successors, Search.unseen]
  | cons c symbols ih =>
    have hsuccessors : successors nfa (c :: symbols) closures s =
        successors nfa [c] closures s ++
          successors nfa symbols closures s :=
      List.filter_append [(Move.of nfa closures s c).states] _
    rw [List.foldlM_cons, tryMove_snapshot hmoves, hsuccessors, Search.unseen_append]
    refine (ih (hmoves.tryMove s i c)).trans ?_
    simp only [List.append_assoc, List.map_cons, List.singleton_append]

/-! ## Rounds -/

/-- The exploration that has got as far as a search. -/
def ofSearch (nfa : Automaton) (symbols : List Char) (closures : Closures)
    (s : Search StateSet) : Exploration :=
  snapshot nfa s.found s.waiting (movesOf nfa symbols closures s.expanded)

theorem movesOf_concat (found : List StateSet) (s : StateSet) :
    movesOf nfa symbols closures (found ++ [s]) =
      movesOf nfa symbols closures found ++
        symbols.map fun c => ⟨found.length, c, Move.of nfa closures s c⟩ := by
  simp [movesOf, List.zipIdx_append]

section Within

variable {all : List StateSet} {t : Search StateSet}
  (ht : t.Within all (successors nfa symbols closures))

include ht

theorem targetsFound_movesOf :
    TargetsFound t.found (movesOf nfa symbols closures t.expanded) := by
  intro m hm hne
  obtain ⟨s, hs, hc, hmove⟩ := mem_movesOf_iff.mp hm
  refine ht.next_subset s (List.mem_of_getElem? hs) ?_
  exact mem_successors_iff.mpr ⟨m.symbol, hc, hmove ▸ rfl, hne⟩

/-- A round takes the exploration as far as the next step of the search. -/
theorem round_ofSearch : (ofSearch nfa symbols closures t).round nfa symbols closures =
    some (ofSearch nfa symbols closures
      (t.step (successors nfa symbols closures))) := by
  have hmoves := targetsFound_movesOf ht
  cases hw : t.waiting with
  | nil =>
    rw [Search.step_of_waiting hw, ofSearch, round]
    simp only [snapshot, hw]
  | cons s rest =>
    have hfound : t.found = t.expanded ++ s :: rest := by rw [Search.found, hw]
    have hs : s ∉ t.expanded := by
      have hnodup := ht.nodup
      rw [hfound] at hnodup
      exact fun hs => List.disjoint_of_nodup_append hnodup hs List.mem_cons_self
    have hlookup : (t.found.zipIdx 0).lookup s = some t.expanded.length := by
      rw [lookup_zipIdx, if_pos (by simp [hfound]), hfound, List.idxOf_append_of_notMem hs,
        List.idxOf_cons_self, Nat.zero_add, Nat.add_zero]
    rw [ofSearch, round]
    simp only [snapshot, hw, hlookup, Option.bind_eq_bind, Option.bind_some]
    refine (foldlM_tryMove hmoves s t.expanded.length).trans ?_
    rw [ofSearch, Search.found_step hw]
    simp only [Search.step, hw, movesOf_concat]

end Within

/-- The search for the sets from the closure of a state after a number of steps. -/
abbrev searchAfter (nfa : Automaton) (symbols : List Char) (q : StateId) (steps : Nat) :
    Search StateSet :=
  (Search.start [(Closures.ofAutomaton nfa).ofState q]).run
    (successors nfa symbols (.ofAutomaton nfa)) steps

theorem after_eq (hn : nfa.WellFormed) (rounds : Nat) :
    after nfa symbols (.ofAutomaton nfa) q rounds =
      some (ofSearch nfa symbols (.ofAutomaton nfa) (searchAfter nfa symbols q rounds)) := by
  induction rounds with
  | zero =>
    have hnone : TargetsFound [] [] := fun m hm => absurd hm List.not_mem_nil
    exact enqueue_snapshot hnone _
  | succ rounds ih =>
    have hwithin := Search.run_induction
      (fun _ h => h.step (successors_subset_stateSets symbols hn)) rounds
      (Search.within_start (closure_subset_stateSets (q := q) hn))
    rw [after, ih, searchAfter, searchAfter, Search.run_succ]
    exact round_ofSearch hwithin

/-! ## Completion -/

theorem complete_eq_some {x : Exploration} {first last : Automaton} {trap : Option StateId}
    (htrap : x.withTrap symbols = some (first, trap))
    (hmoves : x.moves.foldlM (addMove trap) first = some last) :
    x.complete symbols = some ⟨last, x.ids.map (·.1), trap⟩ := by
  simp only [complete, htrap, hmoves, Option.bind_eq_bind, Option.bind_some, Option.pure_def]

theorem edge?_eq_map (found : List StateSet) (trap : Option StateId) (m : NumberedMove) :
    edge? found trap m =
      ((recordOf found m).target.or trap).map fun t => ⟨m.source, .symbol m.symbol, t⟩ := by
  unfold edge? recordOf
  split <;> rfl

section Started

variable (hn : nfa.WellFormed) (hq : nfa.start = some q)

/-- The moves of all sets that the construction finds. -/
abbrev allMoves (nfa : Automaton) (symbols : List Char) : List NumberedMove :=
  movesOf nfa symbols (.ofAutomaton nfa) (inOrder nfa symbols).subsets

include hq

theorem edges_inOrder : (inOrder nfa symbols).dfa.edges =
    .ofList ((inOrder nfa symbols).trap.toList.flatMap (trapEdges symbols) ++
      (allMoves nfa symbols).filterMap
        (edge? (inOrder nfa symbols).subsets (inOrder nfa symbols).trap)) := by
  refine OrderedSet.ext fun e => ?_
  simp only [allMoves, inOrder, hq, Option.toList_map, List.flatMap_map, OrderedSet.mem_ofList,
    List.mem_append, or_comm]

/-- A trap has the first number after those of the sets. -/
theorem trap_inOrder : (inOrder nfa symbols).trap =
    if (allMoves nfa symbols).any (·.move.stuck) then some (inOrder nfa symbols).subsets.length
    else none := by
  simp only [allMoves, inOrder, hq, trapState?]
  split
  next => rw [Option.map_some, subsetStates_eq, length_numberedStates (by simp)]
  next => rfl

variable (symbols) in
theorem subsets_ne_nil : (inOrder nfa symbols).subsets ≠ [] := by
  intro hnil
  have hzero : (inOrder nfa symbols).subsets[0]? = some _ := getElem?_zero_subsets hq
  simp [hnil] at hzero

/-- Without a trap all states are those of the sets. -/
theorem ofFound_inOrder (hstuck : (allMoves nfa symbols).any (·.move.stuck) = false) :
    ofFound nfa (inOrder nfa symbols).subsets = (inOrder nfa symbols).dfa.withEdges [] := by
  have hne := subsets_ne_nil symbols hq
  have hnone : OrderedSet.ofList ([] : List Edge) = ∅ := rfl
  simp only [allMoves, inOrder, hq] at hstuck hne ⊢
  simp [Automaton.withEdges, ofFound, trapState?, hstuck, hne, hnone, subsetStates_eq,
    length_numberedStates]

/-- The trap gets an unused name, whatever the names of the sets are. -/
theorem addState_trap (hstuck : (allMoves nfa symbols).any (·.move.stuck) = true) :
    let built := ofFound nfa (inOrder nfa symbols).subsets
    built.addState (Naming.unused built.names trapName) false =
      .ok ((inOrder nfa symbols).dfa.withEdges []) := by
  refine Automaton.addState_eq_ok_iff.mpr ⟨Naming.unused_not_mem _ _, ?_⟩
  have hne := subsets_ne_nil symbols hq
  have hnone : OrderedSet.ofList ([] : List Edge) = ∅ := rfl
  simp only [allMoves, inOrder, hq] at hstuck hne ⊢
  simp [Automaton.withEdges, Automaton.insertState, Automaton.names, ofFound, trapState?, hstuck,
    hne, hnone, subsetStates_eq, length_numberedStates]

include hn

variable (hsymbols : ∀ c ∈ symbols, c ∈ nfa.alphabet)

include hsymbols

/-- The trap gets the edges that it has in the deterministic automaton. -/
theorem addTrap_inOrder (hstuck : (allMoves nfa symbols).any (·.move.stuck) = true) :
    addTrap symbols (ofFound nfa (inOrder nfa symbols).subsets) =
      some ((inOrder nfa symbols).dfa.withEdges
        (trapEdges symbols (inOrder nfa symbols).subsets.length)) := by
  have hdet : (inOrder nfa symbols).dfa.Deterministic := deterministic_inOrder_of_start hq
  have htrap := (trap_inOrder hq).trans (if_pos hstuck)
  have hfold : symbols.foldlM (addLoop (inOrder nfa symbols).subsets.length)
      ((inOrder nfa symbols).dfa.withEdges []) =
        some ((inOrder nfa symbols).dfa.withEdges ([] ++ symbols.filterMap (some ∘ fun c =>
          ⟨(inOrder nfa symbols).subsets.length, .symbol c,
            (inOrder nfa symbols).subsets.length⟩))) := by
    refine hdet.foldlM_withEdges (wellFormed_inOrder hn hsymbols) ?_ ?_
      (fun e he => absurd he List.not_mem_nil)
    · intro c _ b hnone
      cases hnone
    · intro c hc b e he
      cases he
      exact ⟨(mem_edges_inOrder_iff hq).mpr ⟨c, hc, rfl, .inr ⟨htrap, rfl⟩⟩, _, c, _, rfl, rfl⟩
  rw [List.filterMap_eq_map, List.nil_append] at hfold
  simp only [addTrap, addState_trap hq hstuck, Except.toOption, Option.bind_eq_bind,
    Option.bind_some]
  exact hfold

/-- The recorded moves become the edges that the deterministic automaton has. -/
theorem foldlM_addMove {edges : List Edge}
    (hedges : ∀ e ∈ edges, e ∈ (inOrder nfa symbols).dfa.edges) :
    ((allMoves nfa symbols).map (recordOf (inOrder nfa symbols).subsets)).foldlM
        (addMove (inOrder nfa symbols).trap) ((inOrder nfa symbols).dfa.withEdges edges) =
      some ((inOrder nfa symbols).dfa.withEdges (edges ++ (allMoves nfa symbols).filterMap
        (edge? (inOrder nfa symbols).subsets (inOrder nfa symbols).trap))) := by
  have hdet : (inOrder nfa symbols).dfa.Deterministic := deterministic_inOrder_of_start hq
  rw [List.foldlM_map]
  refine hdet.foldlM_withEdges (wellFormed_inOrder hn hsymbols) ?_ ?_ hedges
  · intro m _ b hnone
    rw [edge?_eq_map, Option.map_eq_none_iff] at hnone
    simp only [addMove, hnone]
  · intro m hm b e he
    obtain ⟨s, hs, hc, hmove⟩ := mem_movesOf_iff.mp hm
    obtain ⟨i, label, t⟩ := e
    obtain ⟨rfl, rfl, htarget⟩ := edge?_eq_some_iff.mp he
    rw [edge?_eq_map] at he
    obtain ⟨_, ht, hedge⟩ := Option.map_eq_some_iff.mp he
    cases hedge
    refine ⟨?_, m.source, m.symbol, t, rfl, ?_⟩
    · refine (mem_edges_inOrder_iff hq).mpr ⟨m.symbol, hc, rfl, .inl ⟨s, hs, ?_⟩⟩
      rwa [← hmove]
    · simp only [addMove, ht]
      rfl

theorem withTrap_snapshot :
    (snapshot nfa (inOrder nfa symbols).subsets [] (allMoves nfa symbols)).withTrap symbols =
      some ((inOrder nfa symbols).dfa.withEdges
        ((inOrder nfa symbols).trap.toList.flatMap (trapEdges symbols)),
          (inOrder nfa symbols).trap) := by
  rw [trap_inOrder hq]
  cases hstuck : (allMoves nfa symbols).any (·.move.stuck) with
  | true =>
    have hadd := addTrap_inOrder hn hq hsymbols hstuck
    have hnext : (ofFound nfa (inOrder nfa symbols).subsets).nextId =
        (inOrder nfa symbols).subsets.length := rfl
    simp [withTrap, snapshot, hstuck, hadd, hnext]
  | false =>
    have hbegin := ofFound_inOrder hq hstuck
    simp [withTrap, snapshot, hstuck, hbegin]

/-- Completing the exploration that has found everything gives the subset construction. -/
theorem complete_snapshot :
    (snapshot nfa (inOrder nfa symbols).subsets [] (allMoves nfa symbols)).complete symbols =
      some (inOrder nfa symbols) := by
  have htrapEdges : ∀ e ∈ (inOrder nfa symbols).trap.toList.flatMap (trapEdges symbols),
      e ∈ (inOrder nfa symbols).dfa.edges := by
    intro e he
    rw [edges_inOrder hq]
    exact OrderedSet.mem_ofList.mpr (List.mem_append_left _ he)
  have hmoves := foldlM_addMove hn hq hsymbols htrapEdges
  have hids : (snapshot nfa (inOrder nfa symbols).subsets [] (allMoves nfa symbols)).ids.map (·.1) =
      (inOrder nfa symbols).subsets := List.zipIdx_map_fst 0 _
  rw [complete_eq_some (withTrap_snapshot hn hq hsymbols) hmoves, hids, Automaton.withEdges,
    ← edges_inOrder hq]

omit hsymbols

variable (symbols)

/-- There are fewer sets than sets of states, since the empty one is not among them. -/
theorem length_subsets_lt : (inOrder nfa symbols).subsets.length < 2 ^ nfa.size := by
  have hnodup : (∅ :: (inOrder nfa symbols).subsets).Nodup := by
    refine List.nodup_cons.mpr ⟨fun hempty => ?_, nodup_subsets hq⟩
    exact (exists_word_of_mem_subsets hn hq hempty).1 rfl
  have hsubset : ∅ :: (inOrder nfa symbols).subsets ⊆ stateSets nfa := by
    refine List.cons_subset.mpr ⟨mem_stateSets fun r hr => absurd hr OrderedSet.not_mem_empty, ?_⟩
    exact fun s hs => mem_stateSets (mem_of_mem_subsets hn hq hs)
  have hlength := hnodup.length_le_of_subset hsubset
  rwa [length_stateSets] at hlength

section Rounds

variable (rounds : Nat)

/-- An exploration is over after as many rounds as there are sets. -/
theorem waiting_searchAfter_iff : (searchAfter nfa symbols q rounds).waiting = [] ↔
    (inOrder nfa symbols).subsets.length ≤ rounds := by
  rw [subsets_inOrder hq]
  exact Search.waiting_run_eq_nil_iff (closure_subset_stateSets hn)
    (successors_subset_stateSets symbols hn) (length_stateSets nfa).le

theorem found_searchAfter (h : (inOrder nfa symbols).subsets.length ≤ rounds) :
    (searchAfter nfa symbols q rounds).found = (inOrder nfa symbols).subsets := by
  rw [subsets_inOrder hq] at h ⊢
  exact Search.found_run_of_le (closure_subset_stateSets hn)
    (successors_subset_stateSets symbols hn) (length_stateSets nfa).le h

theorem found_searchAfter_prefix :
    (searchAfter nfa symbols q rounds).found <+: (inOrder nfa symbols).subsets := by
  rw [← found_searchAfter symbols hn hq (rounds + (inOrder nfa symbols).subsets.length)
    (Nat.le_add_left _ _), searchAfter, searchAfter, Search.run_add]
  exact Search.found_prefix_run _

/-- When the exploration is over, all moves of all sets have been tried. -/
theorem ofSearch_searchAfter (h : (inOrder nfa symbols).subsets.length ≤ rounds) :
    ofSearch nfa symbols (.ofAutomaton nfa) (searchAfter nfa symbols q rounds) =
      snapshot nfa (inOrder nfa symbols).subsets [] (allMoves nfa symbols) := by
  have hwaiting := (waiting_searchAfter_iff symbols hn hq rounds).mpr h
  have hfound := found_searchAfter symbols hn hq rounds h
  have hexpanded := hfound
  rw [Search.found, hwaiting, List.append_nil] at hexpanded
  rw [ofSearch, hfound, hwaiting, hexpanded]

end Rounds

end Started

/-- What an exploration that is over has done. -/
structure IsOver (x : Exploration) (nfa : Automaton) (symbols : List Char) : Prop where
  queued_eq : x.queued = (inOrder nfa symbols).subsets
  ids_eq : x.ids = x.queued.zipIdx
  /-- Every symbol has been tried once on every set. -/
  moves_eq : x.moves.map (fun m => (m.source, m.symbol)) = List.range x.queued.length ×ˢ symbols
  complete_eq : x.complete symbols = some (inOrder nfa symbols)

theorem map_recordOf_movesOf (found subsets : List StateSet) :
    ((movesOf nfa symbols closures subsets).map (recordOf found)).map
        (fun m => (m.source, m.symbol)) = List.range subsets.length ×ˢ symbols := by
  have hsources : subsets.zipIdx.map (·.2) = List.range subsets.length := by
    rw [List.range_eq_range']
    exact List.zipIdx_map_snd 0 subsets
  rw [← hsources, movesOf, List.map_map, List.map_flatMap]
  simp only [List.map_map, SProd.sprod, List.product, List.flatMap_map]
  rfl

theorem isOver_snapshot (hn : nfa.WellFormed) (hq : nfa.start = some q)
    (hsymbols : ∀ c ∈ symbols, c ∈ nfa.alphabet) :
    (snapshot nfa (inOrder nfa symbols).subsets [] (allMoves nfa symbols)).IsOver nfa symbols where
  queued_eq := rfl
  ids_eq := rfl
  moves_eq := map_recordOf_movesOf _ _
  complete_eq := complete_snapshot hn hq hsymbols

theorem subsetCount_lt (hn : nfa.WellFormed) (symbols : List Char) :
    (inOrder nfa symbols).subsetCount < 2 ^ nfa.size := by
  cases hq : nfa.start with
  | none =>
    rw [inOrder_of_start_eq_none hq]
    exact Nat.two_pow_pos nfa.size
  | some q => exact length_subsets_lt symbols hn hq

theorem stateCount_le (hn : nfa.WellFormed) (symbols : List Char) :
    (inOrder nfa symbols).stateCount ≤ 2 ^ nfa.size := by
  cases hq : nfa.start with
  | none =>
    rw [inOrder_of_start_eq_none hq]
    exact Nat.zero_le _
  | some q =>
    have hcount : (inOrder nfa symbols).stateCount =
        (inOrder nfa symbols).subsetCount + if (inOrder nfa symbols).hasTrap then 1 else 0 :=
      stateCount_inOrder hq
    have hlt := subsetCount_lt hn symbols
    split at hcount <;> omega

/-- The rounds of the subset construction come to an end: no step fails, whatever the states are
called, and every set is put into the queue once. There are as many rounds as sets, which are fewer
than there are sets of states, and then the moves of all sets have been tried. -/
theorem explores_inOrder (hn : nfa.Built) (hsymbols : ∀ c ∈ symbols, c ∈ nfa.alphabet) :
    (∀ q, nfa.start = some q → ∀ rounds, ∃ x,
      after nfa symbols (.ofAutomaton nfa) q rounds = some x ∧
        x.queued.Nodup ∧ x.queued.length ≤ 2 ^ nfa.size - 1 ∧
        (x.queue = [] ↔ (inOrder nfa symbols).subsetCount ≤ rounds) ∧
        (x.queue = [] → x.IsOver nfa symbols)) ∧
    (inOrder nfa symbols).subsetCount ≤ 2 ^ nfa.size - 1 ∧
    (inOrder nfa symbols).stateCount ≤ 2 ^ nfa.size := by
  have hw := hn.wellFormed
  refine ⟨?_, Nat.le_sub_one_of_lt (subsetCount_lt hw symbols), stateCount_le hw symbols⟩
  intro q hq rounds
  have hprefix := found_searchAfter_prefix symbols hw hq rounds
  have hnodup : (inOrder nfa symbols).subsets.Nodup := nodup_subsets hq
  have hwaiting := waiting_searchAfter_iff symbols hw hq rounds
  refine ⟨_, after_eq hw rounds, hnodup.sublist hprefix.sublist, ?_, hwaiting, ?_⟩
  · exact hprefix.length_le.trans (Nat.le_sub_one_of_lt (subsetCount_lt hw symbols))
  · intro hqueue
    rw [ofSearch_searchAfter symbols hw hq rounds (hwaiting.mp hqueue)]
    exact isOver_snapshot hw hq hsymbols

/-- States that are called like a set of others and like the trap. -/
def misnamed : Automaton := .ofEdits (.ofSymbols ['a', 'b'])
  [.addState "p" false, .addState "q" false, .addState "r" true, .addState "q-r" false,
    .addState "trap" true, .addEdge 0 (.symbol 'a') 1, .addEdge 0 (.symbol 'a') 2,
    .addEdge 0 (.symbol 'b') 3, .addEdge 3 (.symbol 'a') 4]

theorem explores_inOrder_misnamed :
    (∃ x, after misnamed ['b', 'a'] (.ofAutomaton misnamed) 0 4 = some x ∧ x.queue = [] ∧
      x.queued.Nodup ∧ x.moves.length = 8 ∧
      x.complete ['b', 'a'] = some (inOrder misnamed ['b', 'a'])) ∧
    (inOrder misnamed ['b', 'a']).dfa.names = ["p", "q-r", "q-r'", "trap", "trap'"] ∧
    (inOrder misnamed ['b', 'a']).stateCount ≤ 2 ^ 5 := by
  have hsymbols : ∀ c ∈ ['b', 'a'], c ∈ misnamed.alphabet := by
    rw [List.forall_mem_cons, List.forall_mem_singleton]
    decide
  have hbuilt : misnamed.Built := Automaton.built_ofEdits _ _
  obtain ⟨hrounds, _, hstates⟩ := explores_inOrder hbuilt hsymbols
  obtain ⟨x, hx, hnodup, _, hqueue, hover⟩ := hrounds 0 (by decide) 4
  have hempty : x.queue = [] := hqueue.mpr (by decide)
  obtain ⟨hqueued, _, hmoves, hcomplete⟩ := hover hempty
  have hlength : x.queued.length = 4 := by
    rw [hqueued]
    decide
  refine ⟨⟨x, hx, hempty, hnodup, ?_, hcomplete⟩, by decide, hstates⟩
  rw [← List.length_map (fun m => (m.source, m.symbol)), hmoves, hlength]
  rfl

end Exploration

end FiniteState
