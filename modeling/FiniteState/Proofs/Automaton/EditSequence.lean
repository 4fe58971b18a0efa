import FiniteState.Proofs.Automaton.Built
import FiniteState.Proofs.Automaton.Representation

/-! # Sequences of edits

Whatever edits are asked for, in whatever order and however many of them fail, the automaton they
build is consistent: names and ids determine each other, edges join known states with symbols of
the alphabet, and there is a start as soon as there is a state. New states get ascending ids, so
none gets the id of a state removed before, and generated names are unused.
-/

namespace FiniteState.Automaton

variable {a b : Automaton} {request : Edit}

/-! ## Consistency -/

/-- What all uses of an automaton rely on. -/
structure Consistent (a : Automaton) : Prop where
  ids_nodup : a.ids.Nodup
  names_nodup : a.names.Nodup
  /-- A name leads to an id exactly if the state with this id has the name. -/
  idOf?_eq_some_iff : ∀ name q, a.idOf? name = some q ↔ a.name? q = some name
  /-- Exactly the states have names. -/
  exists_name_iff : ∀ q, (∃ name, a.name? q = some name) ↔ q ∈ a
  symbol_mem : ∀ e ∈ a.edges, ∀ c, e.label = .symbol c → c ∈ a.alphabet
  ends_mem : ∀ e ∈ a.edges, e.source ∈ a ∧ e.target ∈ a
  /-- A label that leaves a state leads somewhere. -/
  targets_ne_nil : ∀ q, ∀ label ∈ (a.edgesFrom q).map (·.label), a.targets q label ≠ []
  start_eq_none_iff : a.start = none ↔ a.isEmpty = true
  start_mem : ∀ q ∈ a.start, q ∈ a
  lt_nextId : ∀ q ∈ a, q < a.nextId
  /-- Adding a state under the generated name does not fail. -/
  addState_numberedName : a.numberedName ∉ a.names ∧ ∀ accepting,
    a.addState a.numberedName accepting = .ok (a.addNumbered accepting)
  /-- Adding a state under a name that leads to no id does not fail. -/
  addState_of_idOf?_eq_none : ∀ name, a.idOf? name = none →
    a.addState name false = .ok (a.addUnlessNamed name)

theorem WellFormed.consistent (ha : a.WellFormed) : a.Consistent where
  ids_nodup := ha.nodup_ids
  names_nodup := ha.names_nodup
  idOf?_eq_some_iff name q := by rw [ha.idOf?_eq_some_iff, ha.name?_eq_some_iff]
  exists_name_iff q := by
    simp only [ha.name?_eq_some_iff, mem_iff]
    constructor
    · intro h
      obtain ⟨name, accepting, hs⟩ := h
      exact ⟨_, hs, rfl⟩
    · intro h
      obtain ⟨s, hs, rfl⟩ := h
      exact ⟨s.name, s.accepting, hs⟩
  symbol_mem e he c hlabel := by
    have hallowed := (ha.edges_fit e he).allowed
    rwa [hlabel] at hallowed
  ends_mem e he := ⟨(ha.edges_fit e he).source_mem, (ha.edges_fit e he).target_mem⟩
  targets_ne_nil q label hlabel := by
    obtain ⟨e, he, rfl⟩ := List.mem_map.mp hlabel
    obtain ⟨hmem, rfl⟩ := (mem_edgesFrom a).mp he
    exact List.ne_nil_of_mem ((mem_targets a).mpr hmem)
  start_eq_none_iff := by rw [ha.start_eq_none_iff, isEmpty, List.isEmpty_iff]
  start_mem := ha.start_mem
  lt_nextId := ha.lt_nextId
  addState_numberedName := by
    have hunused : a.numberedName ∉ a.names := Naming.unused_not_mem _ _
    exact ⟨hunused, fun _ => addState_eq_ok_iff.mpr ⟨hunused, rfl⟩⟩
  addState_of_idOf?_eq_none name hname := by
    rw [idOf?_eq_none_iff] at hname
    rw [addUnlessNamed, if_neg hname]
    exact addState_eq_ok_iff.mpr ⟨hname, rfl⟩

/-! ## New ids -/

/-- The id that an edit gives to a new state: its answer, if it succeeds and no state has this id
yet. -/
def newId? (a : Automaton) (request : Edit) : Option StateId :=
  match a.edit request with
  | .ok _ => (a.answer request).filter fun q => q ∉ a
  | .error _ => none

/-- The ids that a sequence of edits gives to new states, in order. -/
def newIds (a : Automaton) : List Edit → List StateId
  | [] => []
  | request :: rest => (a.newId? request).toList ++ (a.after request).newIds rest

/-- An edit that succeeds either adds a state, whose id it answers with, or leaves the next id as it
is and answers with known ids only. -/
theorem nextId_edit_cases (h : a.edit request = .ok b) :
    (a.answer request = some a.nextId ∧ b.nextId = a.nextId + 1) ∨
      (b.nextId = a.nextId ∧ ∀ q ∈ a.answer request, q ∈ a) := by
  have hnone : ∀ q ∈ (none : Option StateId), q ∈ a := fun _ hq => nomatch hq
  cases request with
  | addState name accepting =>
    obtain ⟨_, rfl⟩ := addState_eq_ok_iff.mp h
    exact .inl ⟨rfl, rfl⟩
  | addNumbered accepting =>
    cases h
    exact .inl ⟨rfl, rfl⟩
  | addUnlessNamed name =>
    cases h
    cases hid : a.idOf? name with
    | none =>
      rw [addUnlessNamed, if_neg (idOf?_eq_none_iff.mp hid)]
      exact .inl ⟨by rw [answer, hid, Option.getD_none], rfl⟩
    | some p =>
      rw [addUnlessNamed, if_pos (mem_names_of_idOf? hid)]
      refine .inr ⟨rfl, ?_⟩
      intro q hq
      rw [answer, hid, Option.getD_some] at hq
      cases hq
      exact mem_of_idOf? hid
  | removeState q =>
    obtain ⟨_, _, rfl⟩ := removeState_eq_ok_iff.mp h
    exact .inr ⟨rfl, hnone⟩
  | startAt q =>
    obtain ⟨_, rfl⟩ := startAt_eq_ok_iff.mp h
    exact .inr ⟨rfl, hnone⟩
  | setAccepting q accepting =>
    obtain ⟨_, rfl⟩ := setAccepting_eq_ok_iff.mp h
    exact .inr ⟨rfl, hnone⟩
  | addEdge source label target =>
    obtain ⟨_, rfl⟩ := addEdge_eq_ok_iff.mp h
    exact .inr ⟨rfl, hnone⟩
  | replaceEdges source c target =>
    obtain ⟨_, rfl⟩ := replaceEdges_eq_ok_iff.mp h
    exact .inr ⟨rfl, hnone⟩

/-- An edit either gives the next id to a new state or gives none. -/
theorem WellFormed.newId?_cases (ha : a.WellFormed) (request : Edit) :
    (a.newId? request = some a.nextId ∧ (a.after request).nextId = a.nextId + 1) ∨
      (a.newId? request = none ∧ (a.after request).nextId = a.nextId) := by
  unfold newId? after
  cases hedit : a.edit request with
  | error e => exact .inr ⟨rfl, rfl⟩
  | ok b =>
    rcases nextId_edit_cases hedit with ⟨hanswer, hnext⟩ | ⟨hnext, hknown⟩
    · refine .inl ⟨?_, hnext⟩
      simp [hanswer, Option.filter_some, ha.nextId_not_mem]
    · refine .inr ⟨?_, hnext⟩
      rw [Option.filter_eq_none_iff]
      intro q hq
      simpa using hknown q hq

/-- Ids are given in turn. -/
theorem Built.range_append_newIds (ha : a.Built) (requests : List Edit) :
    List.range a.nextId ++ a.newIds requests = List.range (a.run requests).nextId := by
  induction requests generalizing a with
  | nil => exact List.append_nil _
  | cons request requests ih =>
    have hrest : List.range (a.after request).nextId ++ (a.after request).newIds requests =
        List.range (a.run (request :: requests)).nextId := ih (ha.after request)
    rw [← hrest, newIds, ← List.append_assoc]
    rcases ha.wellFormed.newId?_cases request with ⟨hnew, hnext⟩ | ⟨hnew, hnext⟩
    · rw [hnew, hnext, Option.toList_some, List.range_succ]
    · rw [hnew, hnext, Option.toList_none, List.append_nil]

theorem newIds_new (alphabet : Alphabet) (requests : List Edit) :
    (new alphabet).newIds requests = List.range (ofEdits alphabet requests).nextId :=
  (Built.new alphabet).range_append_newIds requests

/-- A second state of the same name is refused, and the id of a removed state is not given again. -/
example : (new (.ofSymbols ['a'])).newIds [.addState "p" false, .addState "p" true,
    .addState "q" true, .removeState 1, .addNumbered false, .addUnlessNamed "p",
    .addUnlessNamed "q"] = [0, 1, 2, 3] := by decide

/-! ## Results for every sequence -/

theorem Change.alphabet_eq (h : a.Change b) : b.alphabet = a.alphabet := by
  cases h <;> rfl

theorem alphabet_after (request : Edit) : (a.after request).alphabet = a.alphabet := by
  unfold after
  split
  next b hedit => exact (change_of_edit hedit).alphabet_eq
  next => rfl

theorem alphabet_run (requests : List Edit) : (a.run requests).alphabet = a.alphabet := by
  induction requests generalizing a with
  | nil => rfl
  | cons request requests ih =>
    have hrest : ((a.after request).run requests).alphabet = (a.after request).alphabet := ih
    exact hrest.trans (alphabet_after request)

/-- Every sequence of edits builds a consistent automaton over the alphabet. The ids given to new
states ascend, and the states have got theirs in this way. With an index of names and targets kept
by label the same edits can all be performed, have the same replies, and keep the fields in
step. -/
theorem ofEdits_consistent (alphabet : Alphabet) (requests : List Edit) :
    (ofEdits alphabet requests).alphabet = alphabet ∧ (ofEdits alphabet requests).Consistent ∧
      ((new alphabet).newIds requests).Pairwise (· < ·) ∧
      (∀ q ∈ ofEdits alphabet requests, q ∈ (new alphabet).newIds requests) ∧
      ∃ x, (IndexedAutomaton.new alphabet).run requests =
          some ((new alphabet).replies requests, x) ∧
        x.Represents (ofEdits alphabet requests) ∧ x.Consistent := by
  have hw : (ofEdits alphabet requests).WellFormed := (built_ofEdits alphabet requests).wellFormed
  refine ⟨alphabet_run requests, hw.consistent, ?_, ?_, ?_⟩
  · rw [newIds_new]
    exact List.pairwise_lt_range
  · intro q hq
    rw [newIds_new, List.mem_range]
    exact hw.lt_nextId q hq
  · obtain ⟨x, hx, hrepresents⟩ :=
      (IndexedAutomaton.represents_new alphabet).run (wellFormed_new alphabet) requests
    exact ⟨x, hx, hrepresents, hrepresents.consistent hw⟩

end FiniteState.Automaton
