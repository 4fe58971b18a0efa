import FiniteState.Proofs.Automaton.Indexed

/-! # Automata represented by indexed ones

An indexed automaton represents an automaton if it holds the same states under the same names, and
the same edges, without empty sets of targets. Every edit keeps this and is replied to in the same
way, so a sequence of edits has the same replies on both. That the fields of an indexed automaton
stay in step follows from the invariant of the automaton that it represents. Every well-formed
automaton has an indexed form.
-/

namespace FiniteState.IndexedAutomaton

variable {x : IndexedAutomaton} {a : Automaton} {q : StateId} {e : Edge}

/-- The indexed form holds the states and the edges of the automaton, and no empty sets. -/
structure Represents (x : IndexedAutomaton) (a : Automaton) : Prop where
  alphabet_eq : x.alphabet = a.alphabet
  start_eq : x.start = a.start
  nextId_eq : x.nextId = a.nextId
  id_iff : ∀ (name : String) (q : StateId),
    x.idsByName[name]? = some q ↔ ∃ accepting, ⟨q, name, accepting⟩ ∈ a.states
  state_iff : ∀ (q : StateId) (name : String) (accepting : Bool),
    (∃ s, x.states[q]? = some s ∧ s.name = name ∧ s.accepting = accepting) ↔
      ⟨q, name, accepting⟩ ∈ a.states
  edge_iff : ∀ (q : StateId) (label : Label) (t : StateId),
    (∃ s, x.states[q]? = some s ∧ s.Leads label t) ↔ ⟨q, label, t⟩ ∈ a.edges
  trim : ∀ (q : StateId) (s : IndexedState), x.states[q]? = some s → s.Trim

theorem represents_new (alphabet : Alphabet) :
    (new alphabet).Represents (Automaton.new alphabet) where
  alphabet_eq := rfl
  start_eq := rfl
  nextId_eq := rfl
  id_iff := by simp [new, Automaton.new]
  state_iff := by simp [new, Automaton.new]
  edge_iff := by simp [new, Automaton.new]
  trim := by simp [new]

theorem getElem?_states_put {s : IndexedState} {p : StateId} :
    (x.put q s).states[p]? = if q = p then some s else x.states[p]? := by
  simp [put, Std.TreeMap.getElem?_insert]

theorem getElem?_states_insertState {name : String} {accepting : Bool} {p : StateId} :
    (x.insertState name accepting).states[p]? =
      if x.nextId = p then some ⟨name, accepting, ∅⟩ else x.states[p]? := getElem?_states_put

theorem getElem?_states_eraseState {name : String} {p : StateId} {s : IndexedState} :
    (x.eraseState q name).states[p]? = some s ↔
      p ≠ q ∧ ∃ t, x.states[p]? = some t ∧ t.dropTarget q = s := by
  simp only [eraseState, Std.TreeMap.getElem?_map, Std.TreeMap.getElem?_erase, Nat.compare_eq_eq,
    Option.map_eq_some_iff]
  by_cases hp : q = p
  · simp [hp]
  · simp [hp, Ne.symm hp]

namespace Represents

section Changes

variable (h : x.Represents a) (ha : a.WellFormed)

include h

theorem mem_iff : q ∈ a ↔ ∃ s, x.states[q]? = some s := by
  rw [Automaton.mem_iff]
  constructor
  · rintro ⟨⟨_, name, accepting⟩, hs, rfl⟩
    obtain ⟨s, hs, _⟩ := (h.state_iff _ name accepting).mpr hs
    exact ⟨s, hs⟩
  · rintro ⟨s, hs⟩
    exact ⟨_, (h.state_iff q s.name s.accepting).mp ⟨s, hs, rfl, rfl⟩, rfl⟩

theorem startAt : ({ x with start := some q } : IndexedAutomaton).Represents
    { a with start := some q } where
  alphabet_eq := h.alphabet_eq
  start_eq := rfl
  nextId_eq := h.nextId_eq
  id_iff := h.id_iff
  state_iff := h.state_iff
  edge_iff := h.edge_iff
  trim := h.trim

theorem trim_put {s t : IndexedState} {p : StateId} (htrim : t.Trim)
    (hs : (x.put q t).states[p]? = some s) : s.Trim := by
  rw [getElem?_states_put] at hs
  split at hs
  next =>
    cases hs
    exact htrim
  next => exact h.trim p s hs

/-- A state may get other targets, if the edges that leave it change in the same way. -/
theorem put {s t : IndexedState} (hs : x.states[q]? = some s) (hname : t.name = s.name)
    (haccepting : t.accepting = s.accepting) (htrim : t.Trim) {edges : OrderedSet Edge}
    (hedges : ∀ e, e ∈ edges ↔ if q = e.source then t.Leads e.label e.target else e ∈ a.edges) :
    (x.put q t).Represents { a with edges } where
  alphabet_eq := h.alphabet_eq
  start_eq := h.start_eq
  nextId_eq := h.nextId_eq
  id_iff := h.id_iff
  state_iff p n b := by
    rw [← h.state_iff, getElem?_states_put]
    by_cases hp : q = p
    · subst hp
      simp [hs, hname, haccepting]
    · rw [if_neg hp]
  edge_iff p l r := by
    rw [hedges, getElem?_states_put, ← h.edge_iff]
    by_cases hp : q = p
    · subst hp
      simp
    · rw [if_neg hp, if_neg hp]
  trim p r := h.trim_put htrim

theorem link {source target : StateId} (label : Label) {s : IndexedState}
    (hs : x.states[source]? = some s) :
    (x.put source (s.addTarget label target)).Represents (a.link ⟨source, label, target⟩) := by
  refine h.put (t := s.addTarget label target) hs rfl rfl (h.trim _ s hs).addTarget ?_
  rintro ⟨q, l, t⟩
  rw [OrderedSet.mem_insert, ← h.edge_iff, IndexedState.leads_addTarget, Edge.mk.injEq]
  by_cases hq : source = q
  · subst hq
    simp [hs]
  · simp [hq, Ne.symm hq]

theorem relink {source target : StateId} (label : Label) {s : IndexedState}
    (hs : x.states[source]? = some s) :
    (x.put source (s.setTarget label target)).Represents (a.relink ⟨source, label, target⟩) := by
  refine h.put (t := s.setTarget label target) hs rfl rfl (h.trim _ s hs).setTarget ?_
  rintro ⟨q, l, t⟩
  rw [OrderedSet.mem_insert, OrderedSet.mem_filter, decide_eq_true_eq, ← h.edge_iff,
    IndexedState.leads_setTarget, Edge.mk.injEq]
  by_cases hq : source = q
  · subst hq
    simp [hs, and_comm (a := ¬l = label)]
  · simp [hq, Ne.symm hq]

theorem setAccepting {s : IndexedState} (hs : x.states[q]? = some s) (accepting : Bool) :
    (x.put q { s with accepting }).Represents (a.markAccepting q accepting) where
  alphabet_eq := h.alphabet_eq
  start_eq := h.start_eq
  nextId_eq := h.nextId_eq
  id_iff n p := by
    rw [Automaton.exists_mem_states_markAccepting]
    exact h.id_iff n p
  state_iff p n b := by
    rw [Automaton.mem_states_markAccepting, getElem?_states_put]
    split
    next hp =>
      subst hp
      simp only [← h.state_iff, hs]
      simp [and_comm, eq_comm]
    next => exact h.state_iff p n b
  edge_iff p l t := by
    refine Iff.trans ?_ (h.edge_iff p l t)
    rw [getElem?_states_put]
    by_cases hp : q = p
    · subst hp
      simp only [if_true, hs, Option.some.injEq, exists_eq_left']
      rfl
    · rw [if_neg hp]
  trim p t := h.trim_put (h.trim q s hs)

theorem eraseState {s : IndexedState} (hs : x.states[q]? = some s) :
    (x.eraseState q s.name).Represents (a.eraseState q) where
  alphabet_eq := h.alphabet_eq
  start_eq := h.start_eq
  nextId_eq := h.nextId_eq
  id_iff n p := by
    have hname (b : Bool) (hmem : ⟨q, n, b⟩ ∈ a.states) : s.name = n := by
      obtain ⟨t, ht, hn, _⟩ := (h.state_iff q n b).mpr hmem
      cases hs.symm.trans ht
      exact hn
    have hid : x.idsByName[s.name]? = some q :=
      (h.id_iff s.name q).mpr ⟨s.accepting, (h.state_iff _ _ _).mp ⟨s, hs, rfl, rfl⟩⟩
    simp only [IndexedAutomaton.eraseState, Automaton.eraseState, Std.HashMap.getElem?_erase,
      beq_iff_eq, List.mem_filter, decide_eq_true_eq, exists_and_right, ← h.id_iff]
    -- The index forgets the name, which only the removed state has, since it leads to one id.
    by_cases hn : s.name = n
    · subst hn
      simp [hid, eq_comm]
    · rw [if_neg hn]
      refine (and_iff_left_of_imp ?_).symm
      rintro hp rfl
      obtain ⟨b, hmem⟩ := (h.id_iff n p).mp hp
      exact hn (hname b hmem)
  state_iff p n b := by
    simp only [getElem?_states_eraseState, Automaton.eraseState, List.mem_filter,
      decide_eq_true_eq, ← h.state_iff, and_assoc, exists_and_left, exists_exists_and_eq_and]
    exact and_comm
  edge_iff p l t := by
    simp only [getElem?_states_eraseState, Automaton.mem_edges_eraseState, ← h.edge_iff,
      and_assoc, exists_and_left, exists_exists_and_eq_and, IndexedState.leads_dropTarget]
    constructor
    · rintro ⟨hp, s, hs, hl, ht⟩
      exact ⟨⟨s, hs, hl⟩, hp, ht⟩
    · rintro ⟨⟨s, hs, hl⟩, hp, ht⟩
      exact ⟨hp, s, hs, hl, ht⟩
  trim p t ht := by
    obtain ⟨_, s, _, rfl⟩ := getElem?_states_eraseState.mp ht
    exact s.trim_dropTarget q

include ha

theorem getElem?_states_nextId : x.states[x.nextId]? = none := by
  rw [Option.eq_none_iff_forall_ne_some, h.nextId_eq]
  intro s hs
  exact ha.nextId_not_mem (h.mem_iff.mpr ⟨s, hs⟩)

theorem insertState {name : String} (accepting : Bool) (hname : name ∉ a.names) :
    (x.insertState name accepting).Represents (a.insertState name accepting) where
  alphabet_eq := h.alphabet_eq
  start_eq := by simp [IndexedAutomaton.insertState, Automaton.insertState, h.start_eq, h.nextId_eq]
  nextId_eq := congrArg (· + 1) h.nextId_eq
  id_iff n q := by
    have hunused (b : Bool) : ⟨q, name, b⟩ ∉ a.states := fun hs =>
      hname (List.mem_map.mpr ⟨_, hs, rfl⟩)
    simp only [IndexedAutomaton.insertState, Std.HashMap.getElem?_insert, beq_iff_eq,
      Automaton.insertState, List.mem_append, List.mem_singleton, exists_or, ← h.nextId_eq,
      State.mk.injEq]
    by_cases hn : name = n
    · subst hn
      simp [hunused, eq_comm]
    · simp [hn, Ne.symm hn, h.id_iff]
  state_iff q n b := by
    simp only [getElem?_states_insertState, Automaton.insertState, List.mem_append,
      List.mem_singleton, State.mk.injEq, ← h.state_iff, ← h.nextId_eq]
    -- The next id is not in use, so nothing is overwritten.
    by_cases hq : x.nextId = q
    · subst hq
      simp [h.getElem?_states_nextId ha, eq_comm]
    · simp [hq, Ne.symm hq]
  edge_iff q label t := by
    refine Iff.trans ?_ (h.edge_iff q label t)
    rw [getElem?_states_insertState]
    by_cases hq : x.nextId = q
    · subst hq
      simp [h.getElem?_states_nextId ha, IndexedState.Leads]
    · rw [if_neg hq]
  trim q s := h.trim_put (by simp [IndexedState.Trim])

end Changes

/-! ## Replies -/

/-- The same refusal, or the same answer with an automaton that is represented. -/
inductive SameReply (answer : Option StateId) : Reply → Except AutomatonError Automaton → Prop where
  | refused (e : AutomatonError) : SameReply answer (.error e) (.error e)
  | done {x : IndexedAutomaton} {a : Automaton} :
      x.Represents a → SameReply answer (.ok (answer, x)) (.ok a)

variable (h : x.Represents a) (ha : a.WellFormed)

include h ha

theorem stateOf_cases (q : StateId) :
    (∃ s, x.states[q]? = some s ∧ x.stateOf q = .ok s ∧
      a.stateOf q = .ok ⟨q, s.name, s.accepting⟩) ∨
    (x.stateOf q = .error (.unknownId q) ∧ a.stateOf q = .error (.unknownId q)) := by
  unfold stateOf Automaton.stateOf
  cases hs : x.states[q]? with
  | some s =>
    have hstate : a.state? q = some ⟨q, s.name, s.accepting⟩ :=
      ha.state?_eq_some_iff.mpr ⟨(h.state_iff _ _ _).mp ⟨s, hs, rfl, rfl⟩, rfl⟩
    rw [hstate]
    exact .inl ⟨s, rfl, rfl, rfl⟩
  | none =>
    have hstate : a.state? q = none := by
      rw [Option.eq_none_iff_forall_ne_some]
      intro s hsome
      obtain ⟨hmem, rfl⟩ := ha.state?_eq_some_iff.mp hsome
      obtain ⟨t, ht⟩ := h.mem_iff.mp (Automaton.mem_of_mem_states hmem)
      cases hs.symm.trans ht
    rw [hstate]
    exact .inr ⟨rfl, rfl⟩

/-- Looking a state up is refused alike, or finds what is kept of it. -/
theorem stateOf_bind {answer : Option StateId} {f : IndexedState → Reply}
    {g : State → Except AutomatonError Automaton}
    (hfg : ∀ s, x.states[q]? = some s → SameReply answer (f s) (g ⟨q, s.name, s.accepting⟩)) :
    SameReply answer (x.stateOf q >>= f) (a.stateOf q >>= g) := by
  rcases h.stateOf_cases ha q with ⟨s, hs, hxs, has⟩ | ⟨hxs, has⟩
  · rw [hxs, has]
    exact hfg s hs
  · rw [hxs, has]
    exact .refused _

theorem checkEdge_eq (e : Edge) : x.checkEdge e = a.checkEdge e := by
  rw [IndexedAutomaton.checkEdge, Automaton.checkEdge, h.alphabet_eq]
  rcases h.stateOf_cases ha e.source with ⟨s, _, hxs, has⟩ | ⟨hxs, has⟩ <;>
    rcases h.stateOf_cases ha e.target with ⟨t, _, hxt, hat⟩ | ⟨hxt, hat⟩ <;>
      rw [hxs, has, hxt, hat] <;> rfl

/-- An edge is refused alike, or leaves a state that is kept. -/
theorem checkEdge_bind {f : IndexedState → IndexedAutomaton} {b : Automaton}
    (hf : ∀ s, x.states[e.source]? = some s → (f s).Represents b) :
    SameReply none (do
      x.checkEdge e
      let s ← x.stateOf e.source
      return (none, f s)) (do
      a.checkEdge e
      return b) := by
  rw [h.checkEdge_eq ha]
  cases hcheck : a.checkEdge e with
  | error e => exact .refused e
  | ok _ =>
    have hfits := Automaton.checkEdge_eq_ok_iff.mp hcheck
    obtain ⟨s, hs⟩ := h.mem_iff.mp hfits.source_mem
    have hstate : x.stateOf e.source = .ok s := by rw [stateOf, hs]
    change SameReply none (x.stateOf e.source >>= fun s => pure (none, f s)) (.ok b)
    rw [hstate]
    exact .done (hf s hs)

theorem getElem?_idsByName (name : String) : x.idsByName[name]? = a.idOf? name :=
  Option.ext fun q => (h.id_iff name q).trans ha.idOf?_eq_some_iff.symm

theorem mem_idsByName_iff {name : String} : name ∈ x.idsByName ↔ name ∈ a.names := by
  rw [Std.HashMap.mem_iff_isSome_getElem?, h.getElem?_idsByName ha, ← not_iff_not,
    ← Automaton.idOf?_eq_none_iff, Option.not_isSome_iff_eq_none]

theorem addState_of_not_mem {name : String} (accepting : Bool) (hname : name ∉ a.names) :
    x.addState name accepting = .ok (some a.nextId, x.insertState name accepting) := by
  rw [IndexedAutomaton.addState, if_neg (mt (h.mem_idsByName_iff ha).mp hname), h.nextId_eq]

theorem addState (name : String) (accepting : Bool) :
    SameReply (some a.nextId) (x.addState name accepting) (a.addState name accepting) := by
  by_cases hname : name ∈ a.names
  · rw [IndexedAutomaton.addState, if_pos ((h.mem_idsByName_iff ha).mpr hname),
      Automaton.addState, if_pos hname]
    exact .refused _
  · rw [h.addState_of_not_mem ha accepting hname, Automaton.addState, if_neg hname]
    exact .done (h.insertState ha accepting hname)

theorem addNumbered (accepting : Bool) : ∃ reply, x.addNumbered accepting = some reply ∧
    SameReply (some a.nextId) reply (.ok (a.addNumbered accepting)) := by
  have hname : Naming.unused x.idsByName.keys (toString (x.nextId + 1)) = a.numberedName := by
    rw [h.nextId_eq]
    refine Naming.unused_congr (fun n => ?_) _
    rw [Std.HashMap.mem_keys, h.mem_idsByName_iff ha]
  have hunused : a.numberedName ∉ a.names := Naming.unused_not_mem _ _
  refine ⟨_, ?_, .done (h.insertState ha accepting hunused)⟩
  simp only [IndexedAutomaton.addNumbered, hname, h.addState_of_not_mem ha accepting hunused]
  rfl

theorem addUnlessNamed (name : String) : ∃ reply, x.addUnlessNamed name = some reply ∧
    SameReply (some ((a.idOf? name).getD a.nextId)) reply (.ok (a.addUnlessNamed name)) := by
  rw [IndexedAutomaton.addUnlessNamed, Automaton.addUnlessNamed, h.getElem?_idsByName ha]
  cases hid : a.idOf? name with
  | some q =>
    rw [if_pos (Automaton.mem_names_of_idOf? hid)]
    exact ⟨_, rfl, .done h⟩
  | none =>
    have hname : name ∉ a.names := Automaton.idOf?_eq_none_iff.mp hid
    rw [if_neg hname, h.addState_of_not_mem ha false hname]
    exact ⟨_, rfl, .done (h.insertState ha false hname)⟩

theorem removeState (q : StateId) : SameReply none (x.removeState q) (a.removeState q) := by
  refine h.stateOf_bind ha fun s hs => ?_
  rw [h.start_eq]
  by_cases hstart : a.start = some q
  · rw [if_pos hstart, if_pos hstart]
    exact .refused _
  · rw [if_neg hstart, if_neg hstart]
    exact .done (h.eraseState hs)

/-- Every edit is performed, and replied to as on the automaton. -/
theorem perform (request : Edit) : ∃ reply, x.perform request = some reply ∧
    SameReply (a.answer request) reply (a.edit request) := by
  cases request with
  | addState name accepting => exact ⟨_, rfl, h.addState ha name accepting⟩
  | addNumbered accepting => exact h.addNumbered ha accepting
  | addUnlessNamed name => exact h.addUnlessNamed ha name
  | removeState q => exact ⟨_, rfl, h.removeState ha q⟩
  | startAt q => exact ⟨_, rfl, h.stateOf_bind ha fun _ _ => .done h.startAt⟩
  | setAccepting q accepting =>
    exact ⟨_, rfl, h.stateOf_bind ha fun _ hs => .done (h.setAccepting hs accepting)⟩
  | addEdge source label target =>
    exact ⟨_, rfl, h.checkEdge_bind ha fun _ hs => h.link label hs⟩
  | replaceEdges source c target =>
    exact ⟨_, rfl, h.checkEdge_bind ha fun _ hs => h.relink (.symbol c) hs⟩

theorem run (requests : List Edit) : ∃ y, x.run requests = some (a.replies requests, y) ∧
    y.Represents (a.run requests) := by
  induction requests generalizing x a with
  | nil => exact ⟨x, rfl, h⟩
  | cons request rest ih =>
    obtain ⟨reply, hreply, hsame⟩ := h.perform ha request
    have hrun : a.run (request :: rest) = (a.after request).run rest := rfl
    rw [hrun, IndexedAutomaton.run, hreply, Automaton.replies, Automaton.after]
    cases hedit : a.edit request with
    | error e =>
      rw [hedit] at hsame
      cases hsame
      obtain ⟨y, hy, hrepresents⟩ := ih h ha
      refine ⟨y, ?_, hrepresents⟩
      simp [hy, Except.map]
    | ok b =>
      rw [hedit] at hsame
      cases hsame with
      | done hb =>
        obtain ⟨y, hy, hrepresents⟩ := ih hb (ha.change (Automaton.change_of_edit hedit))
        refine ⟨y, ?_, hrepresents⟩
        simp [hy, Except.map]

end Represents

/-! ## Consistency -/

/-- The fields of an indexed automaton are in step. -/
structure Consistent (x : IndexedAutomaton) : Prop where
  /-- The index holds exactly the names of the states, with their ids. -/
  id_iff : ∀ (name : String) (q : StateId),
    x.idsByName[name]? = some q ↔ ∃ s, x.states[q]? = some s ∧ s.name = name
  symbol_mem : ∀ (q : StateId) (s : IndexedState), x.states[q]? = some s →
    ∀ c, Label.symbol c ∈ s.targets → c ∈ x.alphabet
  target_mem : ∀ (q : StateId) (s : IndexedState), x.states[q]? = some s →
    ∀ (label : Label) (targets : OrderedSet StateId), s.targets[label]? = some targets →
      ∀ t ∈ targets, t ∈ x.states
  targets_ne_empty : ∀ (q : StateId) (s : IndexedState), x.states[q]? = some s →
    ∀ (label : Label) (targets : OrderedSet StateId), s.targets[label]? = some targets →
      targets ≠ ∅
  start_eq_none_iff : x.start = none ↔ x.states.isEmpty = true
  start_mem : ∀ q ∈ x.start, q ∈ x.states
  lt_nextId : ∀ q ∈ x.states, q < x.nextId

namespace Represents

variable (h : x.Represents a) (ha : a.WellFormed)

include h

theorem mem_states_iff : q ∈ x.states ↔ q ∈ a := by
  rw [h.mem_iff, Std.TreeMap.mem_iff_isSome_getElem?, Option.isSome_iff_exists]

include ha

theorem consistent : x.Consistent where
  id_iff name q := by
    simp only [h.id_iff, ← h.state_iff]
    constructor
    · rintro ⟨_, s, hs, hname, _⟩
      exact ⟨s, hs, hname⟩
    · rintro ⟨s, hs, hname⟩
      exact ⟨s.accepting, s, hs, hname, rfl⟩
  symbol_mem q s hs c hc := by
    obtain ⟨targets, htargets⟩ :=
      Option.isSome_iff_exists.mp (Std.TreeMap.mem_iff_isSome_getElem?.mp hc)
    -- Without empty sets every label kept belongs to an edge.
    obtain ⟨t, ht⟩ := OrderedSet.exists_mem_of_ne_empty (h.trim q s hs _ targets htargets)
    have hedge := (h.edge_iff q (.symbol c) t).mp ⟨s, hs, targets, htargets, ht⟩
    rw [h.alphabet_eq]
    exact (ha.edges_fit _ hedge).allowed
  target_mem q s hs label targets htargets t ht := by
    have hedge := (h.edge_iff q label t).mp ⟨s, hs, targets, htargets, ht⟩
    exact h.mem_states_iff.mpr (ha.edges_fit _ hedge).target_mem
  targets_ne_empty := h.trim
  start_eq_none_iff := by
    rw [h.start_eq, ha.start_eq_none_iff, Std.TreeMap.isEmpty_iff_forall_not_mem,
      ← List.map_eq_nil_iff, List.eq_nil_iff_forall_not_mem]
    exact forall_congr' fun q => not_congr h.mem_states_iff.symm
  start_mem q hq := by
    rw [h.start_eq] at hq
    exact h.mem_states_iff.mpr (ha.start_mem q hq)
  lt_nextId q hq := by
    rw [h.nextId_eq]
    exact ha.lt_nextId q (h.mem_states_iff.mp hq)

end Represents

/-! ## Existence -/

/-- A tree map made of a list without repeated keys holds exactly the entries of the list. -/
theorem getElem?_treeMap_eq_some_iff {β : Type} {entries : List (Nat × β)}
    (h : (entries.map Prod.fst).Nodup) {k : Nat} {v : β} :
    (Std.TreeMap.ofList entries compare)[k]? = some v ↔ (k, v) ∈ entries := by
  have hkeys : entries.Pairwise fun e f => ¬ compare e.1 f.1 = .eq :=
    (List.pairwise_map.mp h).imp fun hne heq => hne (Nat.compare_eq_eq.mp heq)
  constructor
  · intro hv
    by_cases hk : k ∈ entries.map Prod.fst
    · obtain ⟨⟨_, w⟩, hw, rfl⟩ := List.mem_map.mp hk
      rw [Std.TreeMap.getElem?_ofList_of_mem (Nat.compare_eq_eq.mpr rfl) hkeys hw] at hv
      exact Option.some.inj hv ▸ hw
    · rw [Std.TreeMap.getElem?_ofList_of_contains_eq_false (by simpa using hk)] at hv
      cases hv
  · intro hv
    exact Std.TreeMap.getElem?_ofList_of_mem (Nat.compare_eq_eq.mpr rfl) hkeys hv

/-- A hash map made of a list without repeated keys holds exactly the entries of the list. -/
theorem getElem?_hashMap_eq_some_iff {β : Type} {entries : List (String × β)}
    (h : (entries.map Prod.fst).Nodup) {k : String} {v : β} :
    (Std.HashMap.ofList entries)[k]? = some v ↔ (k, v) ∈ entries := by
  have hkeys : entries.Pairwise fun e f => (e.1 == f.1) = false :=
    (List.pairwise_map.mp h).imp fun hne => beq_eq_false_iff_ne.mpr hne
  constructor
  · intro hv
    by_cases hk : k ∈ entries.map Prod.fst
    · obtain ⟨⟨_, w⟩, hw, rfl⟩ := List.mem_map.mp hk
      rw [Std.HashMap.getElem?_ofList_of_mem BEq.rfl hkeys hw] at hv
      exact Option.some.inj hv ▸ hw
    · rw [Std.HashMap.getElem?_ofList_of_contains_eq_false (by simpa using hk)] at hv
      cases hv
  · intro hv
    exact Std.HashMap.getElem?_ofList_of_mem BEq.rfl hkeys hv

/-- The indexed form of the states of an automaton, without edges. -/
def ofStates (a : Automaton) : IndexedAutomaton where
  alphabet := a.alphabet
  states := .ofList (a.states.map fun s => (s.id, ⟨s.name, s.accepting, ∅⟩)) compare
  idsByName := .ofList (a.states.map fun s => (s.name, s.id))
  start := a.start
  nextId := a.nextId

theorem getElem?_states_ofStates (ha : a.WellFormed) {s : IndexedState} :
    (ofStates a).states[q]? = some s ↔
      ∃ name accepting, ⟨q, name, accepting⟩ ∈ a.states ∧ ⟨name, accepting, ∅⟩ = s := by
  have hkeys : ((a.states.map fun s =>
      (s.id, (⟨s.name, s.accepting, ∅⟩ : IndexedState))).map Prod.fst).Nodup := by
    rw [List.map_map]
    exact ha.nodup_ids
  rw [ofStates, getElem?_treeMap_eq_some_iff hkeys, List.mem_map]
  constructor
  · rintro ⟨t, ht, heq⟩
    cases heq
    exact ⟨t.name, t.accepting, ht, rfl⟩
  · rintro ⟨name, accepting, hmem, rfl⟩
    exact ⟨_, hmem, rfl⟩

theorem represents_ofStates (ha : a.WellFormed) :
    (ofStates a).Represents { a with edges := ∅ } where
  alphabet_eq := rfl
  start_eq := rfl
  nextId_eq := rfl
  id_iff name q := by
    have hkeys : ((a.states.map fun s => (s.name, s.id)).map Prod.fst).Nodup := by
      rw [List.map_map]
      exact ha.names_nodup
    rw [ofStates, getElem?_hashMap_eq_some_iff hkeys, List.mem_map]
    constructor
    · rintro ⟨s, hs, heq⟩
      cases heq
      exact ⟨s.accepting, hs⟩
    · rintro ⟨accepting, hmem⟩
      exact ⟨_, hmem, rfl⟩
  state_iff q name accepting := by
    simp only [getElem?_states_ofStates ha]
    constructor
    · rintro ⟨_, ⟨n, b, hmem, rfl⟩, rfl, rfl⟩
      exact hmem
    · intro hmem
      exact ⟨_, ⟨name, accepting, hmem, rfl⟩, rfl, rfl⟩
  edge_iff q label t := by
    simp only [getElem?_states_ofStates ha]
    refine iff_of_false ?_ OrderedSet.not_mem_empty
    rintro ⟨_, ⟨n, b, hmem, rfl⟩, targets, htargets, _⟩
    simp at htargets
  trim q s hs := by
    obtain ⟨n, b, _, rfl⟩ := (getElem?_states_ofStates ha).mp hs
    intro label targets htargets
    simp at htargets

/-- Edges can be put in one by one. -/
theorem Represents.exists_represents_edges (h : x.Represents a) (edges : List Edge)
    (hedges : ∀ e ∈ edges, e.source ∈ a) :
    ∃ y : IndexedAutomaton,
      y.Represents { a with edges := edges.foldl (fun s e => s.insert e) a.edges } := by
  induction edges generalizing x a with
  | nil => exact ⟨x, h⟩
  | cons e rest ih =>
    obtain ⟨s, hs⟩ := h.mem_iff.mp (hedges e List.mem_cons_self)
    exact ih (h.link e.label hs) fun f hf => hedges f (List.mem_cons_of_mem e hf)

/-- Every well-formed automaton has an indexed form. -/
theorem exists_represents (ha : a.WellFormed) : ∃ x : IndexedAutomaton, x.Represents a := by
  obtain ⟨x, hx⟩ := (represents_ofStates ha).exists_represents_edges a.edges.toList
    fun e he => (ha.edges_fit e he).source_mem
  have hedges : a.edges.toList.foldl (fun s e => s.insert e) ∅ = a.edges :=
    OrderedSet.ext fun e => by simp [OrderedSet.mem_foldl_insert]
  rw [hedges] at hx
  exact ⟨x, hx⟩

end FiniteState.IndexedAutomaton
