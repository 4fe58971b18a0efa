import FiniteState.Proofs.Automaton.Change
import FiniteState.Proofs.Listing

/-! # Well-formed automata

The invariant of automata: ids ascend below the next one, names differ, edges join known states
with allowed labels, and there is a start as soon as there is a state. The automaton without
states has it, and every edit keeps it.
-/

namespace FiniteState.Automaton

structure WellFormed (a : Automaton) : Prop where
  ids_ascending : a.ids.Pairwise (· < ·)
  lt_nextId : ∀ q ∈ a, q < a.nextId
  names_nodup : a.names.Nodup
  edges_fit : ∀ e ∈ a.edges, a.Fits e
  start_mem : ∀ q ∈ a.start, q ∈ a
  states_eq_nil : a.start = none → a.states = []

variable {a b : Automaton} {q : StateId} {e : Edge}

theorem mem_iff : q ∈ a ↔ ∃ s ∈ a.states, s.id = q := List.mem_map

theorem mem_of_mem_states {s : State} (hs : s ∈ a.states) : s.id ∈ a := mem_iff.mpr ⟨s, hs, rfl⟩

theorem Fits.of_eq (he : a.Fits e) (halphabet : b.alphabet = a.alphabet)
    (hmem : ∀ q ∈ a, q ∈ b) : b.Fits e :=
  ⟨halphabet ▸ he.allowed, hmem _ he.source_mem, hmem _ he.target_mem⟩

theorem length_ids (a : Automaton) : a.ids.length = a.size := List.length_map _

/-- Where no two entries have the same key, an entry is found by its key. -/
theorem find?_key_eq_some_iff {α β : Type} [DecidableEq β] {key : α → β} {xs : List α}
    (hxs : (xs.map key).Nodup) {k : β} {x : α} :
    xs.find? (fun y => key y = k) = some x ↔ x ∈ xs ∧ key x = k := by
  constructor
  · intro h
    exact ⟨List.mem_of_find?_eq_some h, by simpa using List.find?_some h⟩
  · rintro ⟨hx, rfl⟩
    cases hfind : xs.find? (fun y => key y = key x) with
    | none => simpa using List.find?_eq_none.mp hfind x hx
    | some y =>
      have hkey : key y = key x := by simpa using List.find?_some hfind
      have hy : y ∈ xs := List.mem_of_find?_eq_some hfind
      exact congrArg some (List.inj_on_of_nodup_map hxs hy hx hkey)

/-! ## States under the changes -/

theorem mem_insertState {name : String} {accepting : Bool} :
    q ∈ a.insertState name accepting ↔ q ∈ a ∨ q = a.nextId := by
  simp [mem_iff, insertState, or_and_right, exists_or, eq_comm]

theorem mem_eraseState {p : StateId} : p ∈ a.eraseState q ↔ p ∈ a ∧ p ≠ q := by
  simp only [mem_iff, eraseState, List.mem_filter, decide_eq_true_eq]
  constructor
  · intro h
    obtain ⟨s, ⟨hs, hne⟩, rfl⟩ := h
    exact ⟨⟨s, hs, rfl⟩, hne⟩
  · intro h
    obtain ⟨⟨s, hs, rfl⟩, hne⟩ := h
    exact ⟨s, ⟨hs, hne⟩, rfl⟩

@[simp] theorem ids_markAccepting (accepting : Bool) :
    (a.markAccepting q accepting).ids = a.ids := by
  simp only [ids, markAccepting, List.map_map]
  apply List.map_congr_left
  intro s _
  dsimp only [Function.comp_apply]
  split <;> rfl

@[simp] theorem names_markAccepting (accepting : Bool) :
    (a.markAccepting q accepting).names = a.names := by
  simp only [names, markAccepting, List.map_map]
  apply List.map_congr_left
  intro s _
  dsimp only [Function.comp_apply]
  split <;> rfl

theorem mem_markAccepting {p : StateId} {accepting : Bool} :
    p ∈ a.markAccepting q accepting ↔ p ∈ a := by
  change p ∈ (a.markAccepting q accepting).ids ↔ p ∈ a.ids
  rw [ids_markAccepting]

theorem mem_states_markAccepting {p : StateId} {name : String} {accepting b : Bool} :
    ⟨p, name, b⟩ ∈ (a.markAccepting q accepting).states ↔
      if q = p then b = accepting ∧ ∃ c, ⟨p, name, c⟩ ∈ a.states else ⟨p, name, b⟩ ∈ a.states := by
  rw [markAccepting, List.mem_map]
  constructor
  · rintro ⟨s, hs, heq⟩
    split at heq
    next hid =>
      cases heq
      rw [if_pos hid.symm]
      exact ⟨rfl, s.accepting, hs⟩
    next hid =>
      subst heq
      rwa [if_neg (Ne.symm hid)]
  · intro h
    split at h
    next hp =>
      obtain ⟨rfl, c, hc⟩ := h
      exact ⟨_, hc, if_pos hp.symm⟩
    next hp => exact ⟨_, h, if_neg (Ne.symm hp)⟩

theorem exists_mem_states_markAccepting {p : StateId} {name : String} {accepting : Bool} :
    (∃ b, ⟨p, name, b⟩ ∈ (a.markAccepting q accepting).states) ↔
      ∃ b, ⟨p, name, b⟩ ∈ a.states := by
  simp only [mem_states_markAccepting]
  split <;> simp

/-! ## Preservation -/

theorem wellFormed_new (alphabet : Alphabet) : (new alphabet).WellFormed where
  ids_ascending := .nil
  lt_nextId _ hq := absurd hq List.not_mem_nil
  names_nodup := .nil
  edges_fit _ he := absurd he OrderedSet.not_mem_empty
  start_mem _ hq := nomatch hq
  states_eq_nil _ := rfl

namespace WellFormed

theorem insertState (ha : a.WellFormed) {name : String} (accepting : Bool)
    (hname : name ∉ a.names) : (a.insertState name accepting).WellFormed where
  ids_ascending := by
    simp only [ids, Automaton.insertState, List.map_append, List.map_singleton]
    refine List.pairwise_append.mpr ⟨ha.ids_ascending, List.pairwise_singleton _ _, ?_⟩
    intro p hp q hq
    rw [List.mem_singleton] at hq
    exact hq ▸ ha.lt_nextId p hp
  lt_nextId q hq := by
    rcases mem_insertState.mp hq with hq | rfl
    · exact Nat.lt_succ_of_lt (ha.lt_nextId q hq)
    · exact Nat.lt_succ_self _
  names_nodup := by
    simp only [names, Automaton.insertState, List.map_append, List.map_singleton]
    refine List.nodup_append.mpr ⟨ha.names_nodup, List.nodup_singleton _, ?_⟩
    intro n hn m hm hnm
    rw [List.mem_singleton] at hm
    exact hname (hm ▸ hnm ▸ hn)
  edges_fit e he := (ha.edges_fit e he).of_eq rfl fun q hq => mem_insertState.mpr (.inl hq)
  start_mem q hq := by
    rw [mem_insertState]
    -- The new state is the start only if there was none.
    cases hstart : a.start with
    | some s =>
      have hsq : s = q := by simpa [Automaton.insertState, hstart] using hq
      exact .inl (hsq ▸ ha.start_mem s hstart)
    | none =>
      have hsq : a.nextId = q := by simpa [Automaton.insertState, hstart] using hq
      exact .inr hsq.symm
  states_eq_nil h := by simp [Automaton.insertState] at h

theorem eraseState (ha : a.WellFormed) (hstart : a.start ≠ some q) :
    (a.eraseState q).WellFormed where
  ids_ascending := ha.ids_ascending.sublist (List.filter_sublist.map _)
  lt_nextId p hp := ha.lt_nextId p (mem_eraseState.mp hp).1
  names_nodup := ha.names_nodup.sublist (List.filter_sublist.map _)
  edges_fit e he := by
    obtain ⟨he, hsource, htarget⟩ := mem_edges_eraseState.mp he
    have hfits := ha.edges_fit e he
    exact ⟨hfits.allowed, mem_eraseState.mpr ⟨hfits.source_mem, hsource⟩,
      mem_eraseState.mpr ⟨hfits.target_mem, htarget⟩⟩
  start_mem p hp := by
    refine mem_eraseState.mpr ⟨ha.start_mem p hp, ?_⟩
    rintro rfl
    exact hstart hp
  states_eq_nil h := by
    have hnil : a.states = [] := ha.states_eq_nil h
    simp [Automaton.eraseState, hnil]

theorem startAt (ha : a.WellFormed) (hq : q ∈ a) :
    ({ a with start := some q } : Automaton).WellFormed where
  ids_ascending := ha.ids_ascending
  lt_nextId := ha.lt_nextId
  names_nodup := ha.names_nodup
  edges_fit e he := (ha.edges_fit e he).of_eq rfl fun _ hp => hp
  start_mem p hp := by
    cases hp
    exact hq
  states_eq_nil h := nomatch h

theorem markAccepting (ha : a.WellFormed) (accepting : Bool) :
    (a.markAccepting q accepting).WellFormed where
  ids_ascending := by
    rw [ids_markAccepting]
    exact ha.ids_ascending
  lt_nextId p hp := ha.lt_nextId p (mem_markAccepting.mp hp)
  names_nodup := by
    rw [names_markAccepting]
    exact ha.names_nodup
  edges_fit e he := (ha.edges_fit e he).of_eq rfl fun _ hp => mem_markAccepting.mpr hp
  start_mem p hp := mem_markAccepting.mpr (ha.start_mem p hp)
  states_eq_nil h := by
    have hnil : a.states = [] := ha.states_eq_nil h
    simp [Automaton.markAccepting, hnil]

/-- Other edges that fit may take the place of the edges. -/
theorem withEdges (ha : a.WellFormed) {edges : OrderedSet Edge} (hfit : ∀ e ∈ edges, a.Fits e) :
    ({ a with edges } : Automaton).WellFormed where
  ids_ascending := ha.ids_ascending
  lt_nextId := ha.lt_nextId
  names_nodup := ha.names_nodup
  edges_fit e he := (hfit e he).of_eq rfl fun _ hp => hp
  start_mem := ha.start_mem
  states_eq_nil := ha.states_eq_nil

theorem change (ha : a.WellFormed) (h : a.Change b) : b.WellFormed := by
  cases h with
  | none => exact ha
  | insertState name accepting hname => exact ha.insertState accepting hname
  | eraseState q hstart => exact ha.eraseState hstart
  | startAt q hq => exact ha.startAt hq
  | markAccepting q accepting => exact ha.markAccepting accepting
  | link e he =>
    apply ha.withEdges
    intro f hf
    rcases mem_edges_link.mp hf with rfl | hf
    · exact he
    · exact ha.edges_fit f hf
  | relink e he =>
    apply ha.withEdges
    intro f hf
    rcases mem_edges_relink.mp hf with rfl | ⟨hf, _⟩
    · exact he
    · exact ha.edges_fit f hf

/-! ## Looking up states -/

end WellFormed

theorem idOf?_eq_none_iff {name : String} : a.idOf? name = none ↔ name ∉ a.names := by
  simp [idOf?, names]

theorem mem_names_of_idOf? {name : String} (h : a.idOf? name = some q) : name ∈ a.names := by
  by_contra hname
  rw [idOf?_eq_none_iff.mpr hname] at h
  cases h

theorem mem_of_idOf? {name : String} (h : a.idOf? name = some q) : q ∈ a := by
  obtain ⟨s, hs, rfl⟩ := Option.map_eq_some_iff.mp h
  exact mem_of_mem_states (List.mem_of_find?_eq_some hs)

namespace WellFormed

theorem idOf?_eq_some_iff (ha : a.WellFormed) {name : String} :
    a.idOf? name = some q ↔ ∃ accepting, ⟨q, name, accepting⟩ ∈ a.states := by
  have hfind {s : State} : a.states.find? (fun s => s.name = name) = some s ↔
      s ∈ a.states ∧ s.name = name := find?_key_eq_some_iff ha.names_nodup
  simp only [idOf?, Option.map_eq_some_iff, hfind]
  constructor
  · rintro ⟨s, ⟨hs, rfl⟩, rfl⟩
    exact ⟨s.accepting, hs⟩
  · rintro ⟨accepting, hs⟩
    exact ⟨_, ⟨hs, rfl⟩, rfl⟩

theorem start_eq_none_iff (ha : a.WellFormed) : a.start = none ↔ a.states = [] := by
  refine ⟨ha.states_eq_nil, ?_⟩
  intro hnil
  cases hstart : a.start with
  | none => rfl
  | some q =>
    obtain ⟨s, hs, _⟩ := mem_iff.mp (ha.start_mem q hstart)
    rw [hnil] at hs
    cases hs

theorem nextId_not_mem (ha : a.WellFormed) : a.nextId ∉ a :=
  fun h => Nat.lt_irrefl _ (ha.lt_nextId _ h)

theorem nodup_ids (ha : a.WellFormed) : a.ids.Nodup := ha.ids_ascending.nodup

theorem state?_eq_some_iff (ha : a.WellFormed) {s : State} :
    a.state? q = some s ↔ s ∈ a.states ∧ s.id = q := find?_key_eq_some_iff ha.nodup_ids

theorem name?_eq_some_iff (ha : a.WellFormed) {name : String} :
    a.name? q = some name ↔ ∃ accepting, ⟨q, name, accepting⟩ ∈ a.states := by
  simp only [name?, Option.map_eq_some_iff, ha.state?_eq_some_iff]
  constructor
  · rintro ⟨s, ⟨hs, rfl⟩, rfl⟩
    exact ⟨s.accepting, hs⟩
  · rintro ⟨accepting, hs⟩
    exact ⟨_, ⟨hs, rfl⟩, rfl⟩

theorem isAccepting_eq (ha : a.WellFormed) {s : State} (hs : s ∈ a.states) :
    a.isAccepting s.id = s.accepting := by
  rw [isAccepting, ha.state?_eq_some_iff.mpr ⟨hs, rfl⟩, Option.any_some]

theorem isAccepting_iff (ha : a.WellFormed) :
    a.isAccepting q = true ↔ ∃ s ∈ a.states, s.id = q ∧ s.accepting = true := by
  simp only [isAccepting, Option.any_eq_true, ha.state?_eq_some_iff, and_assoc]

/-- The states are told by their ids, names and acceptance. -/
theorem states_eq_map (ha : a.WellFormed) :
    a.states = a.ids.map fun q => ⟨q, (a.name? q).getD "", a.isAccepting q⟩ := by
  rw [ids, List.map_map]
  conv_lhs => rw [← List.map_id a.states]
  refine List.map_congr_left fun s hs => ?_
  have hname : a.name? s.id = some s.name := ha.name?_eq_some_iff.mpr ⟨s.accepting, hs⟩
  simp [hname, ha.isAccepting_eq hs]

theorem mem_acceptingIds_iff (ha : a.WellFormed) :
    q ∈ a.acceptingIds ↔ a.isAccepting q = true := by
  simp only [ha.isAccepting_iff, acceptingIds, List.mem_map, List.mem_filter, and_assoc,
    and_comm (a := State.id _ = q)]

theorem mem_rejectingIds_iff (ha : a.WellFormed) :
    q ∈ a.rejectingIds ↔ q ∈ a ∧ a.isAccepting q = false := by
  simp only [rejectingIds, List.mem_map, List.mem_filter, mem_iff]
  constructor
  · intro h
    obtain ⟨s, ⟨hs, haccepting⟩, rfl⟩ := h
    exact ⟨⟨s, hs, rfl⟩, by simpa [ha.isAccepting_eq hs] using haccepting⟩
  · intro h
    obtain ⟨⟨s, hs, rfl⟩, haccepting⟩ := h
    exact ⟨s, ⟨hs, by simpa [ha.isAccepting_eq hs] using haccepting⟩, rfl⟩

end WellFormed

end FiniteState.Automaton
