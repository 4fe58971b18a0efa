import FiniteState.Automaton.Edit
import FiniteState.Proofs.Naming

/-! # What edits change

Each operation succeeds exactly if what it is asked for fits the automaton. An edit that succeeds
makes one of six changes or leaves the automaton as it is.
-/

namespace FiniteState

theorem Except.bind_eq_ok_iff {ε α β : Type} {x : Except ε α} {f : α → Except ε β} {y : β} :
    (x >>= f) = .ok y ↔ ∃ z, x = .ok z ∧ f z = .ok y := by
  cases x <;> simp [bind, Except.bind]

theorem Except.map_eq_ok_iff {ε α β : Type} {x : Except ε α} {f : α → β} {y : β} :
    x.map f = .ok y ↔ ∃ z, x = .ok z ∧ f z = y := by
  cases x <;> simp [Except.map]

theorem Except.map_eq_error_iff {ε α β : Type} {x : Except ε α} {f : α → β} {e : ε} :
    x.map f = .error e ↔ x = .error e := by
  cases x <;> simp [Except.map]

theorem Except.throw_ne_ok {ε α : Type} {e : ε} {y : α} : (throw e : Except ε α) ≠ .ok y := by
  simp [throw, throwThe, MonadExceptOf.throw]

/-- A fold whose steps succeed, and keep what the next step needs, succeeds. -/
theorem foldlM_eq_some {α β γ : Type} {f : β → α → Option β} (build : γ → β)
    (update : γ → α → γ) {P : γ → Prop} (xs : List α)
    (hstep : ∀ c, P c → ∀ x ∈ xs, f (build c) x = some (build (update c x)) ∧ P (update c x))
    {c : γ} (hc : P c) :
    xs.foldlM f (build c) = some (build (xs.foldl update c)) ∧ P (xs.foldl update c) := by
  induction xs generalizing c with
  | nil => exact ⟨rfl, hc⟩
  | cons x xs ih =>
    obtain ⟨hx, hnext⟩ := hstep c hc x List.mem_cons_self
    rw [List.foldlM_cons, hx]
    exact ih (fun c hc x hx => hstep c hc x (List.mem_cons_of_mem _ hx)) hnext

namespace Automaton

variable {a b : Automaton} {q : StateId} {e : Edge}

/-- An edge between known states with a label that the alphabet allows. -/
structure Fits (a : Automaton) (e : Edge) : Prop where
  allowed : a.alphabet.Allows e.label
  source_mem : e.source ∈ a
  target_mem : e.target ∈ a

/-! ## When operations succeed -/

theorem exists_stateOf_eq_ok_iff : (∃ s, a.stateOf q = .ok s) ↔ q ∈ a := by
  have hmem : q ∈ a ↔ ∃ s ∈ a.states, s.id = q := List.mem_map
  unfold stateOf state?
  cases hfind : a.states.find? (fun s => s.id = q) with
  | none =>
    have hnone : ∀ s ∈ a.states, s.id ≠ q := by simpa using List.find?_eq_none.mp hfind
    simpa [hmem] using hnone
  | some s =>
    have hid : s.id = q := by simpa using List.find?_some hfind
    simpa [hmem] using ⟨s, List.mem_of_find?_eq_some hfind, hid⟩

theorem addState_eq_ok_iff {name : String} {accepting : Bool} :
    a.addState name accepting = .ok b ↔ name ∉ a.names ∧ a.insertState name accepting = b := by
  unfold addState
  split
  next hname => simp [hname]
  next hname => simp [hname]

theorem removeState_eq_ok_iff :
    a.removeState q = .ok b ↔ q ∈ a ∧ a.start ≠ some q ∧ a.eraseState q = b := by
  rw [← exists_stateOf_eq_ok_iff, ← exists_and_right, removeState, Except.bind_eq_ok_iff]
  refine exists_congr fun s => and_congr_right fun _ => ?_
  by_cases hstart : a.start = some q
  · rw [if_pos hstart, Except.bind_eq_ok_iff]
    simp [Except.throw_ne_ok, hstart]
  · rw [if_neg hstart]
    simp [hstart, pure, Except.pure]

theorem startAt_eq_ok_iff :
    a.startAt q = .ok b ↔ q ∈ a ∧ ({ a with start := some q } : Automaton) = b := by
  rw [← exists_stateOf_eq_ok_iff, ← exists_and_right, startAt, Except.bind_eq_ok_iff]
  simp [pure, Except.pure]

theorem setAccepting_eq_ok_iff {accepting : Bool} :
    a.setAccepting q accepting = .ok b ↔ q ∈ a ∧ a.markAccepting q accepting = b := by
  rw [← exists_stateOf_eq_ok_iff, ← exists_and_right, setAccepting, Except.bind_eq_ok_iff]
  simp [pure, Except.pure]

theorem checkEdge_eq_ok_iff : a.checkEdge e = .ok () ↔ a.Fits e := by
  have hends : (∃ s, a.stateOf e.source = .ok s ∧ ∃ t, a.stateOf e.target = .ok t) ↔
      e.source ∈ a ∧ e.target ∈ a := by
    rw [exists_and_right, exists_stateOf_eq_ok_iff, exists_stateOf_eq_ok_iff]
  have hfits : a.Fits e ↔ a.alphabet.Allows e.label ∧ e.source ∈ a ∧ e.target ∈ a :=
    ⟨fun h => ⟨h.allowed, h.source_mem, h.target_mem⟩, fun h => ⟨h.1, h.2.1, h.2.2⟩⟩
  rw [hfits, ← hends, checkEdge]
  cases e.label with
  | symbol c =>
    by_cases hc : c ∈ a.alphabet
    · simp [hc, Except.bind_eq_ok_iff, Alphabet.Allows, pure, Except.pure]
    · simp [hc, Except.bind_eq_ok_iff, Except.throw_ne_ok, Alphabet.Allows]
  | epsilon => simp [Except.bind_eq_ok_iff, Alphabet.Allows, pure, Except.pure]

theorem addEdge_eq_ok_iff {source target : StateId} {label : Label} :
    a.addEdge source label target = .ok b ↔
      a.Fits ⟨source, label, target⟩ ∧ a.link ⟨source, label, target⟩ = b := by
  rw [addEdge, Except.bind_eq_ok_iff, ← checkEdge_eq_ok_iff]
  simp [pure, Except.pure, Unique.exists_iff]

theorem replaceEdges_eq_ok_iff {source target : StateId} {c : Char} :
    a.replaceEdges source c target = .ok b ↔
      a.Fits ⟨source, .symbol c, target⟩ ∧ a.relink ⟨source, .symbol c, target⟩ = b := by
  rw [replaceEdges, Except.bind_eq_ok_iff, ← checkEdge_eq_ok_iff]
  simp [pure, Except.pure, Unique.exists_iff]

/-! ## Changes -/

/-- The changes that an edit can make, with what has been checked before. -/
inductive Change (a : Automaton) : Automaton → Prop where
  | none : Change a a
  | insertState (name : String) (accepting : Bool) :
      name ∉ a.names → Change a (a.insertState name accepting)
  | eraseState (q : StateId) : a.start ≠ some q → Change a (a.eraseState q)
  | startAt (q : StateId) : q ∈ a → Change a { a with start := some q }
  | markAccepting (q : StateId) (accepting : Bool) : Change a (a.markAccepting q accepting)
  | link (e : Edge) : a.Fits e → Change a (a.link e)
  | relink (e : Edge) : a.Fits e → Change a (a.relink e)

/-- A successful edit makes one of the changes. -/
theorem change_of_edit {request : Edit} (h : a.edit request = .ok b) : a.Change b := by
  cases request with
  | addState name accepting =>
    obtain ⟨hname, rfl⟩ := addState_eq_ok_iff.mp h
    exact .insertState name accepting hname
  | addNumbered accepting =>
    cases h
    exact .insertState _ accepting (Naming.unused_not_mem _ _)
  | addUnlessNamed name =>
    cases h
    unfold addUnlessNamed
    split
    next => exact .none
    next hname => exact .insertState name false hname
  | removeState q =>
    obtain ⟨_, hstart, rfl⟩ := removeState_eq_ok_iff.mp h
    exact .eraseState q hstart
  | startAt q =>
    obtain ⟨hq, rfl⟩ := startAt_eq_ok_iff.mp h
    exact .startAt q hq
  | setAccepting q accepting =>
    obtain ⟨_, rfl⟩ := setAccepting_eq_ok_iff.mp h
    exact .markAccepting q accepting
  | addEdge source label target =>
    obtain ⟨hfits, rfl⟩ := addEdge_eq_ok_iff.mp h
    exact .link _ hfits
  | replaceEdges source c target =>
    obtain ⟨hfits, rfl⟩ := replaceEdges_eq_ok_iff.mp h
    exact .relink _ hfits

end Automaton

end FiniteState
