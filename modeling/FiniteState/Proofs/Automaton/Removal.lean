import FiniteState.Proofs.Automaton.AcceptingRun
import FiniteState.Proofs.Automaton.Representation

/-! # Removing a state

The runs that are left when a state is removed are those that never visit it, so a word stays
accepted exactly if one of its accepting runs gets along without the state. Nothing else changes:
the other states keep what they have, less the edges to the removed one. No run visits a state that
edges do not lead to from the start, so without such a state the same words are accepted.
-/

namespace FiniteState.Automaton

variable {a : Automaton} {q p : StateId} {word : List Char} {run : List Configuration}
  {c d : Configuration}

/-- The second automaton is the first one without a state. -/
structure Removed (a : Automaton) (q : StateId) (b : Automaton) : Prop where
  alphabet_eq : b.alphabet = a.alphabet
  start_eq : b.start = a.start
  nextId_eq : b.nextId = a.nextId
  ids_eq : b.ids = a.ids.filter (· ≠ q)
  name?_eq : ∀ p, p ≠ q → b.name? p = a.name? p
  isAccepting_eq : ∀ p, p ≠ q → b.isAccepting p = a.isAccepting p
  edgesFrom_eq : ∀ p, p ≠ q → b.edgesFrom p = (a.edgesFrom p).filter (·.target ≠ q)
  edgesFrom_removed : b.edgesFrom q = []
  /-- Names lead where they did, but no name leads to the removed state. -/
  idOf?_eq_some_iff : ∀ name p, b.idOf? name = some p ↔ a.idOf? name = some p ∧ p ≠ q

/-! ## Frame -/

theorem state?_eraseState (hp : p ≠ q) : (a.eraseState q).state? p = a.state? p := by
  rw [state?, eraseState, List.find?_filter, state?]
  congr 1
  funext s
  by_cases hs : s.id = p
  · simp [hs, hp]
  · simp [hs]

theorem edgesFrom_eraseState (hp : p ≠ q) :
    (a.eraseState q).edgesFrom p = (a.edgesFrom p).filter (·.target ≠ q) := by
  change (a.edges.toList.filter _).filter _ = (a.edges.toList.filter _).filter _
  rw [List.filter_filter, List.filter_filter]
  refine List.filter_congr fun e _ => ?_
  by_cases he : e.source = p
  · simp [he, hp]
  · simp [he]

theorem edgesFrom_eraseState_self : (a.eraseState q).edgesFrom q = [] := by
  rw [List.eq_nil_iff_forall_not_mem]
  intro e he
  obtain ⟨he, hsource⟩ := (mem_edgesFrom _).mp he
  exact (mem_edges_eraseState.mp he).2.1 hsource

theorem WellFormed.removed_eraseState (ha : a.WellFormed) (hstart : a.start ≠ some q) :
    a.Removed q (a.eraseState q) where
  alphabet_eq := rfl
  start_eq := rfl
  nextId_eq := rfl
  ids_eq := by
    rw [ids, ids, List.filter_map]
    rfl
  name?_eq p hp := by rw [name?, state?_eraseState hp, name?]
  isAccepting_eq p hp := by rw [isAccepting, state?_eraseState hp, isAccepting]
  edgesFrom_eq _ hp := edgesFrom_eraseState hp
  edgesFrom_removed := edgesFrom_eraseState_self
  idOf?_eq_some_iff name p := by
    rw [(ha.eraseState hstart).idOf?_eq_some_iff, ha.idOf?_eq_some_iff]
    simp only [Automaton.eraseState, List.mem_filter, decide_eq_true_eq, exists_and_right]

/-! ## Runs -/

theorem runStep_eraseState_iff :
    (a.eraseState q).RunStep word c d ↔ a.RunStep word c d ∧ c.state ≠ q ∧ d.state ≠ q := by
  constructor
  · intro h
    cases h with
    | silent he =>
      obtain ⟨he, hends⟩ := mem_edges_eraseState.mp he
      exact ⟨.silent he, hends⟩
    | consume hnext he =>
      obtain ⟨he, hends⟩ := mem_edges_eraseState.mp he
      exact ⟨.consume hnext he, hends⟩
  · intro h
    obtain ⟨hstep, hends⟩ := h
    cases hstep with
    | silent he => exact .silent (mem_edges_eraseState.mpr ⟨he, hends⟩)
    | consume hnext he => exact .consume hnext (mem_edges_eraseState.mpr ⟨he, hends⟩)

theorem isFinal_eraseState (hc : c.state ≠ q) :
    (a.eraseState q).isFinal word c = a.isFinal word c := by
  rw [isFinal, isFinal, isAccepting, state?_eraseState hc, isAccepting]

/-- The accepting runs without the state are those that never visit it. -/
theorem acceptingRun_eraseState_iff (hstart : a.start ≠ some q) :
    (a.eraseState q).AcceptingRun word run ↔
      a.AcceptingRun word run ∧ ∀ c ∈ run, c.state ≠ q := by
  constructor
  · intro h
    -- The start is another state, and no edge that is left leads to the removed one.
    have havoids : ∀ c ∈ run, c.state ≠ q := by
      refine h.forall_mem (P := fun s => s ≠ q) ?_ fun e he _ => (mem_edges_eraseState.mp he).2.2
      intro s hs hsq
      exact hstart (hsq ▸ hs)
    obtain ⟨c, hfinal, hlast⟩ := h.last_final
    rw [isFinal_eraseState (havoids c (List.mem_of_getLast? hlast))] at hfinal
    exact ⟨⟨h.steps.imp fun _ _ hstep => (runStep_eraseState_iff.mp hstep).1, h.head_initial,
      ⟨c, hfinal, hlast⟩⟩, havoids⟩
  · intro h
    obtain ⟨hrun, havoids⟩ := h
    obtain ⟨c, hfinal, hlast⟩ := hrun.last_final
    rw [← isFinal_eraseState (havoids c (List.mem_of_getLast? hlast))] at hfinal
    refine ⟨?_, hrun.head_initial, ⟨c, hfinal, hlast⟩⟩
    exact hrun.steps.imp_of_mem_imp fun c d hc hd hstep =>
      runStep_eraseState_iff.mpr ⟨hstep, havoids c hc, havoids d hd⟩

/-- A state other than the start can be removed, and nothing else changes. The words accepted
without it are those with an accepting run that never visits it, which are all if edges do not lead
to it from the start. An indexed form loses the state, its name and all targets in the same way. -/
theorem removeState_keeps_other_runs (ha : a.Built) (hq : q ∈ a) (hstart : a.start ≠ some q) :
    ∃ b, a.removeState q = .ok b ∧ a.Removed q b ∧
      (∀ word, b.accepts word = true ↔
        ∃ run, a.AcceptingRun word run ∧ ∀ c ∈ run, c.state ≠ q) ∧
      (q ∉ a.reachableIds → ∀ word, b.accepts word = a.accepts word) ∧
      ∀ x : IndexedAutomaton, x.Represents a →
        ∃ y : IndexedAutomaton, x.removeState q = .ok (none, y) ∧ y.Represents b := by
  have hw : a.WellFormed := ha.wellFormed
  have hremove : a.removeState q = .ok (a.eraseState q) :=
    removeState_eq_ok_iff.mpr ⟨hq, hstart, rfl⟩
  have haccepts (word : List Char) : (a.eraseState q).accepts word = true ↔
      ∃ run, a.AcceptingRun word run ∧ ∀ c ∈ run, c.state ≠ q := by
    simp only [(hw.eraseState hstart).accepts_iff_acceptingRun, acceptingRun_eraseState_iff hstart]
  refine ⟨a.eraseState q, hremove, hw.removed_eraseState hstart, haccepts, ?_, ?_⟩
  · intro hunreachable word
    rw [Bool.eq_iff_iff, haccepts, hw.accepts_iff_acceptingRun]
    refine exists_congr fun run => and_iff_left_of_imp ?_
    rintro hrun c hc rfl
    exact hunreachable (hw.mem_reachableIds_iff.mpr (hrun.mem_reachable c hc))
  · intro x hx
    have hsame := hx.removeState hw q
    rw [hremove] at hsame
    generalize x.removeState q = reply at hsame
    cases hsame with
    | done hy => exact ⟨_, rfl, hy⟩

/-- The second state has a loop and lies on the only silent way to the third one; no edge leads to
the fourth. -/
def crossing : Automaton := .ofEdits (.ofSymbols ['a'])
  [.addState "p" false, .addState "q" false, .addState "r" true, .addState "s" false,
    .addEdge 0 (.symbol 'a') 1, .addEdge 0 (.symbol 'a') 2, .addEdge 0 .epsilon 1,
    .addEdge 1 (.symbol 'a') 1, .addEdge 1 .epsilon 2, .addEdge 3 .epsilon 1]

/-- Without the second state one character is still accepted, but the empty word no longer is. The
fourth state is not missed. -/
theorem removeState_keeps_other_runs_crossing :
    (∃ b, crossing.removeState 1 = .ok b ∧ b.edgesFrom 0 = [⟨0, .symbol 'a', 2⟩] ∧
      b.accepts ['a'] = true ∧ b.accepts [] = false ∧ crossing.accepts [] = true) ∧
    ∃ b, crossing.removeState 3 = .ok b ∧ ∀ word, b.accepts word = crossing.accepts word := by
  have hbuilt : crossing.Built := built_ofEdits _ _
  refine ⟨?_, ?_⟩
  · obtain ⟨b, hremove, hframe, haccepts, _⟩ :=
      removeState_keeps_other_runs hbuilt (q := 1) (by decide) (by decide)
    have hedges : b.edgesFrom 0 = [⟨0, .symbol 'a', 2⟩] :=
      (hframe.edgesFrom_eq 0 (by decide)).trans (by decide)
    have hedge : (⟨0, .symbol 'a', 2⟩ : Edge) ∈ crossing.edges := by decide
    have hrun : crossing.AcceptingRun ['a'] [⟨0, 0⟩, ⟨1, 2⟩] :=
      ⟨.cons_cons (.consume rfl hedge) (.singleton _), ⟨_, by decide, rfl⟩, ⟨_, by decide, rfl⟩⟩
    obtain ⟨_, _, rfl⟩ := removeState_eq_ok_iff.mp hremove
    exact ⟨_, hremove, hedges, (haccepts _).mpr ⟨_, hrun, by decide⟩, by decide, by decide⟩
  · obtain ⟨b, hremove, _, _, hunreachable, _⟩ :=
      removeState_keeps_other_runs hbuilt (q := 3) (by decide) (by decide)
    exact ⟨b, hremove, hunreachable (by decide)⟩

end FiniteState.Automaton
