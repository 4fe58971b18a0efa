import FiniteState.Proofs.Automaton.Built
import FiniteState.Proofs.Automaton.Offence
import FiniteState.Proofs.Problem.CountedLines
import FiniteState.Proofs.Problem.Deterministic
import FiniteState.Proofs.Problem.Message

/-! # When minimizing fails

Minimizing fails exactly if a state offends against determinism, and names the first offence. An
automaton that the deterministic format reads can offend only by a silent edge, since a transition
with a symbol replaces the ones before. So there the counted lines with the epsilon mark tell
whether minimizing fails, and at which state.
-/

namespace FiniteState.Problem

/-- A line holds a silent transition from a state with a name. -/
def LeavesSilently (source : String) (line : List Char) : Prop :=
  ∃ target, fieldsOf line = [source, Label.epsilonMark.toString, target]

variable {text : String} {line : List Char} {s : Sheet} {a : Automaton} {q : StateId}
  {name source : String} {label : Label} {m : Minimization} {limit : Option Nat}
  {e : AutomatonError}

theorem ofToken_eq_epsilon_iff {token : Char} :
    Label.ofToken token = .epsilon ↔ token = Label.epsilonMark := by
  unfold Label.ofToken
  split <;> simp_all

theorem leavesSilently_iff {v : Move} (h : moveIn? line = some v) :
    LeavesSilently source line ↔ v.source = source ∧ v.label = .epsilon := by
  obtain ⟨token, htoken, hfields⟩ := fieldsOf_of_moveIn? h
  rw [LeavesSilently, hfields, ← htoken, ofToken_eq_epsilon_iff]
  constructor
  · rintro ⟨target, htarget⟩
    simp only [List.cons.injEq, and_true] at htarget
    obtain ⟨hsource, hmark, _⟩ := htarget
    have hchars := congrArg String.toList hmark
    simp only [Char.toString_eq_singleton, String.toList_singleton, List.cons.injEq,
      and_true] at hchars
    exact ⟨hsource, hchars⟩
  · rintro ⟨rfl, rfl⟩
    exact ⟨v.target, rfl⟩

/-- What the deterministic format reads offends by silent transitions only. -/
theorem Sheet.Yields.offends_iff (h : s.Yields a) (hq : a.name? q = some name) :
    a.Offends q label ↔
      label = .epsilon ∧ ∃ v ∈ s.moves, v.source = name ∧ v.label = .epsilon := by
  cases label with
  | symbol c =>
    refine iff_of_false ?_ (by simp)
    rintro ⟨x, y, hne, hx, hy⟩
    have hnamed (z : StateId) (hz : ⟨q, .symbol c, z⟩ ∈ a.edges) :
        ∃ t, last? s.transitions name (.symbol c) = some t ∧ a.name? z = some t.target := by
      have hmem := List.mem_map_of_mem (f := a.name?) ((Automaton.mem_targets a).mpr hz)
      rw [h.successors_eq q name c hq] at hmem
      simpa [eq_comm] using hmem
    obtain ⟨t, ht, hxname⟩ := hnamed x hx
    obtain ⟨_, ht', hyname⟩ := hnamed y hy
    cases ht.symm.trans ht'
    exact hne (h.wellFormed.eq_of_name?_eq hxname hyname)
  | epsilon =>
    simp only [Automaton.Offends, true_and]
    constructor
    · rintro ⟨x, hx⟩
      obtain ⟨target, _, hjoined⟩ := h.wellFormed.exists_joins hx hq
      obtain ⟨t, ht, hsource, hlabel, _⟩ := (h.silent_iff name target).mp hjoined
      exact ⟨t.move, List.mem_map_of_mem ht, hsource, hlabel⟩
    · rintro ⟨v, hv, hsource, hlabel⟩
      obtain ⟨t, ht, rfl⟩ := List.mem_map.mp hv
      have hjoined := (h.silent_iff name t.target).mpr ⟨t, ht, hsource, hlabel, rfl⟩
      obtain ⟨x, hx, _⟩ := h.wellFormed.exists_mem_edges_of_joins hjoined hq
      exact ⟨x, hx⟩

/-- A state of what is read offends exactly if a counted line leaves it silently. -/
theorem Minimization.offends_iff (hread : (Minimization.read text).outcome = .ok m)
    {x : State} (hx : x ∈ m.dfa.states) :
    m.dfa.Offends x.id label ↔ label = .epsilon ∧
      ∃ line ∈ countedLines (Text.lines text.toList), LeavesSilently x.name line := by
  obtain ⟨s, start, hs, hbuilt⟩ := outcome_eq_ok_iff.mp hread
  have hyields : s.Yields m.dfa := Sheet.yields_of_deterministic hs.start hbuilt
  have hname : m.dfa.name? x.id = some x.name :=
    hyields.wellFormed.name?_eq_some_iff.mpr ⟨x.accepting, hx⟩
  rw [hyields.offends_iff hname]
  refine and_congr_right fun _ => ?_
  constructor
  · rintro ⟨v, hv, hsource⟩
    obtain ⟨line, hline, hmove⟩ := (Sheet.mem_moves_iff hs.sheet).mp hv
    exact ⟨line, hline, (leavesSilently_iff hmove).mpr hsource⟩
  · rintro ⟨line, hline, hsilent⟩
    obtain ⟨v, hmove⟩ := Sheet.exists_moveIn?_eq hs.sheet hline
    exact ⟨v, (Sheet.mem_moves_iff hs.sheet).mpr ⟨line, hline, hmove⟩,
      (leavesSilently_iff hmove).mp hsilent⟩

/-- Every source of a counted line is a state of what is read. -/
theorem Minimization.exists_state_of_leavesSilently
    (hread : (Minimization.read text).outcome = .ok m)
    (hline : line ∈ countedLines (Text.lines text.toList)) (h : LeavesSilently source line) :
    ∃ x ∈ m.dfa.states, x.name = source := by
  obtain ⟨s, start, hs, hbuilt⟩ := outcome_eq_ok_iff.mp hread
  obtain ⟨v, hmove⟩ := Sheet.exists_moveIn?_eq hs.sheet hline
  obtain ⟨t, ht, rfl⟩ := List.mem_map.mp ((Sheet.mem_moves_iff hs.sheet).mpr ⟨line, hline, hmove⟩)
  obtain ⟨rfl, _⟩ := (leavesSilently_iff hmove).mp h
  obtain ⟨hdeclared, hautomaton⟩ := Sheet.deterministic_eq_ok_iff.mp hbuilt
  have hsource : t.source ∈ m.dfa.names := by
    rw [← hautomaton, Automaton.names_listed]
    exact (hdeclared.transitions_fit t ht).source_mem
  exact List.mem_map.mp hsource

/-- A problem that has been read cannot be solved exactly if a counted line is silent. -/
theorem Minimization.exists_solve_eq_error_iff
    (hread : (Minimization.read text).outcome = .ok m) :
    (∃ e, m.solve limit = .error e) ↔
      ∃ line ∈ countedLines (Text.lines text.toList), ∃ source, LeavesSilently source line := by
  simp only [solve_eq_error_iff]
  rw [Partition.exists_minimize_eq_error_iff]
  constructor
  · rintro ⟨x, hx, label, hoffends⟩
    obtain ⟨_, line, hline, hsilent⟩ := (offends_iff hread hx).mp hoffends
    exact ⟨line, hline, x.name, hsilent⟩
  · rintro ⟨line, hline, source, hsilent⟩
    obtain ⟨x, hx, rfl⟩ := exists_state_of_leavesSilently hread hline hsilent
    exact ⟨x, hx, .epsilon, (offends_iff hread hx).mpr ⟨rfl, line, hline, hsilent⟩⟩

/-- The state that makes a problem unsolvable is the lowest that a counted line leaves silently. -/
theorem Minimization.lowest_of_solve_eq_error
    (hread : (Minimization.read text).outcome = .ok m) (h : m.solve limit = .error e) :
    ∃ x ∈ m.dfa.states, e = .nondeterministic ⟨x, .epsilon⟩ ∧
      (∃ line ∈ countedLines (Text.lines text.toList), LeavesSilently x.name line) ∧
      ∀ y ∈ m.dfa.states,
        (∃ line ∈ countedLines (Text.lines text.toList), LeavesSilently y.name line) →
          x.id ≤ y.id := by
  obtain ⟨s, start, _, hbuilt⟩ := outcome_eq_ok_iff.mp hread
  obtain ⟨⟨x, label⟩, hfirst, rfl⟩ := Partition.isFirstOffence_of_minimize
    (Sheet.wellFormed_of_deterministic hbuilt) (solve_eq_error_iff.mp h)
  obtain ⟨rfl, hsilent⟩ := (offends_iff hread hfirst.state_mem).mp hfirst.offends
  refine ⟨x, hfirst.state_mem, rfl, hsilent, ?_⟩
  intro y hy hysilent
  exact hfirst.lowest y hy .epsilon ((offends_iff hread hy).mpr ⟨rfl, hysilent⟩)

/-- Whatever the limit on rounds, minimizing an automaton that the operations build fails exactly if
a state has a silent edge or two targets on one symbol, and the error names the lowest such state
and the least label with which it offends. For a text that the deterministic format reads these are
the sources of counted lines with the epsilon mark. -/
theorem minimization_failures :
    (∀ a : Automaton, a.Built → ∀ limit,
      ((∃ e, Partition.minimize a limit = .error e) ↔
        ∃ x ∈ a.states, ∃ label, a.Offends x.id label) ∧
      ∀ e, Partition.minimize a limit = .error e →
        ∃ offence, a.IsFirstOffence offence ∧ e = .nondeterministic offence) ∧
    ∀ text m, (Minimization.read text).outcome = .ok m → ∀ limit,
      ((∃ e, m.solve limit = .error e) ↔
        ∃ line ∈ countedLines (Text.lines text.toList), ∃ source, LeavesSilently source line) ∧
      ∀ e, m.solve limit = .error e →
        ∃ x ∈ m.dfa.states, e = .nondeterministic ⟨x, .epsilon⟩ ∧
          (∃ line ∈ countedLines (Text.lines text.toList), LeavesSilently x.name line) ∧
          ∀ y ∈ m.dfa.states,
            (∃ line ∈ countedLines (Text.lines text.toList), LeavesSilently y.name line) →
              x.id ≤ y.id := by
  constructor
  · intro a ha limit
    exact ⟨Partition.exists_minimize_eq_error_iff,
      fun e => Partition.isFirstOffence_of_minimize ha.wellFormed⟩
  · intro text m hread limit
    exact ⟨Minimization.exists_solve_eq_error_iff hread,
      fun e => Minimization.lowest_of_solve_eq_error hread⟩

/-- An automaton that offends twice at a state, and with a lesser label at a later one. -/
def offender : Automaton := .ofEdits (.ofSymbols ['a', 'b'])
  [.addState "p" false, .addState "q" true, .addEdge 0 .epsilon 1, .addEdge 0 (.symbol 'b') 0,
    .addEdge 0 (.symbol 'b') 1, .addEdge 1 (.symbol 'a') 0, .addEdge 1 (.symbol 'a') 1]

/-- A text whose last silent line has the lowest source. -/
def silentTwice : String := "1\nA\n1\na\n1\nC\n4\nB,$,A\nA,a,B\nC,$,A\nB,a,B\n"

theorem minimization_failures_offender :
    offender.IsFirstOffence ⟨⟨0, "p", false⟩, .symbol 'b'⟩ ∧
    ∃ m, (Minimization.read silentTwice).outcome = .ok m ∧ m.dfa.names = ["A", "C", "B"] ∧
      m.solve (some 0) = .error (.nondeterministic ⟨⟨1, "C", true⟩, .epsilon⟩) ∧
      ∃ line ∈ countedLines (Text.lines silentTwice.toList), LeavesSilently "C" line := by
  constructor
  · have hfails : Partition.minimize offender none =
        .error (.nondeterministic ⟨⟨0, "p", false⟩, .symbol 'b'⟩) := by decide
    obtain ⟨offence, hfirst, heq⟩ :=
      (minimization_failures.1 offender (Automaton.built_ofEdits _ _) none).2 _ hfails
    cases heq
    exact hfirst
  · have hread : (Minimization.read silentTwice).outcome =
        .ok ⟨.listed (.ofSymbols ['a']) ["A", "C", "B"] ["C"]
          (.ofList [⟨0, .symbol 'a', 2⟩, ⟨1, .epsilon, 0⟩, ⟨2, .epsilon, 0⟩,
            ⟨2, .symbol 'a', 2⟩])⟩ := by
      decide +kernel
    have hfails : Minimization.solve ⟨.listed (.ofSymbols ['a']) ["A", "C", "B"] ["C"]
        (.ofList [⟨0, .symbol 'a', 2⟩, ⟨1, .epsilon, 0⟩, ⟨2, .epsilon, 0⟩,
          ⟨2, .symbol 'a', 2⟩])⟩ (some 0) =
        .error (.nondeterministic ⟨⟨1, "C", true⟩, .epsilon⟩) := by
      decide +kernel
    obtain ⟨x, _, heq, hsilent, _⟩ := (minimization_failures.2 _ _ hread (some 0)).2 _ hfails
    cases heq
    exact ⟨_, hread, rfl, hfails, hsilent⟩

end FiniteState.Problem
