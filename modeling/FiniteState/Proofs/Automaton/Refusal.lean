import FiniteState.Proofs.Automaton.InPlace

/-! # What edits refuse

An edit is refused exactly for a few causes, of which the first in a fixed order is named if several
hold. A refused edit changes nothing: not the automaton, and no field of an indexed form of it that
is changed in place.
-/

namespace FiniteState

theorem Except.bind_eq_error_iff {ε α β : Type} {x : Except ε α} {f : α → Except ε β} {e : ε} :
    (x >>= f) = .error e ↔ x = .error e ∨ ∃ z, x = .ok z ∧ f z = .error e := by
  cases x <;> simp [bind, Except.bind]

/-- A fold that fails does so at one of the entries. -/
theorem exists_of_foldlM_eq_error {ε α β : Type} {f : β → α → Except ε β} {xs : List α} {b : β}
    {e : ε} (h : xs.foldlM f b = .error e) : ∃ x ∈ xs, ∃ b', f b' x = .error e := by
  induction xs generalizing b with
  | nil => cases h
  | cons x xs ih =>
    rw [List.foldlM_cons] at h
    rcases Except.bind_eq_error_iff.mp h with h | ⟨b', _, h⟩
    · exact ⟨x, List.mem_cons_self, b, h⟩
    · obtain ⟨y, hy, hfails⟩ := ih h
      exact ⟨y, List.mem_cons_of_mem x hy, hfails⟩

namespace Automaton

variable {a : Automaton} {q : StateId} {edge : Edge} {e : AutomatonError} {request : Edit}

/-- Why an edge does not fit: its symbol is looked at first, then its source, then its target. -/
inductive Misfit (a : Automaton) (edge : Edge) : AutomatonError → Prop where
  | foreignSymbol {c : Char} : edge.label = .symbol c → c ∉ a.alphabet →
      Misfit a edge (.foreignSymbol c)
  | unknownSource : a.alphabet.Allows edge.label → edge.source ∉ a →
      Misfit a edge (.unknownId edge.source)
  | unknownTarget : a.alphabet.Allows edge.label → edge.source ∈ a → edge.target ∉ a →
      Misfit a edge (.unknownId edge.target)

/-- Why an edit is refused. -/
inductive Refuses (a : Automaton) : Edit → AutomatonError → Prop where
  | takenName {name : String} {accepting : Bool} : name ∈ a.names →
      Refuses a (.addState name accepting) (.nameTaken name)
  | unknownRemoved {q : StateId} : q ∉ a → Refuses a (.removeState q) (.unknownId q)
  | startRemoved {q : StateId} {name : String} : a.start = some q → a.name? q = some name →
      Refuses a (.removeState q) (.startRemoval name)
  | unknownStart {q : StateId} : q ∉ a → Refuses a (.startAt q) (.unknownId q)
  | unknownAccepting {q : StateId} {accepting : Bool} : q ∉ a →
      Refuses a (.setAccepting q accepting) (.unknownId q)
  | misfit {source target : StateId} {label : Label} {e : AutomatonError} :
      a.Misfit ⟨source, label, target⟩ e → Refuses a (.addEdge source label target) e
  | misfitReplacing {source target : StateId} {c : Char} {e : AutomatonError} :
      a.Misfit ⟨source, .symbol c, target⟩ e → Refuses a (.replaceEdges source c target) e

/-! ## Refused edits -/

theorem stateOf_eq_ok_iff {s : State} : a.stateOf q = .ok s ↔ a.state? q = some s := by
  unfold stateOf
  cases a.state? q <;> simp

theorem stateOf_eq_error (hq : q ∉ a) : a.stateOf q = .error (.unknownId q) := by
  unfold stateOf
  cases hs : a.state? q with
  | none => rfl
  | some s => exact absurd (exists_stateOf_eq_ok_iff.mp ⟨s, stateOf_eq_ok_iff.mpr hs⟩) hq

/-- Only its ends are looked up of an edge with an allowed label. -/
theorem checkEdge_of_allows (h : a.alphabet.Allows edge.label) :
    a.checkEdge edge = (do
      let _ ← a.stateOf edge.source
      let _ ← a.stateOf edge.target) := by
  unfold checkEdge
  cases hlabel : edge.label with
  | symbol c =>
    have hc : c ∈ a.alphabet := by rwa [hlabel] at h
    simp only [if_pos hc]
  | epsilon => rfl

theorem Misfit.checkEdge_eq (h : a.Misfit edge e) : a.checkEdge edge = .error e := by
  cases h with
  | foreignSymbol hlabel hc =>
    simp only [checkEdge, hlabel, if_neg hc]
    rfl
  | unknownSource hallowed hsource =>
    rw [checkEdge_of_allows hallowed, stateOf_eq_error hsource]
    rfl
  | unknownTarget hallowed hsource htarget =>
    obtain ⟨s, hs⟩ := exists_stateOf_eq_ok_iff.mpr hsource
    rw [checkEdge_of_allows hallowed, hs, stateOf_eq_error htarget]
    rfl

/-- An edge that does not fit has a misfit. -/
theorem fits_or_misfit (a : Automaton) (edge : Edge) : a.Fits edge ∨ ∃ e, a.Misfit edge e := by
  by_cases hallowed : a.alphabet.Allows edge.label
  · by_cases hsource : edge.source ∈ a
    · by_cases htarget : edge.target ∈ a
      · exact .inl ⟨hallowed, hsource, htarget⟩
      · exact .inr ⟨_, .unknownTarget hallowed hsource htarget⟩
    · exact .inr ⟨_, .unknownSource hallowed hsource⟩
  · cases hlabel : edge.label with
    | symbol c =>
      rw [hlabel] at hallowed
      exact .inr ⟨_, .foreignSymbol hlabel hallowed⟩
    | epsilon =>
      rw [hlabel] at hallowed
      exact absurd trivial hallowed

theorem Refuses.edit_eq (h : a.Refuses request e) : a.edit request = .error e := by
  cases h with
  | takenName hname => exact if_pos hname
  | unknownRemoved hq => rw [edit, removeState, stateOf_eq_error hq]; rfl
  | startRemoved hstart hname =>
    obtain ⟨s, hs, rfl⟩ := Option.map_eq_some_iff.mp hname
    rw [edit, removeState, stateOf_eq_ok_iff.mpr hs]
    exact if_pos hstart
  | unknownStart hq => rw [edit, startAt, stateOf_eq_error hq]; rfl
  | unknownAccepting hq => rw [edit, setAccepting, stateOf_eq_error hq]; rfl
  | misfit hedge => rw [edit, addEdge, hedge.checkEdge_eq]; rfl
  | misfitReplacing hedge => rw [edit, replaceEdges, hedge.checkEdge_eq]; rfl

/-- An edit that is not refused succeeds. -/
theorem edit_ok_or_refused (a : Automaton) (request : Edit) :
    (∃ b, a.edit request = .ok b) ∨ ∃ e, a.Refuses request e := by
  cases request with
  | addState name accepting =>
    by_cases hname : name ∈ a.names
    · exact .inr ⟨_, .takenName hname⟩
    · exact .inl ⟨_, addState_eq_ok_iff.mpr ⟨hname, rfl⟩⟩
  | addNumbered accepting => exact .inl ⟨_, rfl⟩
  | addUnlessNamed name => exact .inl ⟨_, rfl⟩
  | removeState q =>
    by_cases hq : q ∈ a
    · by_cases hstart : a.start = some q
      · obtain ⟨s, hs⟩ := exists_stateOf_eq_ok_iff.mpr hq
        have hname : a.name? q = some s.name :=
          Option.map_eq_some_iff.mpr ⟨s, stateOf_eq_ok_iff.mp hs, rfl⟩
        exact .inr ⟨_, .startRemoved hstart hname⟩
      · exact .inl ⟨_, removeState_eq_ok_iff.mpr ⟨hq, hstart, rfl⟩⟩
    · exact .inr ⟨_, .unknownRemoved hq⟩
  | startAt q =>
    by_cases hq : q ∈ a
    · exact .inl ⟨_, startAt_eq_ok_iff.mpr ⟨hq, rfl⟩⟩
    · exact .inr ⟨_, .unknownStart hq⟩
  | setAccepting q accepting =>
    by_cases hq : q ∈ a
    · exact .inl ⟨_, setAccepting_eq_ok_iff.mpr ⟨hq, rfl⟩⟩
    · exact .inr ⟨_, .unknownAccepting hq⟩
  | addEdge source label target =>
    rcases a.fits_or_misfit ⟨source, label, target⟩ with hfits | ⟨e, hedge⟩
    · exact .inl ⟨_, addEdge_eq_ok_iff.mpr ⟨hfits, rfl⟩⟩
    · exact .inr ⟨e, .misfit hedge⟩
  | replaceEdges source c target =>
    rcases a.fits_or_misfit ⟨source, .symbol c, target⟩ with hfits | ⟨e, hedge⟩
    · exact .inl ⟨_, replaceEdges_eq_ok_iff.mpr ⟨hfits, rfl⟩⟩
    · exact .inr ⟨e, .misfitReplacing hedge⟩

theorem edit_eq_error_iff : a.edit request = .error e ↔ a.Refuses request e := by
  refine ⟨?_, Refuses.edit_eq⟩
  intro h
  rcases a.edit_ok_or_refused request with ⟨b, hb⟩ | ⟨e', he'⟩
  · cases hb.symm.trans h
  · cases he'.edit_eq.symm.trans h
    exact he'

/-! ## Known states -/

theorem resolve_eq_ok_iff {name : String} {q : StateId} :
    a.resolve name = .ok q ↔ a.idOf? name = some q := by
  unfold resolve
  cases a.idOf? name <;> simp

theorem resolve_eq_error_iff {name : String} :
    a.resolve name = .error e ↔ name ∉ a.names ∧ e = .unknownName name := by
  rw [← idOf?_eq_none_iff]
  unfold resolve
  cases a.idOf? name <;> simp [eq_comm]

theorem mem_of_resolve {name : String} {q : StateId} (h : a.resolve name = .ok q) : q ∈ a :=
  mem_of_idOf? (resolve_eq_ok_iff.mp h)

/-- Known states can be made accepting. -/
theorem setAccepting_ne_error {q : StateId} (hq : q ∈ a) : a.setAccepting q true ≠ .error e := by
  rw [setAccepting_eq_ok_iff.mpr ⟨hq, rfl⟩]
  exact nofun

theorem mem_names_addUnlessNamed (a : Automaton) (name : String) :
    name ∈ (a.addUnlessNamed name).names := by
  unfold addUnlessNamed
  split
  next hname => exact hname
  next => simp [names, insertState]

/-- Between known states only the symbol of an edge can be wrong. -/
theorem Misfit.eq_foreignSymbol (h : a.Misfit edge e) (hsource : edge.source ∈ a)
    (htarget : edge.target ∈ a) : ∃ c, edge.label = .symbol c ∧ e = .foreignSymbol c := by
  cases h with
  | foreignSymbol hlabel _ => exact ⟨_, hlabel, rfl⟩
  | unknownSource _ hunknown => exact absurd hsource hunknown
  | unknownTarget _ _ hunknown => exact absurd htarget hunknown

theorem foreignSymbol_of_addEdge {source target : StateId} {label : Label} (hsource : source ∈ a)
    (htarget : target ∈ a) (h : a.addEdge source label target = .error e) :
    ∃ c, label = .symbol c ∧ e = .foreignSymbol c := by
  have hrefused : a.Refuses (.addEdge source label target) e := edit_eq_error_iff.mp h
  cases hrefused with
  | misfit hedge => exact hedge.eq_foreignSymbol hsource htarget

theorem foreignSymbol_of_replaceEdges {source target : StateId} {c : Char} (hsource : source ∈ a)
    (htarget : target ∈ a) (h : a.replaceEdges source c target = .error e) :
    e = .foreignSymbol c := by
  have hrefused : a.Refuses (.replaceEdges source c target) e := edit_eq_error_iff.mp h
  cases hrefused with
  | misfitReplacing hedge =>
    obtain ⟨d, hlabel, rfl⟩ := hedge.eq_foreignSymbol hsource htarget
    cases hlabel
    rfl

/-! ## Edits that change nothing -/

/-- An edit is refused exactly for the listed causes, and then the automaton stays as it is. It has
indexed forms. Run in place on any of them, the edit fails exactly if it is refused, with the same
error and no field changed, and otherwise ends with a form of the automaton that it gives. -/
theorem edit_refused_iff (ha : a.Built) (request : Edit) (e : AutomatonError) :
    (a.edit request = .error e ↔ a.Refuses request e) ∧
      (a.Refuses request e → a.after request = a) ∧
      (∃ x : IndexedAutomaton, x.Represents a) ∧
      ∀ x : IndexedAutomaton, x.Represents a →
        (∀ y, runFrom (IndexedAutomaton.InPlace.edit request) x = (.error e, y) ↔
          a.Refuses request e ∧ y = x) ∧
        ∀ b, a.edit request = .ok b → ∃ y : IndexedAutomaton, y.Represents b ∧
          runFrom (IndexedAutomaton.InPlace.edit request) x = (.ok (a.answer request), y) := by
  refine ⟨edit_eq_error_iff, ?_, IndexedAutomaton.exists_represents ha.wellFormed, ?_⟩
  · intro h
    rw [after, h.edit_eq]
  · intro x hx
    obtain ⟨reply, hreply, hsame⟩ := hx.perform ha.wellFormed request
    rw [IndexedAutomaton.InPlace.runFrom_edit hreply, ← edit_eq_error_iff]
    generalize a.edit request = result at hsame
    cases hsame with
    | refused e' =>
      refine ⟨?_, ?_⟩
      · intro y
        simp [IndexedAutomaton.InPlace.settle, eq_comm]
      · intro b hb
        cases hb
    | @done z b' hz =>
      refine ⟨?_, ?_⟩
      · intro y
        simp [IndexedAutomaton.InPlace.settle]
      · intro b hb
        cases hb
        exact ⟨z, hz, rfl⟩

/-- Two states and an edge for the only symbol. -/
def linked : Automaton := .ofEdits (.ofSymbols ['a'])
  [.addState "p" false, .addState "q" true, .addEdge 0 (.symbol 'a') 1]

/-- Of an edge with a foreign symbol that leads from and to unknown states the symbol is named. -/
theorem edit_refused_iff_linked :
    linked.edit (.addEdge 5 (.symbol 'b') 7) = .error (.foreignSymbol 'b') ∧
      linked.after (.addEdge 5 (.symbol 'b') 7) = linked ∧
      ∃ x : IndexedAutomaton, x.Represents linked ∧
        runFrom (IndexedAutomaton.InPlace.edit (.addEdge 5 (.symbol 'b') 7)) x =
          (.error (.foreignSymbol 'b'), x) := by
  obtain ⟨hrefused, hafter, ⟨x, hx⟩, hrun⟩ := edit_refused_iff
    (built_ofEdits (.ofSymbols ['a']) _ : linked.Built) (.addEdge 5 (.symbol 'b') 7)
    (.foreignSymbol 'b')
  have hmisfit : linked.Refuses (.addEdge 5 (.symbol 'b') 7) (.foreignSymbol 'b') :=
    .misfit (.foreignSymbol rfl (by decide))
  exact ⟨hrefused.mpr hmisfit, hafter hmisfit, x, hx, ((hrun x hx).1 x).mpr ⟨hmisfit, rfl⟩⟩

end Automaton

end FiniteState
