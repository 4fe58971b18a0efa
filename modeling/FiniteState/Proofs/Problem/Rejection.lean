import FiniteState.Proofs.Problem.Sheet

/-! # Rejected problem texts

Every text that a format rejects has a fault. So the number in an error is that of a line of the
text, or of the one after the last where a line is missing, and an error that comes from the
automaton is about something that the line with its number mentions. There are two exceptions: a
line without a start is reported as missing, and a state that is declared twice with the number of
the line of the alphabet.
-/

namespace FiniteState.Problem

/-- A text is rejected in a format with an error. -/
inductive Rejects (text : String) : Format → Error → Prop where
  | acceptance {e : Error} : (Acceptance.read text).outcome = .error e →
      Rejects text .acceptance e
  | determinization {e : Error} : (Determinization.read text).outcome = .error e →
      Rejects text .determinization e
  | matching {e : Error} : (Matching.read text).outcome = .error e → Rejects text .matching e
  | minimization {e : Error} : (Minimization.read text).outcome = .error e →
      Rejects text .minimization e

/-! ## What automata refuse to a text -/

section Refused

variable {a : Automaton} {names : List String} {t : Transition} {e : AutomatonError}

/-- Only a name that is listed twice, or in use before, cannot be declared. -/
theorem nameTaken_of_declareStates (h : declareStates a names = .error e) :
    ∃ name, e = .nameTaken name ∧ 1 < (a.names ++ names).count name := by
  induction names generalizing a with
  | nil => cases h
  | cons name names ih =>
    rw [declareStates, List.foldlM_cons] at h
    rcases Except.bind_eq_error_iff.mp h with h | ⟨b, hb, h⟩
    · obtain ⟨hname⟩ : a.Refuses (.addState name false) e := Automaton.edit_eq_error_iff.mp h
      have hused : 0 < a.names.count name := List.count_pos_iff.mpr hname
      refine ⟨name, rfl, ?_⟩
      rw [List.count_append, List.count_cons_self]
      omega
    · obtain ⟨_, rfl⟩ := Automaton.addState_eq_ok_iff.mp hb
      simpa [Automaton.names, Automaton.insertState] using ih h

theorem unknownName_of_acceptDeclared (h : acceptDeclared a names = .error e) :
    ∃ name ∈ names, e = .unknownName name := by
  obtain ⟨name, hname, b, h⟩ := exists_of_foldlM_eq_error h
  refine ⟨name, hname, ?_⟩
  rcases Except.bind_eq_error_iff.mp h with h | ⟨q, hq, h⟩
  · exact (Automaton.resolve_eq_error_iff.mp h).2
  · exact absurd h (Automaton.setAccepting_ne_error (Automaton.mem_of_resolve hq))

/-- States that are declared by being named are always known. -/
theorem acceptNamed_ne_error : acceptNamed a names ≠ .error e := by
  intro h
  obtain ⟨name, _, b, h⟩ := exists_of_foldlM_eq_error h
  rcases Except.bind_eq_error_iff.mp h with h | ⟨q, hq, h⟩
  · exact (Automaton.resolve_eq_error_iff.mp h).1 (b.mem_names_addUnlessNamed name)
  · exact Automaton.setAccepting_ne_error (Automaton.mem_of_resolve hq) h

/-- If both ends of a transition are known, only its edge can be refused. -/
theorem unfit_of_resolve {f : StateId → StateId → Except AutomatonError Automaton}
    (h : (do
      let source ← a.resolve t.source
      let target ← a.resolve t.target
      f source target) = .error e)
    (hf : ∀ source ∈ a, ∀ target ∈ a, f source target = .error e → t.Unfit e) : t.Unfit e := by
  rcases Except.bind_eq_error_iff.mp h with h | ⟨source, hsource, h⟩
  · obtain ⟨_, rfl⟩ := Automaton.resolve_eq_error_iff.mp h
    exact .source
  · rcases Except.bind_eq_error_iff.mp h with h | ⟨target, htarget, h⟩
    · obtain ⟨_, rfl⟩ := Automaton.resolve_eq_error_iff.mp h
      exact .target
    · exact hf source (Automaton.mem_of_resolve hsource) target
        (Automaton.mem_of_resolve htarget) h

theorem unfit_of_addTo (h : t.addTo a = .error e) : t.Unfit e := by
  apply unfit_of_resolve h
  intro source hsource target htarget h
  obtain ⟨c, hlabel, rfl⟩ := Automaton.foreignSymbol_of_addEdge hsource htarget h
  exact .symbol hlabel

theorem unfit_of_replaceIn (h : t.replaceIn a = .error e) : t.Unfit e := by
  apply unfit_of_resolve h
  intro source hsource target htarget h
  split at h
  next c hlabel =>
    cases Automaton.foreignSymbol_of_replaceEdges hsource htarget h
    exact .symbol hlabel
  next =>
    obtain ⟨c, hlabel, _⟩ := Automaton.foreignSymbol_of_addEdge hsource htarget h
    cases hlabel

end Refused

/-! ## What formats reject -/

section Formats

variable {lines : List (List Char)} {text : String} {format : Format} {e : Error} {c : Cursor}

namespace Reader

/-- Transitions that stand in the text are brought in, or refused for causes that their lines
show. -/
theorem applyTransitions_ensures
    {apply : Transition → Automaton → Except AutomatonError Automaton}
    (happly : ∀ t a e, apply t a = .error e → t.Unfit e) {ts : List Transition}
    (hts : ∀ t ∈ ts, t.StandsIn lines) (a : Automaton) :
    Ensures (applyTransitions apply a ts) c
      (fun b _ => ts.foldlM (fun a t => apply t a) a = .ok b) (Fault lines format) := by
  induction ts generalizing a c with
  | nil => exact ensures_pure rfl
  | cons t ts ih =>
    obtain ⟨ht, hrest⟩ := List.forall_mem_cons.mp hts
    rw [applyTransitions, List.foldlM_cons]
    apply Ensures.bind (atLine_ensures ?_)
    · intro b d hd
      rw [List.foldlM_cons, hd.2]
      exact ih hrest b
    · intro e he
      exact .unfit ht (happly t a e he)

/-- The nondeterministic format makes of a text what it makes of its sheet. -/
theorem nondeterministic_ensures (hformat : format = .acceptance ∨ format = .determinization)
    (text : String) :
    Ensures nondeterministic (.ofText text)
      (fun a _ => ∃ sheet, Sheet.ofText? text = some sheet ∧ sheet.nondeterministic = .ok a)
      (Fault (Text.lines text.toList) format) := by
  apply Ensures.bind (count_ensures (Cursor.taken_ofText text) _)
  intro stateCount c₁ hc₁
  apply Ensures.bind (words_ensures hc₁.1 _ _ _)
  intro names c₂ hc₂
  obtain ⟨htaken₂, line₂, hline₂, rfl⟩ := hc₂
  apply Ensures.bind (alphabet_ensures htaken₂)
  intro alphabet c₄ hc₄
  obtain ⟨htaken₄, line₄, hline₄, rfl⟩ := hc₄
  apply Ensures.bind (here_ensures htaken₄ ?_)
  · intro declared c₄' hc₄'
    obtain ⟨htaken₄', hdeclared⟩ := hc₄'
    apply Ensures.bind (count_ensures htaken₄' _)
    intro finalCount c₅ hc₅
    apply Ensures.bind (words_ensures hc₅.1 _ _ _)
    intro finals c₆ hc₆
    obtain ⟨htaken₆, line₆, hline₆, rfl⟩ := hc₆
    apply Ensures.bind (here_ensures htaken₆ ?_)
    · intro marked c₆' hc₆'
      obtain ⟨htaken₆', hmarked⟩ := hc₆'
      apply Ensures.bind (transitions_ensures htaken₆')
      intro ts c hts
      apply (applyTransitions_ensures (fun t a e => unfit_of_addTo)
        (standsIn_of_transitionsAt? hts) marked).mono
      intro a _ ha
      exact ⟨_, Sheet.ofLines?_eq_some_iff.mpr ⟨_, hline₂, _, hline₄, _, hline₆, ts, hts, rfl⟩,
        Sheet.nondeterministic_eq_ok_iff_steps.mpr ⟨declared, hdeclared, marked, hmarked, ha⟩⟩
    · intro e he
      obtain ⟨name, hname, rfl⟩ := unknownName_of_acceptDeclared he
      exact .unknownFinal hformat hline₆ hname
  · intro e he
    obtain ⟨name, rfl, htwice⟩ := nameTaken_of_declareStates he
    exact .takenName hformat htaken₄.le_length hline₂ htwice

theorem startName_ensures (hc : c.Taken lines 1) :
    Ensures startName c
      (fun start d => d.Taken lines 2 ∧
        ∃ line, lineAt? lines 2 = some line ∧ (namesIn line).head? = some start)
      (Fault lines .minimization) := by
  apply Ensures.bind (nextLine_ensures hc _)
  intro line d hd
  obtain ⟨htaken, hline⟩ := hd
  split
  next hwords => exact ensures_pure ⟨htaken, line, hline, by rw [namesIn, hwords]; rfl⟩
  next hwords =>
    apply fail_ensures htaken
    exact .startless rfl hline (by rw [namesIn, hwords, List.map_nil])

/-- So does the deterministic format, with the first word of the line of the states as start. -/
theorem deterministic_ensures (text : String) :
    Ensures deterministic (.ofText text)
      (fun a _ => ∃ sheet start, Sheet.ofText? text = some sheet ∧
        sheet.names.head? = some start ∧ sheet.deterministic start = .ok a)
      (Fault (Text.lines text.toList) .minimization) := by
  apply Ensures.bind (count_ensures (Cursor.taken_ofText text) _)
  intro _ c₁ hc₁
  apply Ensures.bind (startName_ensures hc₁.1)
  intro start c₂ hc₂
  obtain ⟨htaken₂, line₂, hline₂, hstart⟩ := hc₂
  apply Ensures.bind (alphabet_ensures htaken₂)
  intro alphabet c₄ hc₄
  obtain ⟨htaken₄, line₄, hline₄, rfl⟩ := hc₄
  apply Ensures.bind (here_ensures htaken₄ ?_)
  · intro declared c₄' hc₄'
    obtain ⟨htaken₄', hdeclared⟩ := hc₄'
    apply Ensures.bind (count_ensures htaken₄' _)
    intro finalCount c₅ hc₅
    apply Ensures.bind (words_ensures hc₅.1 _ _ _)
    intro finals c₆ hc₆
    obtain ⟨htaken₆, line₆, hline₆, rfl⟩ := hc₆
    apply Ensures.bind (here_ensures htaken₆ fun e he => absurd he acceptNamed_ne_error)
    intro marked c₆' hc₆'
    obtain ⟨htaken₆', hmarked⟩ := hc₆'
    apply Ensures.bind (transitions_ensures htaken₆')
    intro ts c hts
    apply (applyTransitions_ensures (fun t a e => unfit_of_replaceIn)
      (standsIn_of_transitionsAt? hts) _).mono
    intro a _ ha
    exact ⟨_, start,
      Sheet.ofLines?_eq_some_iff.mpr ⟨_, hline₂, _, hline₄, _, hline₆, ts, hts, rfl⟩, hstart,
      Sheet.deterministic_eq_ok_iff_steps.mpr ⟨declared, hdeclared, marked, hmarked, ha⟩⟩
  · intro e he
    -- The first state has no name to clash with.
    obtain ⟨⟨⟩⟩ : (Automaton.new _).Refuses (.addState start false) e :=
      Automaton.edit_eq_error_iff.mp he

end Reader

theorem Acceptance.reader_diagnoses (text : String) :
    Reader.Diagnoses Acceptance.reader .acceptance text := by
  apply Ensures.bind (Reader.nondeterministic_ensures (.inl rfl) text)
  intro nfa c _
  apply Ensures.bind Reader.inputWord_ensures
  intro word d _
  exact ensures_pure trivial

theorem Determinization.reader_ensures (text : String) :
    Ensures Determinization.reader (.ofText text)
      (fun d _ => ∃ sheet, Sheet.ofText? text = some sheet ∧ sheet.nondeterministic = .ok d.nfa)
      (Fault (Text.lines text.toList) .determinization) := by
  apply Ensures.bind (Reader.nondeterministic_ensures (.inr rfl) text)
  intro nfa c hnfa
  exact ensures_pure hnfa

theorem Matching.reader_diagnoses (text : String) :
    Reader.Diagnoses Matching.reader .matching text := by
  apply Ensures.bind (Reader.nextLine_ensures (Cursor.taken_ofText text) _)
  intro _ c₁ hc₁
  apply Ensures.bind (Reader.nextLine_ensures hc₁.1 _)
  intro _ c₂ hc₂
  apply Ensures.bind (Reader.nextLine_ensures hc₂.1 _)
  intro line c₃ hc₃
  obtain ⟨htaken₃, hline⟩ := hc₃
  split
  next p _ =>
    apply Ensures.bind Reader.inputWord_ensures
    intro word c₄ _
    exact ensures_pure trivial
  next parseError hpattern => exact Reader.fail_ensures htaken₃ (.pattern rfl hline hpattern)

theorem Minimization.reader_ensures (text : String) :
    Ensures Minimization.reader (.ofText text)
      (fun m _ => ∃ sheet start, Sheet.ofText? text = some sheet ∧
        sheet.names.head? = some start ∧ sheet.deterministic start = .ok m.dfa)
      (Fault (Text.lines text.toList) .minimization) := by
  apply Ensures.bind (Reader.deterministic_ensures text)
  intro dfa c hdfa
  exact ensures_pure hdfa

/-- A text that a format rejects has a fault, and the error says which. -/
theorem fault_of_rejects (h : Rejects text format e) : Fault (Text.lines text.toList) format e := by
  cases h with
  | acceptance h => exact (Acceptance.reader_diagnoses text).of_error h
  | determinization h => exact (Determinization.reader_ensures text).of_error h
  | matching h => exact (Matching.reader_diagnoses text).of_error h
  | minimization h => exact (Minimization.reader_ensures text).of_error h

/-! ## The number of the line -/

/-- Every error has the number of a line, or of the one that is absent after the last. A line is
reported as missing only if it is that one, or if it is the line of the start of a deterministic
automaton, which is there but holds no word. -/
theorem rejects_line (h : Rejects text format e) :
    (1 ≤ e.line ∧ e.line ≤ (Text.lines text.toList).length + 1) ∧
      ∀ role, e.cause = .missingLine role →
        e.line = (Text.lines text.toList).length + 1 ∨
          format = .minimization ∧ role = .startState ∧ e.line = 2 ∧
            ∃ line, lineAt? (Text.lines text.toList) 2 = some line ∧ namesIn line = [] := by
  refine ⟨(fault_of_rejects h).line_bounds, ?_⟩
  intro role hrole
  cases fault_of_rejects h with
  | absent => exact .inl rfl
  | startless hformat hline hwords =>
    cases hrole
    exact .inr ⟨hformat, rfl, rfl, _, hline, hwords⟩
  | _ => cases hrole

/-- Here the start is reported as missing in a line that is there. -/
theorem rejects_line_blank :
    Rejects "1\n\n" .minimization ⟨2, .missingLine .startState⟩ ∧
      ∃ line, lineAt? (Text.lines "1\n\n".toList) 2 = some line ∧ namesIn line = [] := by
  have hrejects : Rejects "1\n\n" .minimization ⟨2, .missingLine .startState⟩ :=
    .minimization (by decide)
  rcases (rejects_line hrejects).2 .startState rfl with hend | ⟨_, _, _, hblank⟩
  · exact absurd hend (by decide)
  · exact ⟨hrejects, hblank⟩

/-- The line that is reported as missing is the second of two. -/
theorem blank_reported_missing :
    Rejects "1\n\n" .minimization ⟨2, .missingLine .startState⟩ ∧
      (Text.lines "1\n\n".toList).length ≠ 2 - 1 :=
  ⟨.minimization (by decide), by decide⟩

/-! ## What the line mentions -/

/-- The parts of a line between commas, without blanks at their ends. -/
def fieldsOf (line : List Char) : List String :=
  (((Text.trim line).splitOn ',').map Text.trim).map String.ofList

/-- The name or the symbol that an error is about, if it is about one. -/
def subject? : AutomatonError → Option String
  | .foreignSymbol c => some c.toString
  | .unknownName name | .nameTaken name => some name
  | _ => none

/-- A line has what an error is about as a word or as a field of a transition. -/
def Mentions (line : List Char) (e : AutomatonError) : Prop :=
  ∃ part ∈ namesIn line ++ fieldsOf line, subject? e = some part

instance (line : List Char) (e : AutomatonError) : Decidable (Mentions line e) :=
  inferInstanceAs (Decidable (∃ part ∈ _, _))

/-- The fields of a line that holds a transition are its three parts. -/
theorem fieldsOf_of_transitionParts? {line : List Char} {source target : String} {label : Label}
    (h : transitionParts? (Text.trim line) = some (source, label, target)) :
    ∃ token, Label.ofToken token = label ∧ fieldsOf line = [source, token.toString, target] := by
  unfold transitionParts? at h
  split at h
  next s token t hfields =>
    split at h
    next => cases h
    next =>
      cases h
      refine ⟨token, rfl, ?_⟩
      rw [fieldsOf, hfields]
      rfl
  next => cases h

theorem eq_of_ofToken_eq_symbol {token c : Char} (h : Label.ofToken token = .symbol c) :
    token = c := by
  unfold Label.ofToken at h
  split at h
  next => cases h
  next =>
    cases h
    rfl

/-- What is refused of a transition stands in its line. -/
theorem Transition.Unfit.mentions {t : Transition} {cause : AutomatonError} (h : t.Unfit cause)
    (ht : t.StandsIn lines) :
    ∃ line, lineAt? lines t.line = some line ∧ Mentions line cause := by
  obtain ⟨line, hline, hparts⟩ := ht
  obtain ⟨token, htoken, hfields⟩ := fieldsOf_of_transitionParts? hparts
  have hfield {part : String} (hpart : part ∈ [t.source, token.toString, t.target])
      (hsubject : subject? cause = some part) : Mentions line cause := by
    rw [← hfields] at hpart
    exact ⟨part, List.mem_append_right _ hpart, hsubject⟩
  refine ⟨line, hline, ?_⟩
  cases h with
  | source => exact hfield (by simp) rfl
  | target => exact hfield (by simp) rfl
  | symbol hlabel =>
    cases eq_of_ofToken_eq_symbol (htoken.trans hlabel)
    exact hfield (by simp) rfl

/-- The line that an error of the automaton carries mentions what the error is about. The one
exception is a state that is declared twice, in the second line: the error carries the number of
the line of the alphabet, which need not mention the state. -/
theorem automatonError_line {n : Nat} {cause : AutomatonError}
    (h : Rejects text format ⟨n, .automaton cause⟩) :
    ((∀ name, cause ≠ .nameTaken name) →
        ∃ line, lineAt? (Text.lines text.toList) n = some line ∧ Mentions line cause) ∧
      ∀ name, cause = .nameTaken name →
        (format = .acceptance ∨ format = .determinization) ∧ n = 4 ∧
          ∃ line, lineAt? (Text.lines text.toList) 2 = some line ∧
            1 < (namesIn line).count name := by
  cases fault_of_rejects h with
  | @takenName line name hformat _ hline htwice =>
    refine ⟨fun hother => absurd rfl (hother name), ?_⟩
    intro name' hname
    cases hname
    exact ⟨hformat, rfl, line, hline, htwice⟩
  | @unknownFinal line name _ hline hname =>
    refine ⟨?_, nofun⟩
    intro _
    exact ⟨line, hline, name, List.mem_append_left _ hname, rfl⟩
  | unfit ht hunfit =>
    refine ⟨fun _ => hunfit.mentions ht, ?_⟩
    intro name hname
    subst hname
    cases hunfit

/-- The source of the only transition is not declared. -/
theorem automatonError_line_source :
    Rejects "1\nA\n1\na\n0\n\n1\nX,a,A\n" .minimization ⟨8, .automaton (.unknownName "X")⟩ ∧
      ∃ line, lineAt? (Text.lines "1\nA\n1\na\n0\n\n1\nX,a,A\n".toList) 8 = some line ∧
        Mentions line (.unknownName "X") := by
  have hrejects : Rejects "1\nA\n1\na\n0\n\n1\nX,a,A\n" .minimization
      ⟨8, .automaton (.unknownName "X")⟩ := .minimization (by decide)
  exact ⟨hrejects, (automatonError_line hrejects).1 nofun⟩

/-- A state that is declared twice is reported at the line of the alphabet. -/
theorem duplicate_reported_at_alphabet :
    Rejects "2\nq q\n1\na\n0\n\n0\n" .acceptance ⟨4, .automaton (.nameTaken "q")⟩ ∧
      ∃ line, lineAt? (Text.lines "2\nq q\n1\na\n0\n\n0\n".toList) 4 = some line ∧
        ¬ Mentions line (.nameTaken "q") :=
  ⟨.acceptance (by decide), _, rfl, by decide⟩

end Formats

end FiniteState.Problem
