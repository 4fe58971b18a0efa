import FiniteState.Proofs.Automaton.Offence
import FiniteState.Proofs.Problem.Declared
import FiniteState.Proofs.Problem.Rejection

/-! # Messages take one line

Whatever a message about a problem text quotes stands in one of its lines, and so has no line feed.
This holds for the errors of readers and for a refusal to refine what was read.
-/

namespace FiniteState

/-- A text without a line feed. -/
def OneLine (text : String) : Prop := '\n' ∉ text.toList

variable {cs : List Char}

theorem oneLine_ofList (h : '\n' ∉ cs) : OneLine (.ofList cs) := by
  rwa [OneLine, String.toList_ofList]

theorem oneLine_toString (n : Nat) : OneLine (toString n) :=
  (Text.isLine_of_isSolid (Text.isSolid_toString n)).1

theorem ParseError.oneLine_message (e : ParseError) : OneLine e.message := by
  have hoffset : '\n' ∉ (toString e.offset).toList := oneLine_toString e.offset
  have hfault : '\n' ∉ e.fault.message.toList := by cases e.fault <;> simp [ParseFault.message]
  simp only [OneLine, message, String.toList_append, List.mem_append, hoffset, hfault]
  simp

namespace Problem

variable {line : List Char} {format : Format} {text part : String}

/-! ## Errors of readers -/

theorem oneLine_of_mem_parts (hline : '\n' ∉ line) (h : part ∈ namesIn line ++ fieldsOf line) :
    OneLine part := by
  rcases List.mem_append.mp h with h | h
  · obtain ⟨word, hword, rfl⟩ := List.mem_map.mp h
    exact oneLine_ofList fun hfeed => hline (Text.subset_of_mem_words hword hfeed)
  · obtain ⟨field, hfield, rfl⟩ := List.mem_map.mp h
    obtain ⟨piece, hpiece, rfl⟩ := List.mem_map.mp hfield
    exact oneLine_ofList fun hfeed => hline
      (Text.trim_subset _ (Text.subset_of_mem_splitOnP hpiece (Text.trim_subset _ hfeed)))

/-- What an error of the automaton is about is all that its message quotes. -/
theorem oneLine_message_of_mentions {e : AutomatonError} (h : Mentions line e)
    (hline : '\n' ∉ line) : OneLine e.message := by
  obtain ⟨part, hpart, hsubject⟩ := h
  have honeLine : '\n' ∉ part.toList := oneLine_of_mem_parts hline hpart
  unfold OneLine AutomatonError.message
  cases e with
  | foreignSymbol c =>
    dsimp only
    rw [Option.some.inj hsubject]
    simp [honeLine]
  | unknownName name =>
    cases hsubject
    simp [honeLine]
  | nameTaken name =>
    cases hsubject
    simp [honeLine]
  | unknownId => cases hsubject
  | startRemoval => cases hsubject
  | nondeterministic => cases hsubject

theorem feed_not_mem_of_lineAt? {n : Nat} (h : lineAt? (Text.lines text.toList) n = some line) :
    '\n' ∉ line := by
  cases n with
  | zero => cases h
  | succ n => exact Text.feed_not_mem_of_mem_lines (List.mem_of_getElem? h)

theorem Cause.oneLine_missingLine (role : LineRole) : OneLine (missingLine role).message := by
  have hrole : '\n' ∉ role.text.toList := by cases role <;> simp [LineRole.text]
  unfold OneLine message
  simp [hrole]

theorem Cause.oneLine_invalidCount (h : OneLine part) : OneLine (invalidCount part).message := by
  unfold OneLine message at *
  simp [h]

theorem Cause.oneLine_malformedTransition (h : OneLine part) :
    OneLine (malformedTransition part).message := by
  unfold OneLine message at *
  simp [h]

/-- What a fault quotes stands in a line. -/
theorem Fault.oneLine_message {e : Error} (h : Fault (Text.lines text.toList) format e) :
    OneLine e.message := by
  have hquoted {n : Nat} {line : List Char}
      (hline : lineAt? (Text.lines text.toList) n = some line) :
      OneLine (.ofList (Text.trim line)) :=
    oneLine_ofList fun hfeed => feed_not_mem_of_lineAt? hline (Text.trim_subset line hfeed)
  have hcause : '\n' ∉ e.cause.message.toList := by
    cases h with
    | absent role => exact Cause.oneLine_missingLine role
    | startless => exact Cause.oneLine_missingLine .startState
    | uncounted hline _ => exact Cause.oneLine_invalidCount (hquoted hline)
    | malformed hline _ => exact Cause.oneLine_malformedTransition (hquoted hline)
    | takenName _ _ hline htwice =>
      have hname := List.count_pos_iff.mp (Nat.zero_lt_of_lt htwice)
      exact oneLine_message_of_mentions ⟨_, List.mem_append_left _ hname, rfl⟩
        (feed_not_mem_of_lineAt? hline)
    | unknownFinal _ hline hname =>
      exact oneLine_message_of_mentions ⟨_, List.mem_append_left _ hname, rfl⟩
        (feed_not_mem_of_lineAt? hline)
    | unfit ht hunfit =>
      obtain ⟨line, hline, hmentions⟩ := hunfit.mentions ht
      exact oneLine_message_of_mentions hmentions (feed_not_mem_of_lineAt? hline)
    | pattern => exact ParseError.oneLine_message _
  have hnumber : '\n' ∉ (toString e.line).toList := oneLine_toString e.line
  simp only [OneLine, Error.message, lineLabel, String.toList_append, List.mem_append, hnumber,
    hcause]
  simp

/-! ## Refusals to refine -/

theorem Minimization.solve_eq_error_iff {m : Minimization} {limit : Option Nat}
    {e : AutomatonError} :
    m.solve limit = .error e ↔ Partition.minimize m.dfa limit = .error e :=
  Except.map_eq_error_iff

/-- Refining is refused with a state of the automaton and the label of one of its edges. -/
theorem Minimization.exists_of_solve_eq_error {m : Minimization} {limit : Option Nat}
    {e : AutomatonError} (h : m.solve limit = .error e) :
    ∃ offence : Nondeterminism, e = .nondeterministic offence ∧ offence.state ∈ m.dfa.states ∧
      ∃ edge ∈ m.dfa.edges, edge.label = offence.label := by
  obtain ⟨offence, hoffence, rfl⟩ := Partition.minimize_eq_error_iff.mp (solve_eq_error_iff.mp h)
  obtain ⟨hstate, edge, hedge, _, hlabel⟩ := Automaton.exists_edge_of_nondeterminism? hoffence
  exact ⟨offence, rfl, hstate, edge, hedge, hlabel⟩

/-- The parts of a transition stand in its line. -/
theorem Transition.StandsIn.oneLine {t : Transition} (ht : t.StandsIn (Text.lines text.toList)) :
    OneLine t.source ∧ OneLine t.label.text ∧ OneLine t.target := by
  obtain ⟨line, hline, hparts⟩ := ht
  obtain ⟨token, htoken, hfields⟩ := fieldsOf_of_transitionParts? hparts
  have hpart {part : String} (h : part ∈ [t.source, token.toString, t.target]) : OneLine part := by
    rw [← hfields] at h
    exact oneLine_of_mem_parts (feed_not_mem_of_lineAt? hline) (List.mem_append_right _ h)
  refine ⟨hpart (by simp), ?_, hpart (by simp)⟩
  cases hlabel : t.label with
  | symbol c =>
    cases eq_of_ofToken_eq_symbol (htoken.trans hlabel)
    exact hpart (List.mem_cons_of_mem _ List.mem_cons_self)
  | epsilon => simp [OneLine, Label.text, Label.mark, Label.epsilonMark]

/-- The names and the labels of an automaton that is read stand in lines. -/
theorem Minimization.oneLine_of_read {m : Minimization}
    (h : (Minimization.read text).outcome = .ok m) :
    (∀ s ∈ m.dfa.states, OneLine s.name) ∧ ∀ edge ∈ m.dfa.edges, OneLine edge.label.text := by
  obtain ⟨_, sheet, start, hsheet, hstart, hdfa⟩ := (Minimization.reader_ensures text).of_ok h
  obtain ⟨_, hlisted⟩ := Sheet.deterministic_eq_ok_iff.mp hdfa
  obtain ⟨states, hstates, _, _, finals, hfinals, ts, hts, rfl⟩ :=
    Sheet.ofLines?_eq_some_iff.mp hsheet
  have hword {line : List Char} {n : Nat} {name : String}
      (hline : lineAt? (Text.lines text.toList) n = some line) (hname : name ∈ namesIn line) :
      OneLine name :=
    oneLine_of_mem_parts (feed_not_mem_of_lineAt? hline) (List.mem_append_left _ hname)
  have htransition : ∀ t ∈ ts, OneLine t.source ∧ OneLine t.label.text ∧ OneLine t.target :=
    fun t ht => (standsIn_of_transitionsAt? hts t ht).oneLine
  rw [← hlisted]
  refine ⟨?_, ?_⟩
  · intro s hs
    have hname : s.name ∈ (Automaton.listed _ _ _ _).names := List.mem_map_of_mem hs
    rw [Automaton.names_listed, Sheet.mem_namesFrom] at hname
    rcases hname with hname | hname | ⟨t, ht, hname⟩
    · exact hname ▸ hword hstates (List.mem_of_head? hstart)
    · exact hword hfinals hname
    · exact hname ▸ (htransition t ht).2.2
  · intro edge hedge
    rcases mem_of_mem_foldl_replace hedge with ⟨t, ht, rfl⟩ | hedge
    · exact (htransition t ht).2.1
    · exact absurd hedge OrderedSet.not_mem_empty

/-- So the message of a refusal to refine what was read takes one line. -/
theorem Minimization.oneLine_message_of_solve {m : Minimization} {limit : Option Nat}
    {e : AutomatonError} (h : (Minimization.read text).outcome = .ok m)
    (he : m.solve limit = .error e) : OneLine e.message := by
  obtain ⟨offence, rfl, hstate, edge, hedge, hlabel⟩ := exists_of_solve_eq_error he
  obtain ⟨hnames, hlabels⟩ := oneLine_of_read h
  have hname : '\n' ∉ offence.state.name.toList := hnames _ hstate
  have htext : '\n' ∉ offence.label.text.toList := hlabel ▸ hlabels _ hedge
  unfold OneLine AutomatonError.message
  simp [hname, htext]

end Problem

end FiniteState
