import FiniteState.Proofs.Problem.Agreement
import FiniteState.Proofs.Problem.Success

/-! # Deterministic automata that are read

What the deterministic format makes of a sheet, said in names: which states there are and which of
them accept, and where the transitions lead. Of the transitions with one source and symbol the last
one counts, wherever they stand, while the silent ones all do. Only a symbol outside the alphabet or
an undeclared source is refused.
-/

namespace FiniteState.Problem

/-- The last of the transitions with a source and a label. -/
def last? (ts : List Transition) (source : String) (label : Label) : Option Transition :=
  ts.reverse.find? fun t => t.source = source ∧ t.label = label

variable {alphabet : Alphabet} {names finals : List String} {edges : OrderedSet Edge}
  {t : Transition} {ts : List Transition} {source target name : String} {label : Label} {c : Char}

theorem last?_concat : last? (ts ++ [t]) source label =
    if t.source = source ∧ t.label = label then some t else last? ts source label := by
  rw [last?, List.reverse_concat, List.find?_cons]
  by_cases h : t.source = source ∧ t.label = label <;> simp [h, last?]

/-! ## One transition -/

theorem Transition.mem_replace_iff {e : Edge} : e ∈ t.replace names edges ↔
    e = t.edge names ∨ e ∈ edges ∧
      ¬(e.source = names.idxOf t.source ∧ e.label = t.label ∧ t.label ≠ .epsilon) := by
  unfold replace
  cases t.label <;> simp [imp_iff_not_or]

theorem joins_listed_iff :
    (Automaton.listed alphabet names finals edges).Joins source label target ↔
      ∃ e ∈ edges, names[e.source]? = some source ∧ e.label = label ∧
        names[e.target]? = some target := by
  simp only [Automaton.Joins, Automaton.name?_listed]
  rfl

/-- A transition leads from its source to its target, and nowhere else if it has a symbol. All
others stay as they are. -/
theorem joins_replace_iff (hnames : names.Nodup) (ht : t.Fits alphabet names) :
    (Automaton.listed alphabet names finals (t.replace names edges)).Joins source label target ↔
      (t.source = source ∧ t.label = label ∧ t.target = target) ∨
        (Automaton.listed alphabet names finals edges).Joins source label target ∧
          ¬(t.source = source ∧ t.label = label ∧ label ≠ .epsilon) := by
  have hsource : names[names.idxOf t.source]? = some t.source := List.getElem?_idxOf ht.source_mem
  have htarget : names[names.idxOf t.target]? = some t.target := List.getElem?_idxOf ht.target_mem
  have hindex {q : StateId} (hq : names[q]? = some source) :
      q = names.idxOf t.source ↔ t.source = source := by
    obtain ⟨hlt, hget⟩ := List.getElem?_eq_some_iff.mp hq
    constructor
    · rintro rfl
      exact Option.some.inj (hsource.symm.trans hq)
    · rintro rfl
      rw [← hget, hnames.idxOf_getElem q hlt]
  simp only [joins_listed_iff, Transition.mem_replace_iff]
  constructor
  · rintro ⟨e, rfl | ⟨he, hkept⟩, hfrom, rfl, hto⟩
    · exact .inl ⟨Option.some.inj (hsource.symm.trans hfrom), rfl,
        Option.some.inj (htarget.symm.trans hto)⟩
    · refine .inr ⟨⟨e, he, hfrom, rfl, hto⟩, ?_⟩
      rintro ⟨hsame, hlabel, hsymbol⟩
      exact hkept ⟨(hindex hfrom).mpr hsame, hlabel.symm, hlabel ▸ hsymbol⟩
  · rintro (⟨rfl, rfl, rfl⟩ | ⟨⟨e, he, hfrom, rfl, hto⟩, hkept⟩)
    · exact ⟨t.edge names, .inl rfl, hsource, rfl, htarget⟩
    · refine ⟨e, .inr ⟨he, ?_⟩, hfrom, rfl, hto⟩
      rintro ⟨hsame, hlabel, hsymbol⟩
      exact hkept ⟨(hindex hfrom).mp hsame, hlabel.symm, hlabel ▸ hsymbol⟩

/-! ## All transitions -/

section All

variable (hnames : names.Nodup) (hts : ∀ t ∈ ts, t.Fits alphabet names)
include hnames hts

/-- With a symbol, a source leads to the target of the last transition, if there is one. -/
theorem joins_symbol_iff :
    (Automaton.listed alphabet names finals
      (ts.foldl (fun edges t => t.replace names edges) ∅)).Joins source (.symbol c) target ↔
      ∃ t, last? ts source (.symbol c) = some t ∧ t.target = target := by
  induction ts using List.reverseRecOn with
  | nil => simp [joins_listed_iff, last?]
  | append_singleton ts t ih =>
    obtain ⟨hrest, ht⟩ := List.forall_mem_append.mp hts
    rw [List.foldl_concat, joins_replace_iff hnames (ht t (List.mem_singleton_self t)), ih hrest,
      last?_concat]
    by_cases hlast : t.source = source ∧ t.label = .symbol c
    · simp [hlast]
    · simp [hlast, ← and_assoc]

/-- Silent transitions all lead to their targets. -/
theorem joins_epsilon_iff :
    (Automaton.listed alphabet names finals
      (ts.foldl (fun edges t => t.replace names edges) ∅)).Joins source .epsilon target ↔
      ∃ t ∈ ts, t.source = source ∧ t.label = .epsilon ∧ t.target = target := by
  induction ts using List.reverseRecOn with
  | nil => simp [joins_listed_iff]
  | append_singleton ts t ih =>
    obtain ⟨hrest, ht⟩ := List.forall_mem_append.mp hts
    rw [List.foldl_concat, joins_replace_iff hnames (ht t (List.mem_singleton_self t)), ih hrest]
    simp [or_and_right, exists_or, or_comm]

end All

/-! ## Sheets -/

namespace Sheet

variable {s : Sheet} {start : String} {a : Automaton}

/-- What the deterministic format makes of a sheet, with the states seen by their names. -/
structure Yields (s : Sheet) (a : Automaton) : Prop where
  wellFormed : a.WellFormed
  alphabet_eq : a.alphabet = s.alphabet
  startName?_eq : a.startName? = s.names.head?
  mem_names_iff (name : String) : name ∈ a.names ↔ s.Needs name
  acceptsAt_iff (name : String) : a.AcceptsAt name ↔ name ∈ s.finals
  /-- With a symbol a state has at most one successor, the target of the last transition. -/
  successors_eq (q : StateId) (source : String) (c : Char) : a.name? q = some source →
    (a.targets q (.symbol c)).map a.name? =
      ((last? s.transitions source (.symbol c)).map (·.target)).toList.map some
  silent_iff (source target : String) : a.Joins source .epsilon target ↔
    ∃ t ∈ s.transitions, t.source = source ∧ t.label = .epsilon ∧ t.target = target

theorem wellFormed_of_deterministic (h : s.deterministic start = .ok a) : a.WellFormed := by
  obtain ⟨hs, rfl⟩ := deterministic_eq_ok_iff.mp h
  apply Automaton.wellFormed_listed hs.names_nodup
  intro e he
  rcases mem_of_mem_foldl_replace he with ⟨t, ht, rfl⟩ | he
  · exact (hs.transitions_fit t ht).fits_listed
  · exact absurd he OrderedSet.not_mem_empty

theorem yields_of_deterministic (hstart : s.names.head? = some start)
    (h : s.deterministic start = .ok a) : s.Yields a := by
  have hwellFormed : a.WellFormed := wellFormed_of_deterministic h
  obtain ⟨hs, rfl⟩ := deterministic_eq_ok_iff.mp h
  refine ⟨hwellFormed, rfl, ?_, ?_, ?_, ?_, ?_⟩
  · rw [Automaton.startName?_listed, head?_namesFrom, hstart]
  · intro name
    rw [Automaton.names_listed, mem_namesFrom_iff_needs hstart]
  · intro name
    rw [Automaton.acceptsAt_listed_iff]
    exact and_iff_right_of_imp (hs.finals_mem name)
  · intro q source c hq
    apply hwellFormed.map_name?_targets hq
    intro target
    rw [joins_symbol_iff hs.names_nodup hs.transitions_fit, Option.map_eq_some_iff]
  · intro source target
    exact joins_epsilon_iff hs.names_nodup hs.transitions_fit

/-- What the deterministic format refuses of a transition: a symbol that is not in the alphabet, or
a source that is not declared. Targets are declared by being named. -/
def Refuses (s : Sheet) (t : Transition) : Prop :=
  (∃ c, t.label = .symbol c ∧ c ∉ s.alphabet) ∨ ¬s.Needs t.source

theorem not_refuses_iff_fits (hstart : s.names.head? = some start) {t : Transition}
    (ht : t ∈ s.transitions) : ¬s.Refuses t ↔ t.Fits s.alphabet (s.namesFrom start) := by
  have hallowed : s.alphabet.Allows t.label ↔ ¬∃ c, t.label = .symbol c ∧ c ∉ s.alphabet := by
    cases t.label <;> simp [Alphabet.Allows]
  have htarget : t.target ∈ s.namesFrom start :=
    (mem_namesFrom_iff_needs hstart).mpr (.inr (.inr ⟨t, ht, rfl⟩))
  rw [Refuses, not_or, not_not, ← hallowed, ← mem_namesFrom_iff_needs hstart]
  constructor
  · rintro ⟨hlabel, hsource⟩
    exact ⟨hlabel, hsource, htarget⟩
  · intro hfits
    exact ⟨hfits.allowed, hfits.source_mem⟩

/-- A sheet is built unless one of its transitions is refused. -/
theorem exists_deterministic_eq_ok_iff (hstart : s.names.head? = some start) :
    (∃ a, s.deterministic start = .ok a) ↔ ∀ t ∈ s.transitions, ¬s.Refuses t := by
  simp only [deterministic_eq_ok_iff, exists_and_left, exists_eq', and_true]
  constructor
  · intro hs t ht
    exact (not_refuses_iff_fits hstart ht).mpr (hs.transitions_fit t ht)
  · intro hfits
    refine ⟨nodup_eraseDups _, ?_, fun t ht => (not_refuses_iff_fits hstart ht).mp (hfits t ht)⟩
    intro name hname
    exact mem_namesFrom.mpr (.inr (.inl hname))

end Sheet

/-! ## Texts -/

/-- If a deterministic automaton is read from a text, its start is the first word of the second
line; its states are the start, the final states and the targets of the counted transitions; the
final states accept; and transitions lead where the last one with a source and symbol leads, or
every silent one. If the lines hold all that is needed, reading fails exactly if a counted
transition has a symbol outside the alphabet or a source that is none of these states. -/
theorem Minimization.read_deterministic (text : String) :
    (∀ m, (Minimization.read text).outcome = .ok m →
      ∃ s start, Sheet.FilledIn s (Text.lines text.toList) start ∧ s.Yields m.dfa) ∧
    ∀ s start, Sheet.FilledIn s (Text.lines text.toList) start →
      ((∃ e, (Minimization.read text).outcome = .error e) ↔ ∃ t ∈ s.transitions, s.Refuses t) := by
  constructor
  · intro m hm
    obtain ⟨s, start, hs, hbuilt⟩ := outcome_eq_ok_iff.mp hm
    exact ⟨s, start, hs, Sheet.yields_of_deterministic hs.start hbuilt⟩
  · intro s start hs
    have hok : (∃ m, (Minimization.read text).outcome = .ok m) ↔
        ∃ a, s.deterministic start = .ok a := by
      constructor
      · rintro ⟨m, hm⟩
        obtain ⟨s', start', hs', hbuilt⟩ := outcome_eq_ok_iff.mp hm
        obtain ⟨rfl, rfl⟩ := hs.unique hs'
        exact ⟨m.dfa, hbuilt⟩
      · rintro ⟨a, hbuilt⟩
        exact ⟨⟨a⟩, outcome_eq_ok_iff.mpr ⟨s, start, hs, hbuilt⟩⟩
    have hfails : (∃ e, (Minimization.read text).outcome = .error e) ↔
        ¬∃ m, (Minimization.read text).outcome = .ok m := by
      cases (Minimization.read text).outcome <;> simp
    rw [hfails, hok, Sheet.exists_deterministic_eq_ok_iff hs.start]
    simp

/-- A text that uses a target before it is named, and whose last transition replaces another. -/
def overriding : String := "1\nA\n1\na b\n1\nC\n4\nB,b,C\nA,a,B\nC,$,A\nA,a,C\n"

/-- A text with a source that nothing declares. -/
def unknownSource : String := "1\nA\n1\na\n0\n\n1\nX,a,A\n"

theorem Minimization.read_deterministic_overriding :
    (∃ m, (Minimization.read overriding).outcome = .ok m ∧
      (∃ s start, Sheet.FilledIn s (Text.lines overriding.toList) start ∧ s.Yields m.dfa) ∧
      m.dfa.names = ["A", "C", "B"] ∧ m.dfa.targets 0 (.symbol 'a') = [1] ∧
      m.dfa.targets 1 .epsilon = [0]) ∧
    ∃ s start, Sheet.FilledIn s (Text.lines unknownSource.toList) start ∧
      (∃ t ∈ s.transitions, s.Refuses t) ∧
      ∃ e, (Minimization.read unknownSource).outcome = .error e := by
  constructor
  · have hread : (Minimization.read overriding).outcome =
        .ok ⟨.listed (.ofSymbols ['a', 'b']) ["A", "C", "B"] ["C"]
          (.ofList [⟨0, .symbol 'a', 1⟩, ⟨1, .epsilon, 0⟩, ⟨2, .symbol 'b', 1⟩])⟩ := by
      decide +kernel
    exact ⟨_, hread, (Minimization.read_deterministic overriding).1 _ hread, by decide +kernel⟩
  · let t : Transition := ⟨8, "X", .symbol 'a', "A"⟩
    have hsheet : Sheet.FilledIn ⟨["A"], .ofMarks ['a'], [], [t]⟩
        (Text.lines unknownSource.toList) "A" :=
      ⟨by decide +kernel, by decide +kernel, by decide +kernel, by rfl, rfl⟩
    have hrefused : ∃ u ∈ [t], Sheet.Refuses ⟨["A"], .ofMarks ['a'], [], [t]⟩ u :=
      ⟨t, List.mem_singleton_self t, by simp [Sheet.Refuses, Sheet.Needs, t]⟩
    exact ⟨_, _, hsheet, hrefused,
      ((Minimization.read_deterministic unknownSource).2 _ _ hsheet).mpr hrefused⟩

end FiniteState.Problem
