import FiniteState.Proofs.Problem.Sheet

/-! # When readers succeed

A reader that has taken a number of lines succeeds exactly if the next ones hold what it looks for,
and then stands after them. So what the formats make of a text depends only on what stands in its
lines: the deterministic format succeeds exactly if the lines hold all it needs and their sheet can
be built, and the nondeterministic one likewise, which needs no start.
-/

namespace FiniteState.Problem

/-- Where a reader is that has taken a number of lines. -/
def Cursor.after (lines : List (List Char)) (n : Nat) (warnings : List Warning) : Cursor :=
  ⟨lines.drop n, n, warnings⟩

/-- What there is to warn of if a count is declared in a line. -/
def mismatch (line : Nat) (counted : Counted) (declared given : Nat) : List Warning :=
  if given = declared then [] else [⟨line, counted, declared, given⟩]

namespace Reader

variable {α : Type} {lines : List (List Char)} {n : Nat} {ws : List Warning} {c d : Cursor}
  {role : LineRole} {counted : Counted}

theorem runFrom_fail_ne_ok {cause : Cause} {x : α} : runFrom (fail cause) c ≠ (.ok x, d) := by
  rw [runFrom_fail]
  nofun

theorem runFrom_nextLine_eq_ok_iff {line : List Char} :
    runFrom (nextLine role) (.after lines n ws) = (.ok line, d) ↔
      lineAt? lines (n + 1) = some line ∧ .after lines (n + 1) ws = d := by
  rw [runFrom_nextLine, Cursor.after, List.head?_drop, lineAt?]
  cases lines[n]? <;> simp [Cursor.after]

theorem runFrom_count_eq_ok_iff {k : Nat} :
    runFrom (count role) (.after lines n ws) = (.ok k, d) ↔
      countAt? lines (n + 1) = some k ∧ .after lines (n + 1) ws = d := by
  simp only [count, runFrom_bind_eq_ok_iff, runFrom_nextLine_eq_ok_iff, countAt?,
    Option.bind_eq_bind, Option.bind_eq_some_iff]
  constructor
  · rintro ⟨line, _, ⟨hline, rfl⟩, hcount⟩
    split at hcount
    next m hm =>
      obtain ⟨rfl, rfl⟩ := runFrom_pure_eq_ok_iff.mp hcount
      exact ⟨⟨line, hline, hm⟩, rfl⟩
    next => exact absurd hcount runFrom_fail_ne_ok
  · rintro ⟨⟨line, hline, hk⟩, rfl⟩
    exact ⟨line, _, ⟨hline, rfl⟩, by rw [hk]; rfl⟩

theorem runFrom_compareCounts {declared given : Nat} :
    runFrom (compareCounts counted declared given) (.after lines n ws) =
      (.ok (), .after lines n (ws ++ mismatch n counted declared given)) := by
  unfold compareCounts mismatch
  by_cases h : given = declared <;> simp [h, Cursor.after]

theorem runFrom_words_eq_ok_iff {declared : Nat} {names : List String} :
    runFrom (words role counted declared) (.after lines n ws) = (.ok names, d) ↔
      ∃ line, lineAt? lines (n + 1) = some line ∧ namesIn line = names ∧
        .after lines (n + 1) (ws ++ mismatch (n + 1) counted declared names.length) = d := by
  simp only [words, runFrom_bind_eq_ok_iff, runFrom_nextLine_eq_ok_iff]
  constructor
  · rintro ⟨line, _, ⟨hline, rfl⟩, _, _, hcompare, hnames⟩
    rw [runFrom_compareCounts] at hcompare
    cases hcompare
    obtain ⟨rfl, rfl⟩ := runFrom_pure_eq_ok_iff.mp hnames
    exact ⟨line, hline, rfl, rfl⟩
  · rintro ⟨line, hline, rfl, rfl⟩
    exact ⟨line, _, ⟨hline, rfl⟩, _, _, runFrom_compareCounts, rfl⟩

theorem runFrom_alphabet_eq_ok_iff {a : Alphabet} :
    runFrom alphabet (.after lines n ws) = (.ok a, d) ↔
      ∃ declared, countAt? lines (n + 1) = some declared ∧
        ∃ line, lineAt? lines (n + 2) = some line ∧ .ofMarks (Text.words line).flatten = a ∧
          .after lines (n + 2) (ws ++ mismatch (n + 2) .symbols declared a.size) = d := by
  simp only [alphabet, runFrom_bind_eq_ok_iff, runFrom_count_eq_ok_iff]
  constructor
  · rintro ⟨declared, _, ⟨hdeclared, rfl⟩, line, _, hnext, _, _, hcompare, ha⟩
    obtain ⟨hline, rfl⟩ := runFrom_nextLine_eq_ok_iff.mp hnext
    rw [runFrom_compareCounts] at hcompare
    cases hcompare
    obtain ⟨rfl, rfl⟩ := runFrom_pure_eq_ok_iff.mp ha
    exact ⟨declared, hdeclared, line, hline, rfl, rfl⟩
  · rintro ⟨declared, hdeclared, line, hline, rfl, rfl⟩
    exact ⟨declared, _, ⟨hdeclared, rfl⟩, line, _, runFrom_nextLine_eq_ok_iff.mpr ⟨hline, rfl⟩,
      _, _, runFrom_compareCounts, rfl⟩

/-! ## Transitions -/

theorem runFrom_transition_eq_ok_iff {t : Transition} :
    runFrom transition (.after lines n ws) = (.ok t, d) ↔
      transitionAt? lines (n + 1) = some t ∧ .after lines (n + 1) ws = d := by
  simp only [transition, runFrom_bind_eq_ok_iff, runFrom_nextLine_eq_ok_iff, transitionAt?,
    Option.bind_eq_bind, Option.bind_eq_some_iff]
  constructor
  · rintro ⟨line, _, ⟨hline, rfl⟩, ht⟩
    split at ht
    next source label target hparts =>
      obtain ⟨_, _, hget, ht⟩ := runFrom_bind_eq_ok_iff.mp ht
      cases hget
      obtain ⟨rfl, rfl⟩ := runFrom_pure_eq_ok_iff.mp ht
      exact ⟨⟨line, hline, _, hparts, rfl⟩, rfl⟩
    next => exact absurd ht runFrom_fail_ne_ok
  · rintro ⟨⟨line, hline, ⟨source, label, target⟩, hparts, ht⟩, rfl⟩
    cases ht
    exact ⟨line, _, ⟨hline, rfl⟩, by rw [hparts]; rfl⟩

theorem runFrom_transitionLines_eq_ok_iff {count : Nat} {ts : List Transition} :
    runFrom (transitionLines count) (.after lines n ws) = (.ok ts, d) ↔
      transitionsFrom? lines (n + 1) count = some ts ∧ .after lines (n + count) ws = d := by
  induction count generalizing n ts with
  | zero =>
    rw [transitionLines, runFrom_pure_eq_ok_iff, transitionsFrom?, Option.some_inj]
    rfl
  | succ count ih =>
    have hlines : n + 1 + count = n + (count + 1) := by omega
    simp only [transitionLines, runFrom_bind_eq_ok_iff, runFrom_transition_eq_ok_iff,
      runFrom_pure_eq_ok_iff, transitionsFrom?, Option.bind_eq_bind, Option.bind_eq_some_iff]
    constructor
    · rintro ⟨t, _, ⟨ht, rfl⟩, rest, _, hread, rfl, rfl⟩
      obtain ⟨hrest, hend⟩ := ih.mp hread
      exact ⟨⟨t, ht, rest, hrest, rfl⟩, hlines ▸ hend⟩
    · rintro ⟨⟨t, ht, rest, hrest, hts⟩, hend⟩
      cases hts
      exact ⟨t, _, ⟨ht, rfl⟩, rest, _, ih.mpr ⟨hrest, hlines ▸ hend⟩, rfl, rfl⟩

theorem runFrom_transitions_eq_ok_iff {ts : List Transition} :
    runFrom transitions (.after lines n ws) = (.ok ts, d) ↔
      ∃ count, countAt? lines (n + 1) = some count ∧
        transitionsFrom? lines (n + 2) count = some ts ∧ .after lines (n + 1 + count) ws = d := by
  simp only [transitions, runFrom_bind_eq_ok_iff, runFrom_count_eq_ok_iff]
  constructor
  · rintro ⟨count, _, ⟨hcount, rfl⟩, hts⟩
    exact ⟨count, hcount, runFrom_transitionLines_eq_ok_iff.mp hts⟩
  · rintro ⟨count, hcount, hts⟩
    exact ⟨count, _, ⟨hcount, rfl⟩, runFrom_transitionLines_eq_ok_iff.mpr hts⟩

/-! ## Automata -/

theorem runFrom_atLine_eq_ok_iff {x : Except AutomatonError α} {y : α} :
    runFrom (atLine n x) c = (.ok y, d) ↔ x = .ok y ∧ c = d := by
  rw [runFrom_atLine]
  cases x <;> simp [Except.mapError]

theorem runFrom_here_eq_ok_iff {x : Except AutomatonError α} {y : α} :
    runFrom (here x) c = (.ok y, d) ↔ x = .ok y ∧ c = d := by
  rw [runFrom_here]
  cases x <;> simp [Except.mapError]

theorem runFrom_applyTransitions_eq_ok_iff
    {apply : Transition → Automaton → Except AutomatonError Automaton} {ts : List Transition}
    {a b : Automaton} :
    runFrom (applyTransitions apply a ts) c = (.ok b, d) ↔
      ts.foldlM (fun a t => apply t a) a = .ok b ∧ c = d := by
  induction ts generalizing a with
  | nil =>
    rw [applyTransitions, List.foldlM_nil, runFrom_pure_eq_ok_iff, List.foldlM_nil]
    simp [pure, Except.pure]
  | cons t ts ih =>
    rw [applyTransitions, List.foldlM_cons, runFrom_bind_eq_ok_iff, List.foldlM_cons,
      Except.bind_eq_ok_iff]
    constructor
    · rintro ⟨x, _, hstep, hread⟩
      obtain ⟨ht, rfl⟩ := runFrom_atLine_eq_ok_iff.mp hstep
      obtain ⟨hrest, rfl⟩ := ih.mp hread
      exact ⟨⟨x, ht, hrest⟩, rfl⟩
    · rintro ⟨⟨x, ht, hrest⟩, rfl⟩
      exact ⟨x, _, runFrom_atLine_eq_ok_iff.mpr ⟨ht, rfl⟩, ih.mpr ⟨hrest, rfl⟩⟩

theorem runFrom_startName_eq_ok_iff {start : String} :
    runFrom startName (.after lines n ws) = (.ok start, d) ↔
      ∃ line, lineAt? lines (n + 1) = some line ∧ (namesIn line).head? = some start ∧
        .after lines (n + 1) ws = d := by
  simp only [startName, runFrom_bind_eq_ok_iff, runFrom_nextLine_eq_ok_iff, namesIn,
    List.head?_map]
  constructor
  · rintro ⟨line, _, ⟨hline, rfl⟩, hstart⟩
    split at hstart
    next name _ hwords =>
      obtain ⟨rfl, rfl⟩ := runFrom_pure_eq_ok_iff.mp hstart
      exact ⟨line, hline, by rw [hwords]; rfl, rfl⟩
    next => exact absurd hstart runFrom_fail_ne_ok
  · rintro ⟨line, hline, hstart, rfl⟩
    refine ⟨line, _, ⟨hline, rfl⟩, ?_⟩
    cases hwords : Text.words line with
    | nil => simp [hwords] at hstart
    | cons name rest =>
      rw [hwords] at hstart
      cases hstart
      rfl

end Reader

/-! ## The deterministic format -/

variable {lines : List (List Char)} {s : Sheet} {start : String}

/-- Lines hold all that the deterministic format needs: three counts, whatever they are, and a sheet
with a start. -/
structure Sheet.FilledIn (s : Sheet) (lines : List (List Char)) (start : String) : Prop where
  stateCount : (countAt? lines 1).isSome
  alphabetSize : (countAt? lines 3).isSome
  finalCount : (countAt? lines 5).isSome
  sheet : ofLines? lines = some s
  start : s.names.head? = some start

/-- Lines hold one sheet at most. -/
theorem Sheet.FilledIn.unique {t : Sheet} {start' : String} (hs : s.FilledIn lines start)
    (ht : t.FilledIn lines start') : s = t ∧ start = start' := by
  cases hs.sheet.symm.trans ht.sheet
  exact ⟨rfl, Option.some.inj (hs.start.symm.trans ht.start)⟩

namespace Reader

variable {a : Automaton} {d : Cursor}

theorem filledIn_of_runFrom_deterministic
    (hrun : runFrom deterministic (.after lines 0 []) = (.ok a, d)) :
    ∃ s start, Sheet.FilledIn s lines start ∧ s.deterministic start = .ok a := by
  simp only [deterministic, runFrom_bind_eq_ok_iff] at hrun
  obtain ⟨states, _, hrun₁, start, _, hrun₂, alphabet, _, hrun₄, declared, _, hdeclare, count, _,
    hrun₅, finals, _, hrun₆, marked, _, hmark, ts, _, hrun₇, happly⟩ := hrun
  obtain ⟨hstates, rfl⟩ := runFrom_count_eq_ok_iff.mp hrun₁
  obtain ⟨line₂, hline₂, hstart, rfl⟩ := runFrom_startName_eq_ok_iff.mp hrun₂
  obtain ⟨size, hsize, line₄, hline₄, rfl, rfl⟩ := runFrom_alphabet_eq_ok_iff.mp hrun₄
  obtain ⟨hdeclared, rfl⟩ := runFrom_here_eq_ok_iff.mp hdeclare
  obtain ⟨hcount, rfl⟩ := runFrom_count_eq_ok_iff.mp hrun₅
  obtain ⟨line₆, hline₆, rfl, rfl⟩ := runFrom_words_eq_ok_iff.mp hrun₆
  obtain ⟨hmarked, rfl⟩ := runFrom_here_eq_ok_iff.mp hmark
  obtain ⟨moves, hmoves, hread, rfl⟩ := runFrom_transitions_eq_ok_iff.mp hrun₇
  obtain ⟨hbuilt, rfl⟩ := runFrom_applyTransitions_eq_ok_iff.mp happly
  have hmoved : transitionsAt? lines 7 = some ts := by
    rw [transitionsAt?, hmoves]
    exact hread
  refine ⟨_, start, ⟨?_, ?_, ?_, Sheet.ofLines?_eq_some_iff.mpr
    ⟨line₂, hline₂, line₄, hline₄, line₆, hline₆, ts, hmoved, rfl⟩, hstart⟩,
    Sheet.deterministic_eq_ok_iff_steps.mpr ⟨declared, hdeclared, marked, hmarked, hbuilt⟩⟩
  · exact Option.isSome_of_eq_some hstates
  · exact Option.isSome_of_eq_some hsize
  · exact Option.isSome_of_eq_some hcount

theorem exists_runFrom_deterministic (hs : s.FilledIn lines start)
    (hbuild : s.deterministic start = .ok a) :
    ∃ d, runFrom deterministic (.after lines 0 []) = (.ok a, d) := by
  obtain ⟨states, hstates⟩ := Option.isSome_iff_exists.mp hs.stateCount
  obtain ⟨size, hsize⟩ := Option.isSome_iff_exists.mp hs.alphabetSize
  obtain ⟨count, hcount⟩ := Option.isSome_iff_exists.mp hs.finalCount
  obtain ⟨line₂, hline₂, line₄, hline₄, line₆, hline₆, ts, hmoved, rfl⟩ :=
    Sheet.ofLines?_eq_some_iff.mp hs.sheet
  obtain ⟨moves, hmoves, hread⟩ := Option.bind_eq_some_iff.mp hmoved
  obtain ⟨declared, hdeclared, marked, hmarked, hbuilt⟩ :=
    Sheet.deterministic_eq_ok_iff_steps.mp hbuild
  simp only [deterministic, runFrom_bind_eq_ok_iff]
  exact ⟨_, states, _, runFrom_count_eq_ok_iff.mpr ⟨hstates, rfl⟩,
    start, _, runFrom_startName_eq_ok_iff.mpr ⟨line₂, hline₂, hs.start, rfl⟩,
    _, _, runFrom_alphabet_eq_ok_iff.mpr ⟨size, hsize, line₄, hline₄, rfl, rfl⟩,
    declared, _, runFrom_here_eq_ok_iff.mpr ⟨hdeclared, rfl⟩,
    count, _, runFrom_count_eq_ok_iff.mpr ⟨hcount, rfl⟩,
    _, _, runFrom_words_eq_ok_iff.mpr ⟨line₆, hline₆, rfl, rfl⟩,
    marked, _, runFrom_here_eq_ok_iff.mpr ⟨hmarked, rfl⟩,
    ts, _, runFrom_transitions_eq_ok_iff.mpr ⟨moves, hmoves, hread, rfl⟩,
    runFrom_applyTransitions_eq_ok_iff.mpr ⟨hbuilt, rfl⟩⟩

/-- The deterministic format succeeds exactly on lines that hold all it needs, if it can build their
sheet. -/
theorem exists_runFrom_deterministic_iff :
    (∃ d, runFrom deterministic (.after lines 0 []) = (.ok a, d)) ↔
      ∃ s start, Sheet.FilledIn s lines start ∧ s.deterministic start = .ok a := by
  constructor
  · rintro ⟨_, hrun⟩
    exact filledIn_of_runFrom_deterministic hrun
  · rintro ⟨_, _, hs, hbuild⟩
    exact exists_runFrom_deterministic hs hbuild

end Reader

/-- From a text the deterministic format reads what the sheet of its lines is built into. -/
theorem Minimization.outcome_eq_ok_iff {text : String} {m : Minimization} :
    (Minimization.read text).outcome = .ok m ↔
      ∃ s start, Sheet.FilledIn s (Text.lines text.toList) start ∧
        s.deterministic start = .ok m.dfa := by
  rw [← Reader.exists_runFrom_deterministic_iff]
  change (runFrom (Reader.deterministic >>= fun a => pure (Minimization.mk a)) (.ofText text)).1 =
    .ok m ↔ ∃ d, runFrom Reader.deterministic (.ofText text) = (.ok m.dfa, d)
  rw [runFrom_bind]
  rcases runFrom Reader.deterministic (.ofText text) with ⟨e | a, d⟩
  · simp
  · obtain ⟨dfa⟩ := m
    simp

/-! ## The nondeterministic format -/

/-- Lines hold all that the nondeterministic format needs: three counts, whatever they are, and a
sheet. -/
structure Sheet.HeldBy (s : Sheet) (lines : List (List Char)) : Prop where
  stateCount : (countAt? lines 1).isSome
  alphabetSize : (countAt? lines 3).isSome
  finalCount : (countAt? lines 5).isSome
  sheet : ofLines? lines = some s

namespace Reader

variable {a : Automaton} {d : Cursor}

theorem heldBy_of_runFrom_nondeterministic
    (hrun : runFrom nondeterministic (.after lines 0 []) = (.ok a, d)) :
    ∃ s, Sheet.HeldBy s lines ∧ s.nondeterministic = .ok a := by
  simp only [nondeterministic, runFrom_bind_eq_ok_iff] at hrun
  obtain ⟨states, _, hrun₁, names, _, hrun₂, alphabet, _, hrun₄, declared, _, hdeclare, count, _,
    hrun₅, finals, _, hrun₆, marked, _, hmark, ts, _, hrun₇, happly⟩ := hrun
  obtain ⟨hstates, rfl⟩ := runFrom_count_eq_ok_iff.mp hrun₁
  obtain ⟨line₂, hline₂, rfl, rfl⟩ := runFrom_words_eq_ok_iff.mp hrun₂
  obtain ⟨size, hsize, line₄, hline₄, rfl, rfl⟩ := runFrom_alphabet_eq_ok_iff.mp hrun₄
  obtain ⟨hdeclared, rfl⟩ := runFrom_here_eq_ok_iff.mp hdeclare
  obtain ⟨hcount, rfl⟩ := runFrom_count_eq_ok_iff.mp hrun₅
  obtain ⟨line₆, hline₆, rfl, rfl⟩ := runFrom_words_eq_ok_iff.mp hrun₆
  obtain ⟨hmarked, rfl⟩ := runFrom_here_eq_ok_iff.mp hmark
  obtain ⟨moves, hmoves, hread, rfl⟩ := runFrom_transitions_eq_ok_iff.mp hrun₇
  obtain ⟨hbuilt, rfl⟩ := runFrom_applyTransitions_eq_ok_iff.mp happly
  have hmoved : transitionsAt? lines 7 = some ts := by
    rw [transitionsAt?, hmoves]
    exact hread
  refine ⟨_, ⟨?_, ?_, ?_, Sheet.ofLines?_eq_some_iff.mpr
    ⟨line₂, hline₂, line₄, hline₄, line₆, hline₆, ts, hmoved, rfl⟩⟩,
    Sheet.nondeterministic_eq_ok_iff_steps.mpr ⟨declared, hdeclared, marked, hmarked, hbuilt⟩⟩
  · exact Option.isSome_of_eq_some hstates
  · exact Option.isSome_of_eq_some hsize
  · exact Option.isSome_of_eq_some hcount

theorem exists_runFrom_nondeterministic (hs : s.HeldBy lines)
    (hbuild : s.nondeterministic = .ok a) :
    ∃ d, runFrom nondeterministic (.after lines 0 []) = (.ok a, d) := by
  obtain ⟨states, hstates⟩ := Option.isSome_iff_exists.mp hs.stateCount
  obtain ⟨size, hsize⟩ := Option.isSome_iff_exists.mp hs.alphabetSize
  obtain ⟨count, hcount⟩ := Option.isSome_iff_exists.mp hs.finalCount
  obtain ⟨line₂, hline₂, line₄, hline₄, line₆, hline₆, ts, hmoved, rfl⟩ :=
    Sheet.ofLines?_eq_some_iff.mp hs.sheet
  obtain ⟨moves, hmoves, hread⟩ := Option.bind_eq_some_iff.mp hmoved
  obtain ⟨declared, hdeclared, marked, hmarked, hbuilt⟩ :=
    Sheet.nondeterministic_eq_ok_iff_steps.mp hbuild
  simp only [nondeterministic, runFrom_bind_eq_ok_iff]
  exact ⟨_, states, _, runFrom_count_eq_ok_iff.mpr ⟨hstates, rfl⟩,
    _, _, runFrom_words_eq_ok_iff.mpr ⟨line₂, hline₂, rfl, rfl⟩,
    _, _, runFrom_alphabet_eq_ok_iff.mpr ⟨size, hsize, line₄, hline₄, rfl, rfl⟩,
    declared, _, runFrom_here_eq_ok_iff.mpr ⟨hdeclared, rfl⟩,
    count, _, runFrom_count_eq_ok_iff.mpr ⟨hcount, rfl⟩,
    _, _, runFrom_words_eq_ok_iff.mpr ⟨line₆, hline₆, rfl, rfl⟩,
    marked, _, runFrom_here_eq_ok_iff.mpr ⟨hmarked, rfl⟩,
    ts, _, runFrom_transitions_eq_ok_iff.mpr ⟨moves, hmoves, hread, rfl⟩,
    runFrom_applyTransitions_eq_ok_iff.mpr ⟨hbuilt, rfl⟩⟩

/-- The nondeterministic format succeeds exactly on lines that hold all it needs, if it can build
their sheet. -/
theorem exists_runFrom_nondeterministic_iff :
    (∃ d, runFrom nondeterministic (.after lines 0 []) = (.ok a, d)) ↔
      ∃ s, Sheet.HeldBy s lines ∧ s.nondeterministic = .ok a := by
  constructor
  · rintro ⟨_, hrun⟩
    exact heldBy_of_runFrom_nondeterministic hrun
  · rintro ⟨_, hs, hbuild⟩
    exact exists_runFrom_nondeterministic hs hbuild

end Reader

/-- From a text the nondeterministic format reads what the sheet of its lines is built into. -/
theorem Determinization.outcome_eq_ok_iff {text : String} {p : Determinization} :
    (Determinization.read text).outcome = .ok p ↔
      ∃ s, Sheet.HeldBy s (Text.lines text.toList) ∧ s.nondeterministic = .ok p.nfa := by
  rw [← Reader.exists_runFrom_nondeterministic_iff]
  change (runFrom (Reader.nondeterministic >>= fun a => pure (Determinization.mk a))
    (.ofText text)).1 = .ok p ↔
      ∃ d, runFrom Reader.nondeterministic (.ofText text) = (.ok p.nfa, d)
  rw [runFrom_bind]
  rcases runFrom Reader.nondeterministic (.ofText text) with ⟨e | a, d⟩
  · simp
  · obtain ⟨nfa⟩ := p
    simp

end FiniteState.Problem
