import FiniteState.Proofs.Automaton.Listed
import FiniteState.Proofs.Problem.Success

/-! # What readers warn of

A count is declared in the line before the one that holds what it counts. A reader compares the two
as it takes the latter, and takes no warning back when it fails later. So the lines and how far
reading got tell all warnings, in order.
-/

namespace FiniteState.Problem

/-- The line that holds what is counted. The line before declares how much. -/
def Counted.line : Counted → Nat
  | .states => 2
  | .symbols => 4
  | .finalStates => 6

/-- How much a line holds of what is counted: its words, or the distinct symbols that it is made of,
of which the epsilon mark is none. -/
def Counted.given (line : List Char) : Counted → Nat
  | .states => (Text.words line).length
  | .symbols => ((Text.words line).flatten.filter (· ≠ Label.epsilonMark)).eraseDups.length
  | .finalStates => (Text.words line).length

/-- The warning that lines call for if their declared count differs from what is given. -/
def Counted.warning? (lines : List (List Char)) (counted : Counted) : Option Warning := do
  let line ← lineAt? lines counted.line
  let declared ← countAt? lines (counted.line - 1)
  if counted.given line = declared then none
  else some ⟨counted.line, counted, declared, counted.given line⟩

/-- What a format compares with declared counts, in the order of the lines. The deterministic one
declares a number of states too, but lists no states to compare it with. -/
def Format.compared : Format → List Counted
  | .acceptance => [.states, .symbols, .finalStates]
  | .determinization => [.states, .symbols, .finalStates]
  | .matching => []
  | .minimization => [.symbols, .finalStates]

/-- The warnings that lines up to one call for. -/
def warningsUpTo (lines : List (List Char)) (cs : List Counted) (n : Nat) : List Warning :=
  cs.filterMap fun counted => if counted.line ≤ n then counted.warning? lines else none

/-- Reading gets to a line unless it fails before. -/
def Report.reaches {α : Type} (report : Report α) (n : Nat) : Bool :=
  match report.outcome with
  | .ok _ => true
  | .error e => n ≤ e.line

/-- The warnings of a report are those that lines call for as far as reading got, in order. -/
def Report.WarnsOf {α : Type} (report : Report α) (lines : List (List Char)) (cs : List Counted) :
    Prop :=
  report.warnings =
    cs.filterMap fun counted => if report.reaches counted.line then counted.warning? lines else none

variable {α : Type} {lines : List (List Char)} {line : List Char} {cs : List Counted} {n : Nat}
  {c : Cursor} {role : LineRole} {counted : Counted}

theorem Report.reaches_of_ok {report : Report α} {x : α} (h : report.outcome = .ok x) :
    report.reaches n = true := by
  rw [reaches, h]

theorem Report.reaches_of_error {report : Report α} {e : Error} (h : report.outcome = .error e) :
    report.reaches n = decide (n ≤ e.line) := by
  rw [reaches, h]

theorem Counted.line_le (counted : Counted) : counted.line ≤ 6 := by
  cases counted <;> decide

/-- An alphabet has as many symbols as its line has distinct ones. -/
theorem Counted.given_symbols :
    Counted.given line .symbols = (Alphabet.ofMarks (Text.words line).flatten).size := by
  apply List.Perm.length_eq
  rw [List.perm_ext_iff_of_nodup (nodup_eraseDups _) (OrderedSet.nodup _)]
  intro c
  rw [List.mem_eraseDups]
  exact OrderedSet.mem_ofList.symm

theorem Counted.given_of_ne_symbols (h : counted ≠ .symbols) :
    counted.given line = (namesIn line).length := by
  cases counted with
  | states => exact (List.length_map _).symm
  | symbols => exact absurd rfl h
  | finalStates => exact (List.length_map _).symm

theorem Counted.warning?_eq_none (h : lineAt? lines counted.line = none) :
    counted.warning? lines = none := by
  rw [warning?, h]
  rfl

theorem Counted.toList_warning? {declared : Nat} (hline : lineAt? lines counted.line = some line)
    (hdeclared : countAt? lines (counted.line - 1) = some declared) :
    (counted.warning? lines).toList =
      mismatch counted.line counted declared (counted.given line) := by
  simp only [warning?, hline, hdeclared, Option.bind_eq_bind, Option.bind_some, mismatch]
  split <;> rfl

/-! ## One line more -/

/-- A line that there is nothing to warn of adds no warning. -/
theorem warningsUpTo_succ
    (h : ∀ counted ∈ cs, counted.line = n + 1 → counted.warning? lines = none) :
    warningsUpTo lines cs (n + 1) = warningsUpTo lines cs n := by
  apply List.filterMap_congr
  intro counted hcounted
  rcases Nat.lt_trichotomy counted.line (n + 1) with hlt | heq | hgt
  · rw [if_pos hlt.le, if_pos (Nat.lt_succ_iff.mp hlt)]
  · rw [h counted hcounted heq, ite_self, ite_self]
  · rw [if_neg (by omega), if_neg (by omega)]

/-- What stands after the line of the final states is not warned of. -/
theorem warningsUpTo_of_le (h : 6 ≤ n) : warningsUpTo lines cs n = warningsUpTo lines cs 6 := by
  apply List.filterMap_congr
  intro counted _
  rw [if_pos (counted.line_le.trans h), if_pos counted.line_le]

theorem warningsUpTo_cons : warningsUpTo lines (counted :: cs) n =
    (if counted.line ≤ n then (counted.warning? lines).toList else []) ++
      warningsUpTo lines cs n := by
  unfold warningsUpTo
  rw [List.filterMap_cons]
  split_ifs
  · cases counted.warning? lines <;> rfl
  · rfl

/-- A line that is compared adds its own warning at the end. -/
theorem warningsUpTo_line (hcs : cs.Pairwise fun c d => c.line < d.line) (h : counted ∈ cs)
    (hn : counted.line = n + 1) :
    warningsUpTo lines cs (n + 1) =
      warningsUpTo lines cs n ++ (counted.warning? lines).toList := by
  induction cs with
  | nil => cases h
  | cons first rest ih =>
    obtain ⟨hfirst, hrest⟩ := List.pairwise_cons.mp hcs
    rw [warningsUpTo_cons, warningsUpTo_cons]
    rcases List.mem_cons.mp h with rfl | h
    · have hlater : ∀ m ≤ n + 1, warningsUpTo lines rest m = [] := by
        intro m hm
        apply List.filterMap_eq_nil_iff.mpr
        intro later hlater
        have hlt := hfirst later hlater
        rw [if_neg (by omega)]
      rw [if_pos hn.le, if_neg (by omega), hlater _ le_rfl, hlater _ n.le_succ, List.append_nil,
        List.append_nil, List.nil_append]
    · have hlt := hfirst counted h
      rw [if_pos (by omega), if_pos (by omega), ih hrest h, List.append_assoc]

/-! ## Readers -/

/-- Where a reader is that has taken a number of lines and has warned of what they call for. -/
def Cursor.upTo (lines : List (List Char)) (cs : List Counted) (n : Nat) : Cursor :=
  .after lines n (warningsUpTo lines cs n)

theorem Cursor.upTo_zero {text : String} :
    Cursor.upTo (Text.lines text.toList) cs 0 = .ofText text := by
  have hnone : warningsUpTo (Text.lines text.toList) cs 0 = [] := by
    apply List.filterMap_eq_nil_iff.mpr
    intro counted _
    cases counted <;> rfl
  rw [upTo, hnone]
  rfl

/-- A reader has gone past all lines that are compared, and has warned of what they call for. -/
def Cursor.Past (lines : List (List Char)) (cs : List Counted) (c : Cursor) : Prop :=
  ∃ n ≥ 6, c = .upTo lines cs n

/-- A reader that fails has warned of what the lines up to the one at fault call for. -/
def WarnedOf (lines : List (List Char)) (cs : List Counted) (e : Error) (d : Cursor) : Prop :=
  d.warnings = warningsUpTo lines cs e.line

theorem Cursor.Past.warnings_eq (h : c.Past lines cs) :
    c.warnings = warningsUpTo lines cs 6 := by
  obtain ⟨n, hn, rfl⟩ := h
  exact warningsUpTo_of_le hn

namespace Reader

/-- Taking a line warns of nothing. If the line is absent, nothing is to be warned of it. -/
theorem nextLine_leaves : Leaves (nextLine role) (.upTo lines cs n)
    (fun line d => lineAt? lines (n + 1) = some line ∧
      d = .after lines (n + 1) (warningsUpTo lines cs n)) (WarnedOf lines cs) := by
  unfold Leaves
  rw [runFrom_nextLine, Cursor.upTo, Cursor.after, List.head?_drop]
  cases hline : lines[n]? with
  | some line =>
    refine ⟨hline, ?_⟩
    rw [Cursor.after, List.tail_drop]
  | none =>
    refine (warningsUpTo_succ fun counted _ hn => Counted.warning?_eq_none ?_).symm
    rw [hn]
    exact hline

theorem count_leaves (h : ∀ counted ∈ cs, counted.line ≠ n + 1) :
    Leaves (count role) (.upTo lines cs n)
      (fun k d => countAt? lines (n + 1) = some k ∧ d = .upTo lines cs (n + 1))
      (WarnedOf lines cs) := by
  have hplain : warningsUpTo lines cs (n + 1) = warningsUpTo lines cs n :=
    warningsUpTo_succ fun counted hcounted hn => absurd hn (h counted hcounted)
  apply Leaves.bind nextLine_leaves
  rintro line _ ⟨hline, rfl⟩
  rw [← hplain]
  dsimp only
  split
  next k hk =>
    refine leaves_pure ⟨?_, rfl⟩
    rw [countAt?, hline]
    exact hk
  next => exact rfl

/-- Comparing what a line holds with its declared count adds the warning of that line. -/
theorem compareCounts_leaves (hcs : cs.Pairwise fun c d => c.line < d.line) (h : counted ∈ cs)
    (hn : counted.line = n + 1) {declared : Nat} (hdeclared : countAt? lines n = some declared)
    (hline : lineAt? lines (n + 1) = some line) :
    Leaves (compareCounts counted declared (counted.given line))
      (.after lines (n + 1) (warningsUpTo lines cs n)) (fun _ d => d = .upTo lines cs (n + 1))
      (WarnedOf lines cs) := by
  have hwarning : (counted.warning? lines).toList =
      mismatch (n + 1) counted declared (counted.given line) := by
    rw [← hn]
    apply Counted.toList_warning? <;> rw [hn]
    · exact hline
    · exact hdeclared
  unfold Leaves
  rw [runFrom_compareCounts, Cursor.upTo, warningsUpTo_line hcs h hn, hwarning]

theorem words_leaves (hcs : cs.Pairwise fun c d => c.line < d.line) (h : counted ∈ cs)
    (hn : counted.line = n + 1) (hne : counted ≠ .symbols)
    {declared : Nat} (hdeclared : countAt? lines n = some declared) :
    Leaves (words role counted declared) (.upTo lines cs n)
      (fun _ d => d = .upTo lines cs (n + 1)) (WarnedOf lines cs) := by
  apply Leaves.bind nextLine_leaves
  rintro line _ ⟨hline, rfl⟩
  have hcompare := compareCounts_leaves hcs h hn hdeclared hline
  rw [Counted.given_of_ne_symbols hne] at hcompare
  apply Leaves.bind hcompare
  intro _ d hd
  exact leaves_pure hd

theorem alphabet_leaves (hcs : cs.Pairwise fun c d => c.line < d.line) (h : .symbols ∈ cs)
    (hcount : ∀ counted ∈ cs, counted.line ≠ 3) :
    Leaves alphabet (.upTo lines cs 2) (fun _ d => d = .upTo lines cs 4)
      (WarnedOf lines cs) := by
  apply Leaves.bind (count_leaves hcount)
  rintro declared _ ⟨hdeclared, rfl⟩
  apply Leaves.bind nextLine_leaves
  rintro line _ ⟨hline, rfl⟩
  have hcompare := compareCounts_leaves hcs h rfl hdeclared hline
  rw [Counted.given_symbols] at hcompare
  apply Leaves.bind hcompare
  intro _ d hd
  exact leaves_pure hd

theorem startName_leaves (h : ∀ counted ∈ cs, counted.line ≠ n + 1) :
    Leaves startName (.upTo lines cs n) (fun _ d => d = .upTo lines cs (n + 1))
      (WarnedOf lines cs) := by
  have hplain : warningsUpTo lines cs (n + 1) = warningsUpTo lines cs n :=
    warningsUpTo_succ fun counted hcounted hn => absurd hn (h counted hcounted)
  apply Leaves.bind nextLine_leaves
  rintro line _ ⟨hline, rfl⟩
  rw [← hplain]
  split
  next => exact leaves_pure rfl
  next => exact rfl

theorem here_leaves (x : Except AutomatonError α) :
    Leaves (here x) (.upTo lines cs n) (fun _ d => d = .upTo lines cs n) (WarnedOf lines cs) := by
  unfold Leaves
  rw [runFrom_here]
  cases x <;> rfl

/-! ## Transitions, which nothing is compared with -/

theorem transition_leaves (hc : c.Past lines cs) : Leaves transition c
    (fun t d => 6 ≤ t.line ∧ d.Past lines cs) (WarnedOf lines cs) := by
  obtain ⟨n, hn, rfl⟩ := hc
  have hplain : warningsUpTo lines cs (n + 1) = warningsUpTo lines cs n := by
    rw [warningsUpTo_of_le hn, warningsUpTo_of_le (Nat.le_succ_of_le hn)]
  apply Leaves.bind nextLine_leaves
  rintro line _ ⟨hline, rfl⟩
  rw [← hplain]
  dsimp only
  split
  next => exact ⟨Nat.le_succ_of_le hn, n + 1, Nat.le_succ_of_le hn, rfl⟩
  next => exact rfl

theorem transitionLines_leaves (hc : c.Past lines cs) (count : Nat) :
    Leaves (transitionLines count) c (fun ts d => (∀ t ∈ ts, 6 ≤ t.line) ∧ d.Past lines cs)
      (WarnedOf lines cs) := by
  induction count generalizing c with
  | zero => exact leaves_pure ⟨List.forall_mem_nil _, hc⟩
  | succ count ih =>
    apply Leaves.bind (transition_leaves hc)
    rintro t d ⟨ht, hd⟩
    apply Leaves.bind (ih hd)
    rintro ts d' ⟨hts, hd'⟩
    exact leaves_pure ⟨List.forall_mem_cons.mpr ⟨ht, hts⟩, hd'⟩

theorem transitions_leaves : Leaves transitions (.upTo lines cs 6)
    (fun ts d => (∀ t ∈ ts, 6 ≤ t.line) ∧ d.Past lines cs) (WarnedOf lines cs) := by
  have hcount : ∀ counted ∈ cs, counted.line ≠ 7 := by
    intro counted _
    exact Nat.ne_of_lt (Nat.lt_succ_of_le counted.line_le)
  apply Leaves.bind (count_leaves hcount)
  rintro count _ ⟨_, rfl⟩
  exact transitionLines_leaves ⟨7, by decide, rfl⟩ count

/-- Transitions are refused at lines after all that are compared. -/
theorem applyTransitions_leaves
    {apply : Transition → Automaton → Except AutomatonError Automaton} {ts : List Transition}
    (hts : ∀ t ∈ ts, 6 ≤ t.line) (hc : c.Past lines cs) {a : Automaton} :
    Leaves (applyTransitions apply a ts) c (fun _ d => d.Past lines cs) (WarnedOf lines cs) := by
  induction ts generalizing a with
  | nil => exact leaves_pure hc
  | cons t ts ih =>
    obtain ⟨ht, hts⟩ := List.forall_mem_cons.mp hts
    have hstep : Leaves (atLine t.line (apply t a)) c (fun _ d => d = c) (WarnedOf lines cs) := by
      unfold Leaves
      rw [runFrom_atLine]
      cases apply t a with
      | ok b => rfl
      | error e => exact hc.warnings_eq.trans (warningsUpTo_of_le ht).symm
    rw [applyTransitions, List.foldlM_cons]
    apply Leaves.bind hstep
    rintro b _ rfl
    exact ih hts

/-! ## Formats -/

theorem nondeterministic_leaves (hcs : cs = [.states, .symbols, .finalStates]) :
    Leaves nondeterministic (.upTo lines cs 0) (fun _ d => d.Past lines cs)
      (WarnedOf lines cs) := by
  have hascending : cs.Pairwise fun c d => c.line < d.line := by
    rw [hcs]
    decide
  apply Leaves.bind (count_leaves (by rw [hcs]; decide))
  rintro stateCount _ ⟨hstateCount, rfl⟩
  apply Leaves.bind (words_leaves hascending (by simp [hcs]) rfl (by decide) hstateCount)
  rintro names _ rfl
  apply Leaves.bind (alphabet_leaves hascending (by simp [hcs]) (by rw [hcs]; decide))
  rintro alphabet _ rfl
  apply Leaves.bind (here_leaves _)
  rintro declared _ rfl
  apply Leaves.bind (count_leaves (by rw [hcs]; decide))
  rintro finalCount _ ⟨hfinalCount, rfl⟩
  apply Leaves.bind (words_leaves hascending (by simp [hcs]) rfl (by decide) hfinalCount)
  rintro finals _ rfl
  apply Leaves.bind (here_leaves _)
  rintro marked _ rfl
  apply Leaves.bind transitions_leaves
  rintro ts d ⟨hts, hd⟩
  exact applyTransitions_leaves hts hd

theorem deterministic_leaves (hcs : cs = [.symbols, .finalStates]) :
    Leaves deterministic (.upTo lines cs 0) (fun _ d => d.Past lines cs) (WarnedOf lines cs) := by
  have hascending : cs.Pairwise fun c d => c.line < d.line := by
    rw [hcs]
    decide
  apply Leaves.bind (count_leaves (by rw [hcs]; decide))
  rintro _ _ ⟨_, rfl⟩
  apply Leaves.bind (startName_leaves (by rw [hcs]; decide))
  rintro start _ rfl
  apply Leaves.bind (alphabet_leaves hascending (by simp [hcs]) (by rw [hcs]; decide))
  rintro alphabet _ rfl
  apply Leaves.bind (here_leaves _)
  rintro declared _ rfl
  apply Leaves.bind (count_leaves (by rw [hcs]; decide))
  rintro finalCount _ ⟨hfinalCount, rfl⟩
  apply Leaves.bind (words_leaves hascending (by simp [hcs]) rfl (by decide) hfinalCount)
  rintro finals _ rfl
  apply Leaves.bind (here_leaves _)
  rintro marked _ rfl
  apply Leaves.bind transitions_leaves
  rintro ts d ⟨hts, hd⟩
  exact applyTransitions_leaves hts hd

/-- The word to run on is not compared with anything. -/
theorem inputWord_leaves (hc : c.Past lines cs) :
    Leaves inputWord c (fun _ d => d.warnings = warningsUpTo lines cs 6) (WarnedOf lines cs) := by
  unfold Leaves inputWord
  rw [runFrom_bind, runFrom_nextLine?]
  exact hc.warnings_eq

/-- A reader that leaves the warnings that lines call for reports them, whether it fails or not. -/
theorem report_warnsOf {reader : Reader α} {text : String}
    (h : Leaves reader (.upTo (Text.lines text.toList) cs 0)
      (fun _ d => d.warnings = warningsUpTo (Text.lines text.toList) cs 6)
      (WarnedOf (Text.lines text.toList) cs)) :
    (reader.report text).WarnsOf (Text.lines text.toList) cs := by
  rw [Cursor.upTo_zero] at h
  unfold Leaves at h
  change (runFrom reader (.ofText text)).2.warnings = _
  split at h
  next x d hrun =>
    have houtcome : (reader.report text).outcome = .ok x := congrArg Prod.fst hrun
    rw [hrun, h]
    apply List.filterMap_congr
    intro counted _
    rw [if_pos counted.line_le, if_pos (Report.reaches_of_ok houtcome)]
  next e d hrun =>
    have houtcome : (reader.report text).outcome = .error e := congrArg Prod.fst hrun
    rw [hrun, h]
    apply List.filterMap_congr
    intro counted _
    simp only [Report.reaches_of_error houtcome, decide_eq_true_eq]

end Reader

/-- The reader of accepting runs compares all counts. -/
theorem Acceptance.warnsOf (text : String) :
    (Acceptance.read text).WarnsOf (Text.lines text.toList) Format.acceptance.compared := by
  apply Reader.report_warnsOf
  apply Leaves.bind (Reader.nondeterministic_leaves rfl)
  intro nfa c hc
  apply Leaves.bind (Reader.inputWord_leaves hc)
  intro word d hd
  exact leaves_pure hd

theorem Determinization.warnsOf (text : String) :
    (Determinization.read text).WarnsOf (Text.lines text.toList)
      Format.determinization.compared := by
  apply Reader.report_warnsOf
  apply Leaves.bind (Reader.nondeterministic_leaves rfl)
  intro nfa c hc
  exact leaves_pure hc.warnings_eq

theorem Minimization.warnsOf (text : String) :
    (Minimization.read text).WarnsOf (Text.lines text.toList) Format.minimization.compared := by
  apply Reader.report_warnsOf
  apply Leaves.bind (Reader.deterministic_leaves rfl)
  intro dfa c hc
  exact leaves_pure hc.warnings_eq

/-- Reading fails at a transition and still warns. -/
example : (Minimization.read "7\nA\n2\na a\n0\n\n1\nA,a").warnings = [⟨4, .symbols, 2, 1⟩] := by
  decide +kernel

end FiniteState.Problem
