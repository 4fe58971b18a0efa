import FiniteState.Proofs.Problem.Warning

/-! # Declared counts only warn

Two texts that differ only in the states, symbols and final states that they declare are read side
by side: after every step both readers have taken the same number of lines and come to the same,
except for their warnings. So what is declared decides on warnings and on nothing else.
-/

namespace FiniteState.Problem

/-- Lines are replaced only where the states, the alphabet or the final states are counted, and only
counts by counts. -/
structure Recounted (lines lines' : List (List Char)) : Prop where
  length_eq : lines'.length = lines.length
  line_eq : ∀ n ≤ lines.length, lineAt? lines' n = lineAt? lines n ∨
    n ∈ [1, 3, 5] ∧ (countAt? lines n).isSome ∧ (countAt? lines' n).isSome

/-- Two readers have taken equally many lines. -/
def Abreast (lines lines' : List (List Char)) (n : Nat) (c c' : Cursor) : Prop :=
  ∃ ws ws', c = .after lines n ws ∧ c' = .after lines' n ws'

variable {α : Type} {lines lines' : List (List Char)} {n : Nat} {c c' : Cursor} {role : LineRole}
  {counted : Counted}

theorem Recounted.lineAt?_eq_or (h : Recounted lines lines') (n : Nat) :
    lineAt? lines' n = lineAt? lines n ∨
      n ∈ [1, 3, 5] ∧ (countAt? lines n).isSome ∧ (countAt? lines' n).isSome := by
  rcases Nat.lt_or_ge lines.length n with hlt | hle
  · left
    obtain ⟨m, rfl⟩ := Nat.exists_eq_add_of_lt hlt
    have hlength := h.length_eq
    rw [lineAt?, lineAt?, List.getElem?_eq_none (by omega), List.getElem?_eq_none (by omega)]
  · exact h.line_eq n hle

theorem Recounted.lineAt?_eq (h : Recounted lines lines') (hn : n ∉ [1, 3, 5]) :
    lineAt? lines' n = lineAt? lines n := by
  rcases h.lineAt?_eq_or n with heq | ⟨hmem, _⟩
  · exact heq
  · exact absurd hmem hn

/-- From the sixth line on nothing is replaced. -/
theorem Recounted.lineAt?_eq_of_le (h : Recounted lines lines') (hn : 6 ≤ n) :
    lineAt? lines' n = lineAt? lines n := by
  apply h.lineAt?_eq
  simp only [List.mem_cons, List.not_mem_nil, or_false, not_or]
  omega

namespace Reader

/-! ## Steps side by side -/

theorem nextLine_parallel (hline : lineAt? lines' (n + 1) = lineAt? lines (n + 1))
    (hc : Abreast lines lines' n c c') : Parallel (nextLine role) (nextLine role) c c'
      (fun line line' d d' => line = line' ∧ Abreast lines lines' (n + 1) d d') := by
  obtain ⟨ws, ws', rfl, rfl⟩ := hc
  unfold Parallel
  rw [runFrom_nextLine, runFrom_nextLine, Cursor.after, Cursor.after, List.head?_drop,
    List.head?_drop, show lines'[n]? = lines[n]? from hline]
  cases lines[n]? with
  | some line => exact ⟨rfl, ws, ws', by rw [Cursor.after, List.tail_drop],
      by rw [Cursor.after, List.tail_drop]⟩
  | none => rfl

theorem fail_parallel {alike : α → α → Cursor → Cursor → Prop} (hc : Abreast lines lines' n c c')
    (cause : Cause) : Parallel (fail cause) (fail cause) c c' alike := by
  obtain ⟨ws, ws', rfl, rfl⟩ := hc
  unfold Parallel
  rw [runFrom_fail, runFrom_fail]
  rfl

theorem count_parallel (hline : lineAt? lines' (n + 1) = lineAt? lines (n + 1))
    (hc : Abreast lines lines' n c c') : Parallel (count role) (count role) c c'
      (fun k k' d d' => k = k' ∧ Abreast lines lines' (n + 1) d d') := by
  apply Parallel.bind (nextLine_parallel hline hc)
  rintro line _ d d' ⟨rfl, hd⟩
  dsimp only
  split
  next k hk => exact parallel_pure ⟨rfl, hd⟩
  next => exact fail_parallel hd _

/-- Declared counts are read side by side also if they have been replaced. -/
theorem declared_parallel (h : Recounted lines lines') (hc : Abreast lines lines' n c c') :
    Parallel (count role) (count role) c c'
      (fun _ _ d d' => Abreast lines lines' (n + 1) d d') := by
  rcases h.lineAt?_eq_or (n + 1) with hline | ⟨_, hcount, hcount'⟩
  · apply Parallel.mono (count_parallel hline hc)
    intro k k' d d' hd
    exact hd.2
  · obtain ⟨ws, ws', rfl, rfl⟩ := hc
    obtain ⟨k, hk⟩ := Option.isSome_iff_exists.mp hcount
    obtain ⟨k', hk'⟩ := Option.isSome_iff_exists.mp hcount'
    unfold Parallel
    rw [runFrom_count_eq_ok_iff.mpr ⟨hk, rfl⟩, runFrom_count_eq_ok_iff.mpr ⟨hk', rfl⟩]
    exact ⟨ws, ws', rfl, rfl⟩

theorem compareCounts_parallel (hc : Abreast lines lines' n c c') {declared declared' given : Nat} :
    Parallel (compareCounts counted declared given) (compareCounts counted declared' given) c c'
      (fun _ _ d d' => Abreast lines lines' n d d') := by
  obtain ⟨ws, ws', rfl, rfl⟩ := hc
  unfold Parallel
  rw [runFrom_compareCounts, runFrom_compareCounts]
  exact ⟨_, _, rfl, rfl⟩

theorem words_parallel (hline : lineAt? lines' (n + 1) = lineAt? lines (n + 1))
    (hc : Abreast lines lines' n c c') {declared declared' : Nat} :
    Parallel (words role counted declared) (words role counted declared') c c'
      (fun names names' d d' => names = names' ∧ Abreast lines lines' (n + 1) d d') := by
  apply Parallel.bind (nextLine_parallel hline hc)
  rintro line _ d d' ⟨rfl, hd⟩
  apply Parallel.bind (compareCounts_parallel hd)
  intro _ _ e e' he
  exact parallel_pure ⟨rfl, he⟩

theorem alphabet_parallel (h : Recounted lines lines') (hc : Abreast lines lines' 2 c c') :
    Parallel alphabet alphabet c c'
      (fun a a' d d' => a = a' ∧ Abreast lines lines' 4 d d') := by
  apply Parallel.bind (declared_parallel h hc)
  intro declared declared' d d' hd
  apply Parallel.bind (nextLine_parallel (h.lineAt?_eq (by decide)) hd)
  rintro line _ e e' ⟨rfl, he⟩
  apply Parallel.bind (compareCounts_parallel he)
  intro _ _ f f' hf
  exact parallel_pure ⟨rfl, hf⟩

theorem startName_parallel (hline : lineAt? lines' (n + 1) = lineAt? lines (n + 1))
    (hc : Abreast lines lines' n c c') : Parallel startName startName c c'
      (fun start start' d d' => start = start' ∧ Abreast lines lines' (n + 1) d d') := by
  apply Parallel.bind (nextLine_parallel hline hc)
  rintro line _ d d' ⟨rfl, hd⟩
  split
  next => exact parallel_pure ⟨rfl, hd⟩
  next => exact fail_parallel hd _

theorem atLine_parallel (line : Nat) (x : Except AutomatonError α) :
    Parallel (atLine line x) (atLine line x) c c'
      (fun y y' d d' => y = y' ∧ d = c ∧ d' = c') := by
  unfold Parallel
  rw [runFrom_atLine, runFrom_atLine]
  cases x with
  | ok y => exact ⟨rfl, rfl, rfl⟩
  | error e => rfl

theorem here_parallel (hc : Abreast lines lines' n c c') (x : Except AutomatonError α) :
    Parallel (here x) (here x) c c'
      (fun y y' d d' => y = y' ∧ Abreast lines lines' n d d') := by
  obtain ⟨ws, ws', rfl, rfl⟩ := hc
  unfold Parallel
  rw [runFrom_here, runFrom_here]
  cases x with
  | ok y => exact ⟨rfl, ws, ws', rfl, rfl⟩
  | error e => rfl

theorem transition_parallel (h : Recounted lines lines') (hn : 6 ≤ n)
    (hc : Abreast lines lines' n c c') : Parallel transition transition c c'
      (fun t t' d d' => t = t' ∧ Abreast lines lines' (n + 1) d d') := by
  apply Parallel.bind (nextLine_parallel (h.lineAt?_eq_of_le (Nat.le_succ_of_le hn)) hc)
  rintro line _ d d' ⟨rfl, hd⟩
  dsimp only
  split
  next source label target hparts =>
    obtain ⟨ws, ws', rfl, rfl⟩ := hd
    exact ⟨rfl, ws, ws', rfl, rfl⟩
  next => exact fail_parallel hd _

theorem transitionLines_parallel (h : Recounted lines lines') (count : Nat) (hn : 6 ≤ n)
    (hc : Abreast lines lines' n c c') :
    Parallel (transitionLines count) (transitionLines count) c c'
      (fun ts ts' d d' => ts = ts' ∧ Abreast lines lines' (n + count) d d') := by
  induction count generalizing n c c' with
  | zero => exact parallel_pure ⟨rfl, hc⟩
  | succ count ih =>
    apply Parallel.bind (transition_parallel h hn hc)
    rintro t _ d d' ⟨rfl, hd⟩
    apply Parallel.bind (ih (Nat.le_succ_of_le hn) hd)
    rintro ts _ e e' ⟨rfl, he⟩
    rw [Nat.succ_add_eq_add_succ] at he
    exact parallel_pure ⟨rfl, he⟩

theorem transitions_parallel (h : Recounted lines lines') (hc : Abreast lines lines' 6 c c') :
    Parallel transitions transitions c c'
      (fun ts ts' d d' => ts = ts' ∧ ∃ n ≥ 6, Abreast lines lines' n d d') := by
  apply Parallel.bind (count_parallel (h.lineAt?_eq_of_le (by decide)) hc)
  rintro count _ d d' ⟨rfl, hd⟩
  apply Parallel.mono (transitionLines_parallel h count (by decide) hd)
  rintro ts ts' e e' ⟨rfl, he⟩
  exact ⟨rfl, _, by omega, he⟩

theorem applyTransitions_parallel
    {apply : Transition → Automaton → Except AutomatonError Automaton} {ts : List Transition}
    {a : Automaton} :
    Parallel (applyTransitions apply a ts) (applyTransitions apply a ts) c c'
      (fun b b' d d' => b = b' ∧ d = c ∧ d' = c') := by
  induction ts generalizing a with
  | nil => exact parallel_pure ⟨rfl, rfl, rfl⟩
  | cons t ts ih =>
    rw [applyTransitions, List.foldlM_cons]
    apply Parallel.bind (atLine_parallel t.line (apply t a))
    rintro b _ _ _ ⟨rfl, rfl, rfl⟩
    exact ih

/-! ## Formats side by side -/

theorem nondeterministic_parallel (h : Recounted lines lines') (hc : Abreast lines lines' 0 c c') :
    Parallel nondeterministic nondeterministic c c'
      (fun a a' d d' => a = a' ∧ ∃ n ≥ 6, Abreast lines lines' n d d') := by
  apply Parallel.bind (declared_parallel h hc)
  intro stateCount stateCount' c₁ c₁' hc₁
  apply Parallel.bind (words_parallel (h.lineAt?_eq (by decide)) hc₁)
  rintro names _ c₂ c₂' ⟨rfl, hc₂⟩
  apply Parallel.bind (alphabet_parallel h hc₂)
  rintro alphabet _ c₄ c₄' ⟨rfl, hc₄⟩
  apply Parallel.bind (here_parallel hc₄ _)
  rintro declared _ d d' ⟨rfl, hd⟩
  apply Parallel.bind (declared_parallel h hd)
  intro finalCount finalCount' c₅ c₅' hc₅
  apply Parallel.bind (words_parallel (h.lineAt?_eq (by decide)) hc₅)
  rintro finals _ c₆ c₆' ⟨rfl, hc₆⟩
  apply Parallel.bind (here_parallel hc₆ _)
  rintro marked _ e e' ⟨rfl, he⟩
  apply Parallel.bind (transitions_parallel h he)
  rintro ts _ f f' ⟨rfl, hf⟩
  apply Parallel.mono applyTransitions_parallel
  rintro a _ _ _ ⟨rfl, rfl, rfl⟩
  exact ⟨rfl, hf⟩

theorem deterministic_parallel (h : Recounted lines lines') (hc : Abreast lines lines' 0 c c') :
    Parallel deterministic deterministic c c' (fun a a' _ _ => a = a') := by
  apply Parallel.bind (declared_parallel h hc)
  intro stateCount stateCount' c₁ c₁' hc₁
  apply Parallel.bind (startName_parallel (h.lineAt?_eq (by decide)) hc₁)
  rintro start _ c₂ c₂' ⟨rfl, hc₂⟩
  apply Parallel.bind (alphabet_parallel h hc₂)
  rintro alphabet _ c₄ c₄' ⟨rfl, hc₄⟩
  apply Parallel.bind (here_parallel hc₄ _)
  rintro declared _ d d' ⟨rfl, hd⟩
  apply Parallel.bind (declared_parallel h hd)
  intro finalCount finalCount' c₅ c₅' hc₅
  apply Parallel.bind (words_parallel (h.lineAt?_eq (by decide)) hc₅)
  rintro finals _ c₆ c₆' ⟨rfl, hc₆⟩
  apply Parallel.bind (here_parallel hc₆ _)
  rintro marked _ e e' ⟨rfl, he⟩
  apply Parallel.bind (transitions_parallel h he)
  rintro ts _ f f' ⟨rfl, hf⟩
  apply Parallel.mono applyTransitions_parallel
  rintro a _ _ _ ⟨rfl, _, _⟩
  rfl

theorem inputWord_parallel (h : Recounted lines lines') (hn : 6 ≤ n)
    (hc : Abreast lines lines' n c c') :
    Parallel inputWord inputWord c c' (fun word word' _ _ => word = word') := by
  obtain ⟨ws, ws', rfl, rfl⟩ := hc
  have hline : lines'[n]? = lines[n]? := h.lineAt?_eq_of_le (Nat.le_succ_of_le hn)
  unfold Parallel inputWord
  rw [runFrom_bind, runFrom_bind, runFrom_nextLine?, runFrom_nextLine?, Cursor.after, Cursor.after,
    List.head?_drop, List.head?_drop, hline]
  rfl

/-- What is read side by side from the first line on is reported the same. -/
theorem report_outcome_eq {reader : Reader α} {text text' : String}
    (h : ∀ c c', Abreast (Text.lines text.toList) (Text.lines text'.toList) 0 c c' →
      Parallel reader reader c c' (fun x x' _ _ => x = x')) :
    (reader.report text').outcome = (reader.report text).outcome := by
  have hstart : Abreast (Text.lines text.toList) (Text.lines text'.toList) 0
      (.ofText text) (.ofText text') := ⟨[], [], rfl, rfl⟩
  exact ((h _ _ hstart).outcome_eq fun _ _ _ _ hx => hx).symm

end Reader

/-! ## Problems -/

section Outcomes

variable {text text' : String} (h : Recounted (Text.lines text.toList) (Text.lines text'.toList))
include h

theorem Acceptance.outcome_eq_of_recounted :
    (Acceptance.read text').outcome = (Acceptance.read text).outcome := by
  apply Reader.report_outcome_eq
  intro c c' hc
  apply Parallel.bind (Reader.nondeterministic_parallel h hc)
  rintro nfa _ d d' ⟨rfl, n, hn, hd⟩
  apply Parallel.bind (Reader.inputWord_parallel h hn hd)
  rintro word _ e e' rfl
  exact parallel_pure rfl

theorem Determinization.outcome_eq_of_recounted :
    (Determinization.read text').outcome = (Determinization.read text).outcome := by
  apply Reader.report_outcome_eq
  intro c c' hc
  apply Parallel.bind (Reader.nondeterministic_parallel h hc)
  rintro nfa _ d d' ⟨rfl, _⟩
  exact parallel_pure rfl

theorem Minimization.outcome_eq_of_recounted :
    (Minimization.read text').outcome = (Minimization.read text).outcome := by
  apply Reader.report_outcome_eq
  intro c c' hc
  apply Parallel.bind (Reader.deterministic_parallel h hc)
  rintro dfa _ d d' rfl
  exact parallel_pure rfl

end Outcomes

/-- Declared counts of states, symbols and final states only warn. The warnings are those of the
lines that reading got to and that hold more or less than declared, in order, also if reading fails
later. Other counts in their place change nothing about what is read or why it is not. -/
theorem declared_counts_only_warn (text : String) :
    ((Acceptance.read text).WarnsOf (Text.lines text.toList) Format.acceptance.compared ∧
      (Determinization.read text).WarnsOf (Text.lines text.toList)
        Format.determinization.compared ∧
      (Minimization.read text).WarnsOf (Text.lines text.toList) Format.minimization.compared) ∧
    ∀ text', Recounted (Text.lines text.toList) (Text.lines text'.toList) →
      (Acceptance.read text').outcome = (Acceptance.read text).outcome ∧
      (Determinization.read text').outcome = (Determinization.read text).outcome ∧
      (Minimization.read text').outcome = (Minimization.read text).outcome := by
  refine ⟨⟨Acceptance.warnsOf text, Determinization.warnsOf text, Minimization.warnsOf text⟩, ?_⟩
  intro text' h
  exact ⟨Acceptance.outcome_eq_of_recounted h, Determinization.outcome_eq_of_recounted h,
    Minimization.outcome_eq_of_recounted h⟩

/-- Three counts that are far off, before a transition that is refused. -/
theorem declared_counts_only_warn_refused :
    Recounted (Text.lines "2\nA B\n1\na\n1\nB\n1\nA,b,B".toList)
      (Text.lines "7\nA B\n 9\na\n0\nB\n1\nA,b,B".toList) ∧
    (Acceptance.read "7\nA B\n 9\na\n0\nB\n1\nA,b,B").outcome =
      (Acceptance.read "2\nA B\n1\na\n1\nB\n1\nA,b,B").outcome ∧
    (Minimization.read "7\nA B\n 9\na\n0\nB\n1\nA,b,B").warnings =
      [⟨4, .symbols, 9, 1⟩, ⟨6, .finalStates, 0, 1⟩] := by
  have hrecounted : Recounted (Text.lines "2\nA B\n1\na\n1\nB\n1\nA,b,B".toList)
      (Text.lines "7\nA B\n 9\na\n0\nB\n1\nA,b,B".toList) :=
    ⟨by decide +kernel, by decide +kernel⟩
  obtain ⟨houtcome, _, _⟩ := (declared_counts_only_warn _).2 _ hrecounted
  obtain ⟨⟨_, _, hwarnings⟩, _⟩ := declared_counts_only_warn "7\nA B\n 9\na\n0\nB\n1\nA,b,B"
  exact ⟨hrecounted, houtcome, hwarnings.trans (by decide +kernel)⟩

end FiniteState.Problem
