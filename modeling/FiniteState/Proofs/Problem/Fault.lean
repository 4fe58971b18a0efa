import FiniteState.Proofs.Automaton.Refusal
import FiniteState.Proofs.Problem.Reading

/-! # What is wrong with a problem text

A reader fails for one of a few causes, and each of them shows in a line of the text: a line that
is absent, one that does not hold what it should, or one that asks the automaton for something it
refuses. The building blocks keep the number of the cursor in step with the lines taken, and so
fail with the number of the line at fault.
-/

namespace FiniteState.Problem

/-- The kinds of problem texts. -/
inductive Format where
  | acceptance
  | determinization
  | matching
  | minimization
deriving DecidableEq, Repr

/-- The line with a number, counted from one. -/
def lineAt? (lines : List (List Char)) : Nat → Option (List Char)
  | 0 => none
  | n + 1 => lines[n]?

/-- The words of a line as names. -/
def namesIn (line : List Char) : List String := (Text.words line).map String.ofList

/-- A transition stands in the line with its number. -/
def Transition.StandsIn (lines : List (List Char)) (t : Transition) : Prop :=
  ∃ line, lineAt? lines t.line = some line ∧
    transitionParts? (Text.trim line) = some (t.source, t.label, t.target)

/-- The transition in a line. -/
def transitionAt? (lines : List (List Char)) (n : Nat) : Option Transition := do
  let line ← lineAt? lines n
  let (source, label, target) ← transitionParts? (Text.trim line)
  return ⟨n, source, label, target⟩

/-- The transitions in a number of lines from one on. -/
def transitionsFrom? (lines : List (List Char)) (first : Nat) : Nat → Option (List Transition)
  | 0 => some []
  | count + 1 => do
    let t ← transitionAt? lines first
    let ts ← transitionsFrom? lines (first + 1) count
    return t :: ts

/-- The count in a line. -/
def countAt? (lines : List (List Char)) (n : Nat) : Option Nat := do
  Text.count? (Text.trim (← lineAt? lines n))

/-- The transitions in the lines after one that holds their count. -/
def transitionsAt? (lines : List (List Char)) (n : Nat) : Option (List Transition) := do
  transitionsFrom? lines (n + 1) (← countAt? lines n)

/-- What an automaton may refuse of a transition: an end that is not declared, or its symbol. -/
inductive Transition.Unfit (t : Transition) : AutomatonError → Prop where
  | source : t.Unfit (.unknownName t.source)
  | target : t.Unfit (.unknownName t.target)
  | symbol {c : Char} : t.label = .symbol c → t.Unfit (.foreignSymbol c)

/-- Why a text cannot be read in a format, as its lines show it. -/
inductive Fault (lines : List (List Char)) (format : Format) : Error → Prop where
  | absent (role : LineRole) : Fault lines format ⟨lines.length + 1, .missingLine role⟩
  /-- The line of the start of a deterministic automaton holds no word. -/
  | startless {line : List Char} : format = .minimization → lineAt? lines 2 = some line →
      namesIn line = [] → Fault lines format ⟨2, .missingLine .startState⟩
  | uncounted {n : Nat} {line : List Char} : lineAt? lines n = some line →
      Text.count? (Text.trim line) = none →
      Fault lines format ⟨n, .invalidCount (.ofList (Text.trim line))⟩
  | malformed {n : Nat} {line : List Char} : lineAt? lines n = some line →
      transitionParts? (Text.trim line) = none →
      Fault lines format ⟨n, .malformedTransition (.ofList (Text.trim line))⟩
  /-- The line of the declared states names one twice. The names are brought in when the alphabet
  has been taken, hence the number of its line. -/
  | takenName {line : List Char} {name : String} :
      format = .acceptance ∨ format = .determinization → 4 ≤ lines.length →
      lineAt? lines 2 = some line → 1 < (namesIn line).count name →
      Fault lines format ⟨4, .automaton (.nameTaken name)⟩
  | unknownFinal {line : List Char} {name : String} :
      format = .acceptance ∨ format = .determinization → lineAt? lines 6 = some line →
      name ∈ namesIn line → Fault lines format ⟨6, .automaton (.unknownName name)⟩
  | unfit {t : Transition} {e : AutomatonError} : t.StandsIn lines → t.Unfit e →
      Fault lines format ⟨t.line, .automaton e⟩
  | pattern {line : List Char} {e : ParseError} : format = .matching →
      lineAt? lines 3 = some line → Pattern.ofString (.ofList line) = .error e →
      Fault lines format ⟨3, .pattern e⟩

variable {lines : List (List Char)} {line : List Char} {n : Nat} {format : Format} {e : Error}

theorem lineAt?_bounds (h : lineAt? lines n = some line) : 1 ≤ n ∧ n ≤ lines.length := by
  cases n with
  | zero => cases h
  | succ m =>
    obtain ⟨hm, _⟩ := List.getElem?_eq_some_iff.mp h
    exact ⟨Nat.le_add_left 1 m, hm⟩

theorem Transition.standsIn_of_transitionAt? {t : Transition} (h : transitionAt? lines n = some t) :
    t.StandsIn lines := by
  obtain ⟨line, hline, h⟩ := Option.bind_eq_some_iff.mp h
  obtain ⟨⟨source, label, target⟩, hparts, h⟩ := Option.bind_eq_some_iff.mp h
  cases h
  exact ⟨line, hline, hparts⟩

theorem standsIn_of_transitionsFrom? {count : Nat} {ts : List Transition}
    (h : transitionsFrom? lines n count = some ts) : ∀ t ∈ ts, t.StandsIn lines := by
  induction count generalizing n ts with
  | zero =>
    cases h
    exact List.forall_mem_nil _
  | succ count ih =>
    obtain ⟨t, ht, h⟩ := Option.bind_eq_some_iff.mp h
    obtain ⟨ts', hts, h⟩ := Option.bind_eq_some_iff.mp h
    cases h
    exact List.forall_mem_cons.mpr ⟨Transition.standsIn_of_transitionAt? ht, ih hts⟩

theorem standsIn_of_transitionsAt? {ts : List Transition}
    (h : transitionsAt? lines n = some ts) : ∀ t ∈ ts, t.StandsIn lines := by
  obtain ⟨count, _, h⟩ := Option.bind_eq_some_iff.mp h
  exact standsIn_of_transitionsFrom? h

/-- The number in an error is that of a line, or of the one that is absent after the last. -/
theorem Fault.line_bounds (h : Fault lines format e) : 1 ≤ e.line ∧ e.line ≤ lines.length + 1 := by
  have hwithin {n : Nat} {line : List Char} (hline : lineAt? lines n = some line) :
      1 ≤ n ∧ n ≤ lines.length + 1 := by
    obtain ⟨hpos, hle⟩ := lineAt?_bounds hline
    exact ⟨hpos, Nat.le_succ_of_le hle⟩
  cases h with
  | absent role => exact ⟨Nat.le_add_left 1 _, Nat.le_refl _⟩
  | startless _ hline _ => exact hwithin hline
  | uncounted hline _ => exact hwithin hline
  | malformed hline _ => exact hwithin hline
  | takenName _ hlength _ _ => exact ⟨Nat.le_add_left 1 _, Nat.le_succ_of_le hlength⟩
  | unknownFinal _ hline _ => exact hwithin hline
  | unfit ht _ =>
    obtain ⟨line, hline, _⟩ := ht
    exact hwithin hline
  | pattern _ hline _ => exact hwithin hline

/-! ## Taking lines -/

/-- What a cursor says about a text of which it has taken a number of lines. -/
structure Cursor.Taken (lines : List (List Char)) (n : Nat) (c : Cursor) : Prop where
  line_eq : c.line = n
  rest_eq : c.rest = lines.drop n
  le_length : n ≤ lines.length

theorem Cursor.taken_ofText (text : String) :
    (Cursor.ofText text).Taken (Text.lines text.toList) 0 := ⟨rfl, rfl, Nat.zero_le _⟩

namespace Reader

variable {c : Cursor} {α : Type}

/-- A reader fails only for faults of the text in a format. -/
def Diagnoses (reader : Reader α) (format : Format) (text : String) : Prop :=
  Ensures reader (.ofText text) (fun _ _ => True) (Fault (Text.lines text.toList) format)

theorem nextLine_ensures (hc : c.Taken lines n) (role : LineRole) :
    Ensures (nextLine role) c
      (fun line d => d.Taken lines (n + 1) ∧ lineAt? lines (n + 1) = some line)
      (Fault lines format) := by
  unfold Ensures
  rw [runFrom_nextLine, hc.rest_eq, hc.line_eq, List.head?_drop]
  cases hline : lines[n]? with
  | some line =>
    obtain ⟨hlt, _⟩ := List.getElem?_eq_some_iff.mp hline
    exact ⟨⟨rfl, List.tail_drop, hlt⟩, hline⟩
  | none =>
    have hend : n = lines.length :=
      Nat.le_antisymm hc.le_length (List.getElem?_eq_none_iff.mp hline)
    rw [hend]
    exact .absent role

/-- A reader fails at the line taken last for a cause that this line shows. -/
theorem fail_ensures {good : α → Cursor → Prop} {cause : Cause} (hc : c.Taken lines n)
    (h : Fault lines format ⟨n, cause⟩) : Ensures (fail cause) c good (Fault lines format) := by
  unfold Ensures
  rw [runFrom_fail, hc.line_eq]
  exact h

theorem count_ensures (hc : c.Taken lines n) (role : LineRole) :
    Ensures (count role) c
      (fun k d => d.Taken lines (n + 1) ∧ countAt? lines (n + 1) = some k)
      (Fault lines format) := by
  apply Ensures.bind (nextLine_ensures hc role)
  intro line d hd
  obtain ⟨htaken, hline⟩ := hd
  dsimp only
  split
  next k hcount =>
    refine ensures_pure ⟨htaken, ?_⟩
    rw [countAt?, hline]
    exact hcount
  next hcount => exact fail_ensures htaken (.uncounted hline hcount)

/-- Comparing counts may warn and takes no line. -/
theorem compareCounts_ensures (hc : c.Taken lines n) (counted : Counted)
    (declared given : Nat) :
    Ensures (compareCounts counted declared given) c (fun _ d => d.Taken lines n)
      (Fault lines format) := by
  unfold Ensures compareCounts
  by_cases h : given = declared
  · simpa [h] using hc
  · simpa [h] using ⟨hc.line_eq, hc.rest_eq, hc.le_length⟩

theorem words_ensures (hc : c.Taken lines n) (role : LineRole) (counted : Counted)
    (declared : Nat) :
    Ensures (words role counted declared) c
      (fun names d => d.Taken lines (n + 1) ∧
        ∃ line, lineAt? lines (n + 1) = some line ∧ names = namesIn line)
      (Fault lines format) := by
  apply Ensures.bind (nextLine_ensures hc role)
  intro line d hd
  obtain ⟨htaken, hline⟩ := hd
  apply Ensures.bind (compareCounts_ensures htaken _ _ _)
  intro _ d' htaken'
  exact ensures_pure ⟨htaken', line, hline, rfl⟩

theorem alphabet_ensures (hc : c.Taken lines n) :
    Ensures alphabet c
      (fun alphabet d => d.Taken lines (n + 2) ∧
        ∃ line, lineAt? lines (n + 2) = some line ∧
          alphabet = .ofMarks (Text.words line).flatten)
      (Fault lines format) := by
  apply Ensures.bind (count_ensures hc _)
  intro declared d hd
  apply Ensures.bind (nextLine_ensures hd.1 _)
  intro line d' hd'
  obtain ⟨htaken, hline⟩ := hd'
  apply Ensures.bind (compareCounts_ensures htaken _ _ _)
  intro _ d'' htaken'
  exact ensures_pure ⟨htaken', line, hline, rfl⟩

theorem transition_ensures (hc : c.Taken lines n) :
    Ensures transition c
      (fun t d => d.Taken lines (n + 1) ∧ transitionAt? lines (n + 1) = some t)
      (Fault lines format) := by
  apply Ensures.bind (nextLine_ensures hc _)
  intro line d hd
  obtain ⟨htaken, hline⟩ := hd
  dsimp only
  split
  next source label target hparts =>
    have hget : Ensures get d (fun x d' => x = d ∧ d' = d) (Fault lines format) :=
      ensures_get ⟨rfl, rfl⟩
    apply Ensures.bind hget
    intro _ _ h
    obtain ⟨rfl, rfl⟩ := h
    refine ensures_pure ⟨htaken, ?_⟩
    simp [transitionAt?, hline, hparts, htaken.line_eq]
  next hparts => exact fail_ensures htaken (.malformed hline hparts)

theorem transitionLines_ensures (hc : c.Taken lines n) (count : Nat) :
    Ensures (transitionLines count) c
      (fun ts _ => transitionsFrom? lines (n + 1) count = some ts) (Fault lines format) := by
  induction count generalizing c n with
  | zero => exact ensures_pure rfl
  | succ count ih =>
    apply Ensures.bind (transition_ensures hc)
    intro t d hd
    obtain ⟨htaken, ht⟩ := hd
    apply Ensures.bind (ih htaken)
    intro ts _ hts
    exact ensures_pure (by simp [transitionsFrom?, ht, hts])

theorem transitions_ensures (hc : c.Taken lines n) :
    Ensures transitions c (fun ts _ => transitionsAt? lines (n + 1) = some ts)
      (Fault lines format) := by
  apply Ensures.bind (count_ensures hc _)
  intro count d hd
  obtain ⟨htaken, hcount⟩ := hd
  rw [transitionsAt?, hcount]
  exact transitionLines_ensures htaken count

/-- What comes from the automaton is taken over, an error with the number of the line. -/
theorem atLine_ensures {x : Except AutomatonError α}
    (h : ∀ e, x = .error e → Fault lines format ⟨n, .automaton e⟩) :
    Ensures (atLine n x) c (fun y d => d = c ∧ x = .ok y) (Fault lines format) := by
  unfold Ensures
  rw [runFrom_atLine]
  cases x with
  | ok y => exact ⟨rfl, rfl⟩
  | error e => exact h e rfl

theorem here_ensures {x : Except AutomatonError α} (hc : c.Taken lines n)
    (h : ∀ e, x = .error e → Fault lines format ⟨n, .automaton e⟩) :
    Ensures (here x) c (fun y d => d.Taken lines n ∧ x = .ok y) (Fault lines format) := by
  unfold Ensures
  rw [runFrom_here, hc.line_eq]
  cases x with
  | ok y => exact ⟨hc, rfl⟩
  | error e => exact h e rfl

/-- The word to run on is never missing. -/
theorem inputWord_ensures : Ensures inputWord c (fun _ _ => True) (Fault lines format) := by
  unfold Ensures inputWord
  rw [runFrom_bind, runFrom_nextLine?]
  exact trivial

end Reader

end FiniteState.Problem
