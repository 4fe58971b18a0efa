import FiniteState.Command.Run
import FiniteState.Proofs.Problem.Message
import Mathlib.Logic.Function.Basic

/-! # What a run leaves behind

A run reads a text, answers it and delivers the answer, and each of these may fail. It is settled
before the delivery whether there is an answer, so a run that fails leaves nothing behind but the
message about its failure. The answer is the same text in either place it can go to.
-/

namespace FiniteState.Command

/-- The format of the texts of a task. -/
def Task.format : Task → Problem.Format
  | .accept => .acceptance
  | .determinize => .determinization
  | .regex => .matching
  | .minimize _ => .minimization

/-- A text is read, and its problem has an answer. -/
inductive Answers (text : String) : Task → String → Prop where
  | accept {p : Problem.Acceptance} : (Problem.Acceptance.read text).outcome = .ok p →
      Answers text .accept (if p.solve then "Accepted" else "Rejected")
  | determinize {p : Problem.Determinization} :
      (Problem.Determinization.read text).outcome = .ok p →
      Answers text .determinize (toString p.solve)
  | regex {p : Problem.Matching} : (Problem.Matching.read text).outcome = .ok p →
      Answers text .regex (if p.solve then "Accepted" else "Rejected")
  | minimize {rounds : Option Nat} {p : Problem.Minimization} {n : Nat} :
      (Problem.Minimization.read text).outcome = .ok p → p.solve rounds = .ok n →
      Answers text (.minimize rounds) (toString n)

/-- A text is rejected, or its problem is refused, with the message of an error. -/
inductive Refuses (text : String) : Task → String → Prop where
  | rejected {task : Task} {e : Problem.Error} : Problem.Rejects text task.format e →
      Refuses text task e.message
  | unsolved {rounds : Option Nat} {p : Problem.Minimization} {e : AutomatonError} :
      (Problem.Minimization.read text).outcome = .ok p → p.solve rounds = .error e →
      Refuses text (.minimize rounds) e.message

/-- A run fails with a message and without a trace: nothing is printed or written, so no file is
created or changed, wherever paths lead. -/
structure Fails (o : Outcome) (message : String) : Prop where
  status_eq : o.status = 1
  standardOutput_eq : o.standardOutput = ""
  written_eq : o.written = none
  contentsAfter_eq (leads contents : String → Option String) :
    o.contentsAfter leads contents = contents
  report_eq : o.failure.map Failure.report = some ("Error: " ++ message)

/-- A run delivers a line: it prints the line if no output is named, and otherwise prints nothing
and makes the line the whole content of the file that the output leads to. -/
structure Delivers (o : Outcome) (output : Option String) (line : String) : Prop where
  status_eq : o.status = 0
  failure_eq : o.failure = none
  printed (h : output = none) : o.standardOutput = line ∧ o.written = none
  written {path : String} (h : output = some path) :
    o.standardOutput = "" ∧ o.written = some (path, line)
  unchanged (h : output = none) (leads contents : String → Option String) :
    o.contentsAfter leads contents = contents
  inFile {path name : String} (h : output = some path) {leads : String → Option String}
    (hleads : leads path = some name) (contents : String → Option String) :
    o.contentsAfter leads contents = Function.update contents name (some line)

/-- What is reported of an input that cannot be read as text: a file if one is named, else standard
input. -/
def readContext : Option String → String
  | some name => "Unable to read " ++ name
  | none => "Error when reading from stdin"

variable {text answer message line : String} {task : Task} {failure : Failure} {i : Invocation}
  {around : Surroundings}

/-! ## Answering -/

section AnswerTo

variable {α : Type} {outcome : Except Problem.Error α} {solve : α → Except AutomatonError String}

theorem answerTo_eq_ok_iff :
    answerTo outcome solve = .ok answer ↔ ∃ p, outcome = .ok p ∧ solve p = .ok answer := by
  cases outcome with
  | error e => simp [answerTo, Except.mapError, bind, Except.bind]
  | ok p => cases h : solve p <;> simp [answerTo, Except.mapError, bind, Except.bind, h]

theorem answerTo_eq_error_iff :
    answerTo outcome solve = .error failure ↔
      (∃ e, outcome = .error e ∧ .problem e = failure) ∨
        ∃ p, outcome = .ok p ∧ ∃ e, solve p = .error e ∧ .automaton e = failure := by
  cases outcome with
  | error e => simp [answerTo, Except.mapError, bind, Except.bind]
  | ok p => cases h : solve p <;> simp [answerTo, Except.mapError, bind, Except.bind, h]

end AnswerTo

/-- A task has an answer exactly if its text is read and its problem is solved. -/
theorem answer_eq_ok_iff : task.answer text = .ok answer ↔ Answers text task answer := by
  cases task with
  | accept =>
    rw [Task.answer, answerTo_eq_ok_iff]
    constructor
    · rintro ⟨_, hread, ⟨⟩⟩
      exact .accept hread
    · intro h
      cases h with
      | accept hread => exact ⟨_, hread, rfl⟩
  | determinize =>
    rw [Task.answer, answerTo_eq_ok_iff]
    constructor
    · rintro ⟨_, hread, ⟨⟩⟩
      exact .determinize hread
    · intro h
      cases h with
      | determinize hread => exact ⟨_, hread, rfl⟩
  | regex =>
    rw [Task.answer, answerTo_eq_ok_iff]
    constructor
    · rintro ⟨_, hread, ⟨⟩⟩
      exact .regex hread
    · intro h
      cases h with
      | regex hread => exact ⟨_, hread, rfl⟩
  | minimize rounds =>
    rw [Task.answer, answerTo_eq_ok_iff]
    constructor
    · rintro ⟨_, hread, hanswer⟩
      obtain ⟨_, hsolve, rfl⟩ := Except.map_eq_ok_iff.mp hanswer
      exact .minimize hread hsolve
    · intro h
      cases h with
      | minimize hread hsolve =>
        exact ⟨_, hread, Except.map_eq_ok_iff.mpr ⟨_, hsolve, rfl⟩⟩

/-- Only the solver of minimization fails, so all other failures are the reader's. -/
theorem refuses_of_answer (h : task.answer text = .error failure) :
    Refuses text task failure.message := by
  cases task with
  | accept =>
    obtain ⟨e, hread, rfl⟩ | ⟨_, _, _, ⟨⟩, _⟩ := answerTo_eq_error_iff.mp h
    exact .rejected (.acceptance hread)
  | determinize =>
    obtain ⟨e, hread, rfl⟩ | ⟨_, _, _, ⟨⟩, _⟩ := answerTo_eq_error_iff.mp h
    exact .rejected (.determinization hread)
  | regex =>
    obtain ⟨e, hread, rfl⟩ | ⟨_, _, _, ⟨⟩, _⟩ := answerTo_eq_error_iff.mp h
    exact .rejected (.matching hread)
  | minimize rounds =>
    obtain ⟨e, hread, rfl⟩ | ⟨p, hread, e, hanswer, rfl⟩ := answerTo_eq_error_iff.mp h
    · exact .rejected (.minimization hread)
    · exact .unsolved hread (Except.map_eq_error_iff.mp hanswer)

/-- The messages of refusals are lines. -/
theorem Refuses.oneLine (h : Refuses text task message) : OneLine message := by
  cases h with
  | rejected h => exact (Problem.fault_of_rejects h).oneLine_message
  | unsolved hread hsolve => exact Problem.Minimization.oneLine_message_of_solve hread hsolve

/-! ## Delivering -/

theorem fails_failed (failure : Failure) : Fails (.failed failure) failure.message where
  status_eq := rfl
  standardOutput_eq := rfl
  written_eq := rfl
  contentsAfter_eq _ _ := rfl
  report_eq := rfl

/-- What is written replaces the content of one file. -/
theorem Outcome.contentsAfter_of_written {o : Outcome} {path content name : String}
    {leads : String → Option String} (hwritten : o.written = some (path, content))
    (hleads : leads path = some name) (contents : String → Option String) :
    o.contentsAfter leads contents = Function.update contents name (some content) := by
  funext other
  rw [contentsAfter, hwritten]
  dsimp only
  rw [hleads, Function.update_apply]
  simp only [Option.some.injEq, eq_comm]

namespace Invocation

theorem delivers (hwritable : ∀ path ∈ i.output, around.isWritable path = true) (line : String) :
    Delivers (i.deliver around line) i.output line := by
  unfold deliver
  cases houtput : i.output with
  | none =>
    exact {
      status_eq := rfl
      failure_eq := rfl
      printed _ := ⟨rfl, rfl⟩
      written h := nomatch h
      unchanged _ _ _ := rfl
      inFile h := nomatch h }
  | some path =>
    dsimp only
    rw [if_pos (hwritable path houtput)]
    exact {
      status_eq := rfl
      failure_eq := rfl
      printed h := nomatch h
      written h := by
        cases h
        exact ⟨rfl, rfl⟩
      unchanged h := nomatch h
      inFile h := by
        cases h
        exact Outcome.contentsAfter_of_written rfl }

/-! ## Running -/

/-- The text that an invocation reads, if its input can be read and is text. -/
def source (i : Invocation) (around : Surroundings) : Option String :=
  match i.input with
  | some name => around.file? name
  | none => around.standardInput

/-- Why an input cannot be read. -/
def unreadable (i : Invocation) : Failure :=
  match i.input with
  | some name => .unreadableFile name
  | none => .unreadableInput

theorem text_eq (i : Invocation) (around : Surroundings) :
    i.text around = (i.source around).elim (.error i.unreadable) .ok := by
  unfold Invocation.text source unreadable
  cases i.input <;> rfl

theorem message_unreadable (i : Invocation) : i.unreadable.message = readContext i.input := by
  unfold unreadable readContext
  cases i.input <;> rfl

theorem fails_of_unreadable (hsource : i.source around = none) :
    Fails (i.run around) (readContext i.input) := by
  rw [run, text_eq, hsource, ← message_unreadable]
  exact fails_failed i.unreadable

/-- A run answers the text that it has read and delivers the answer. -/
theorem run_of_source (hsource : i.source around = some text) :
    i.run around = match i.task.answer text with
      | .ok answer => i.deliver around (answer ++ "\n")
      | .error failure => .failed failure := by
  rw [run, text_eq, hsource]
  change (match i.reply text with
    | .ok line => i.deliver around line
    | .error failure => .failed failure) = _
  rw [reply]
  cases i.task.answer text <;> rfl

/-- A run whose output can be written has status zero exactly if its input is text that is read as
a problem of the task and answered. It then delivers the answer with a line feed. Otherwise it fails
without a trace. It reports the message of the error that the reader or the solver gives, which
takes one line, or that its input cannot be read as text. -/
theorem run_outcome (i : Invocation) (around : Surroundings)
    (hwritable : ∀ path ∈ i.output, around.isWritable path = true) :
    ((i.run around).status = 0 ↔
      ∃ text, i.source around = some text ∧ ∃ answer, Answers text i.task answer) ∧
    ((∃ text, i.source around = some text ∧ ∃ answer, Answers text i.task answer ∧
        Delivers (i.run around) i.output (answer ++ "\n")) ∨
      (∃ text, i.source around = some text ∧ ∃ message, Refuses text i.task message ∧
        OneLine message ∧ Fails (i.run around) message) ∨
      (i.source around = none ∧ Fails (i.run around) (readContext i.input))) := by
  cases hsource : i.source around with
  | none =>
    have hfails := fails_of_unreadable hsource
    refine ⟨?_, .inr (.inr ⟨rfl, hfails⟩)⟩
    simp [hfails.status_eq]
  | some text =>
    cases hanswer : i.task.answer text with
    | ok answer =>
      have h := answer_eq_ok_iff.mp hanswer
      have hdelivers : Delivers (i.run around) i.output (answer ++ "\n") := by
        rw [run_of_source hsource, hanswer]
        exact delivers hwritable _
      exact ⟨iff_of_true hdelivers.status_eq ⟨text, rfl, answer, h⟩,
        .inl ⟨text, rfl, answer, h, hdelivers⟩⟩
    | error failure =>
      have h := refuses_of_answer hanswer
      have hfails : Fails (i.run around) failure.message := by
        rw [run_of_source hsource, hanswer]
        exact fails_failed failure
      refine ⟨iff_of_false (by simp [hfails.status_eq]) ?_,
        .inr (.inl ⟨text, rfl, failure.message, h, h.oneLine, hfails⟩)⟩
      rintro ⟨_, htext, answer, h'⟩
      cases htext
      cases hanswer.symm.trans (answer_eq_ok_iff.mpr h')

/-- Three states in a row, the last one accepting. -/
def row : String := "1\np\n1\na\n1\nr\n2\np,a,q\nq,a,r\n"

/-- Standard input holds a byte that begins no character. -/
def garbled : Surroundings := .ofBytes (some ⟨#[0xff]⟩) (fun _ => none) fun _ => true

/-- Without a round only the accepting state is told apart. What is not UTF-8 is not read. -/
theorem run_outcome_row :
    (∃ answer, Answers row (.minimize (some 0)) answer ∧
      Delivers ((⟨.minimize (some 0), none, some "out"⟩ : Invocation).run
        ⟨row, fun _ => none, fun _ => true⟩) (some "out") (answer ++ "\n")) ∧
      ((⟨.minimize (some 0), none, some "out"⟩ : Invocation).run
        ⟨row, fun _ => none, fun _ => true⟩).written = some ("out", "2\n") ∧
      Fails ((⟨.regex, none, none⟩ : Invocation).run garbled) "Error when reading from stdin" := by
  have hstatus : ((⟨.minimize (some 0), none, some "out"⟩ : Invocation).run
      ⟨row, fun _ => none, fun _ => true⟩).status = 0 := by decide +kernel
  have hsource : (⟨.regex, none, none⟩ : Invocation).source garbled = none := by decide +kernel
  refine ⟨?_, by decide +kernel, ?_⟩
  · rcases (run_outcome ⟨.minimize (some 0), none, some "out"⟩ ⟨row, fun _ => none, fun _ => true⟩
        fun _ _ => rfl).2 with
      ⟨_, htext, answer, hanswer, hdelivers⟩ | ⟨_, _, _, _, _, hfails⟩ | ⟨hnone, _⟩
    · cases htext
      exact ⟨answer, hanswer, hdelivers⟩
    · cases hstatus.symm.trans hfails.status_eq
    · cases hnone
  · rcases (run_outcome ⟨.regex, none, none⟩ garbled fun _ _ => rfl).2 with
      ⟨_, htext, _⟩ | ⟨_, htext, _⟩ | ⟨_, hfails⟩
    · cases hsource.symm.trans htext
    · cases hsource.symm.trans htext
    · exact hfails

end Invocation

end FiniteState.Command
