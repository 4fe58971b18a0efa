import FiniteState.Proofs.Problem.Fault

/-! # What the lines of an automaton hold

Both formats of automata have the same lines: states, an alphabet, final states and transitions,
and counts of them. They differ only in what they make of these, which needs no text any more.
-/

namespace FiniteState.Problem

/-- What the lines of an automaton hold, apart from the counts. -/
structure Sheet where
  /-- The words of the line of the states. -/
  names : List String
  alphabet : Alphabet
  /-- The words of the line of the final states. -/
  finals : List String
  /-- The transitions that are counted. -/
  transitions : List Transition

namespace Sheet

def ofLines? (lines : List (List Char)) : Option Sheet := do
  let states ← lineAt? lines 2
  let marks ← lineAt? lines 4
  let finals ← lineAt? lines 6
  let transitions ← transitionsAt? lines 7
  return ⟨namesIn states, .ofMarks (Text.words marks).flatten, namesIn finals, transitions⟩

/-- The sheet of a text. -/
def ofText? (text : String) : Option Sheet := ofLines? (Text.lines text.toList)

/-- The automaton that declares all its states. -/
def nondeterministic (s : Sheet) : Except AutomatonError Automaton := do
  let declared ← declareStates (.new s.alphabet) s.names
  let marked ← acceptDeclared declared s.finals
  s.transitions.foldlM (fun a t => t.addTo a) marked

/-- The automaton that declares only its start. -/
def deterministic (s : Sheet) (start : String) : Except AutomatonError Automaton := do
  let declared ← (Automaton.new s.alphabet).addState start false
  let marked ← acceptNamed declared s.finals
  s.transitions.foldlM (fun a t => t.replaceIn a) (ensureTargets marked s.transitions)

variable {lines : List (List Char)} {s : Sheet} {start : String} {a : Automaton}

theorem ofLines?_eq_some_iff : ofLines? lines = some s ↔
    ∃ states, lineAt? lines 2 = some states ∧ ∃ marks, lineAt? lines 4 = some marks ∧
      ∃ finals, lineAt? lines 6 = some finals ∧
        ∃ transitions, transitionsAt? lines 7 = some transitions ∧
          ⟨namesIn states, .ofMarks (Text.words marks).flatten, namesIn finals, transitions⟩ =
            s := by
  simp [ofLines?, Option.bind_eq_some_iff]

theorem nondeterministic_eq_ok_iff_steps : s.nondeterministic = .ok a ↔
    ∃ declared, declareStates (.new s.alphabet) s.names = .ok declared ∧
      ∃ marked, acceptDeclared declared s.finals = .ok marked ∧
        s.transitions.foldlM (fun a t => t.addTo a) marked = .ok a := by
  simp only [nondeterministic, Except.bind_eq_ok_iff]

theorem deterministic_eq_ok_iff_steps : s.deterministic start = .ok a ↔
    ∃ declared, (Automaton.new s.alphabet).addState start false = .ok declared ∧
      ∃ marked, acceptNamed declared s.finals = .ok marked ∧
        s.transitions.foldlM (fun a t => t.replaceIn a)
          (ensureTargets marked s.transitions) = .ok a := by
  simp only [deterministic, Except.bind_eq_ok_iff]

end Sheet

end FiniteState.Problem
