import FiniteState.Proofs.Problem.Declared
import FiniteState.Proofs.Problem.Rejection

/-! # Texts in both formats of automata

A text may be read as a nondeterministic automaton and as a deterministic one. The formats declare
states in different orders, add transitions or replace them, and only one of them keeps states that
nothing leads to. If what the first one gives is deterministic, the two still agree.
-/

namespace FiniteState.Problem

namespace Sheet

variable {s : Sheet} {start name : String} {a b : Automaton}

/-- The name is that of the start, of a final state or of the target of a transition. -/
def Needs (s : Sheet) (name : String) : Prop :=
  s.names.head? = some name ∨ name ∈ s.finals ∨ ∃ t ∈ s.transitions, t.target = name

theorem mem_namesFrom_iff_needs (hstart : s.names.head? = some start) :
    name ∈ s.namesFrom start ↔ s.Needs name := by
  rw [mem_namesFrom, Needs, hstart, Option.some_inj, eq_comm]

theorem Declared.mem_of_needs (hs : s.Declared s.names) (h : s.Needs name) : name ∈ s.names := by
  rcases h with hstart | hfinal | ⟨t, ht, rfl⟩
  · exact List.mem_of_head? hstart
  · exact hs.finals_mem name hfinal
  · exact (hs.transitions_fit t ht).target_mem

/-- If the transitions make a deterministic automaton, none of them replaces another. -/
theorem automaton_eq_of_deterministic (hdet : (s.automaton (s.namesFrom start)).Deterministic)
    (h : s.deterministic start = .ok b) : s.automaton (s.namesFrom start) = b := by
  obtain ⟨_, rfl⟩ := deterministic_eq_ok_iff.mp h
  have hfunctional : ∀ e ∈ (s.automaton (s.namesFrom start)).edgeSet,
      ∀ f ∈ (s.automaton (s.namesFrom start)).edgeSet,
      f.source = e.source → f.label = e.label → f = e := by
    rintro ⟨q, label, x⟩ he ⟨_, _, y⟩ hf rfl rfl
    cases hdet.target_unique _ _ _ _ he hf
    rfl
  have hedges : ∀ t ∈ s.transitions, t.edge (s.namesFrom start) ∈
      (s.automaton (s.namesFrom start)).edgeSet :=
    fun t ht => OrderedSet.mem_ofList.mpr (List.mem_map_of_mem ht)
  rw [foldl_replace_eq hfunctional (fun e he => absurd he OrderedSet.not_mem_empty) hedges]
  rfl

/-- Of a deterministic automaton the deterministic format leaves out states that nothing needs,
and no word is lost. -/
theorem isPart_of_deterministic (hstart : s.names.head? = some start)
    (ha : s.nondeterministic = .ok a) (hb : s.deterministic start = .ok b)
    (hdet : a.isDeterministic = true) :
    Automaton.IsPart s.Needs b a ∧ ∀ w, b.accepts w = a.accepts w := by
  obtain ⟨hs, rfl⟩ := nondeterministic_eq_ok_iff.mp ha
  obtain ⟨hkept, _⟩ := deterministic_eq_ok_iff.mp hb
  have hneeds : (· ∈ s.namesFrom start) = s.Needs :=
    funext fun name => propext (mem_namesFrom_iff_needs hstart)
  have hsubset : s.namesFrom start ⊆ s.names := fun name hname =>
    hs.mem_of_needs ((mem_namesFrom_iff_needs hstart).mp hname)
  have hpart :
      Automaton.IsPart s.Needs (s.automaton (s.namesFrom start)) (s.automaton s.names) := by
    rw [← hneeds]
    exact hs.isPart hkept (head?_namesFrom.trans hstart.symm) hsubset
  have hkeptDet : (s.automaton (s.namesFrom start)).Deterministic :=
    hpart.deterministic hkept.wellFormed hs.wellFormed
      (hs.wellFormed.isDeterministic_iff.mp hdet)
  rw [← automaton_eq_of_deterministic hkeptDet hb]
  refine ⟨hpart, ?_⟩
  intro w
  apply hpart.accepts_eq hkept.wellFormed hs.wellFormed
  intro source label target hjoined _
  obtain ⟨t, ht, _, _, rfl⟩ := hs.joins_iff.mp hjoined
  exact .inr (.inr ⟨t, ht, rfl⟩)

end Sheet

/-- A text that both formats read, the first one as a deterministic automaton, gives two automata
that accept the same words. The second is the first without the declared states that are neither the
start, nor final, nor the target of a transition, its states matched by their names. -/
theorem read_both {text : String} {d : Determinization} {m : Minimization}
    (hd : (Determinization.read text).outcome = .ok d)
    (hm : (Minimization.read text).outcome = .ok m) (hdet : d.nfa.isDeterministic = true) :
    (∀ w, m.dfa.accepts w = d.nfa.accepts w) ∧
      ∃ sheet, Sheet.ofText? text = some sheet ∧ Automaton.IsPart sheet.Needs m.dfa d.nfa := by
  obtain ⟨_, sheet, hsheet, hnfa⟩ := (Determinization.reader_ensures text).of_ok hd
  obtain ⟨_, sheet', start, hsheet', hstart, hdfa⟩ :=
    (Minimization.reader_ensures text).of_ok hm
  cases hsheet.symm.trans hsheet'
  obtain ⟨hpart, haccepts⟩ := Sheet.isPart_of_deterministic hstart hnfa hdfa hdet
  exact ⟨haccepts, sheet, hsheet, hpart⟩

/-- A text with wrong counts, a transition that is written twice and a state that nothing needs. -/
def careless : String := "7\nA C B\n1\na b\n0\nB\n2\nA,a,B\nA,a,B\n"

theorem read_both_careless : ∃ d m, (Determinization.read careless).outcome = .ok d ∧
    (Minimization.read careless).outcome = .ok m ∧ d.nfa.isDeterministic = true ∧
    d.nfa.names = ["A", "C", "B"] ∧ m.dfa.names = ["A", "B"] ∧
    (∀ w, m.dfa.accepts w = d.nfa.accepts w) ∧
    ∃ sheet, Sheet.ofText? careless = some sheet ∧
      Automaton.IsPart sheet.Needs m.dfa d.nfa := by
  have hd : (Determinization.read careless).outcome =
      .ok ⟨.listed (.ofSymbols ['a', 'b']) ["A", "C", "B"] ["B"]
        (.ofList [⟨0, .symbol 'a', 2⟩])⟩ := by
    decide +kernel
  have hm : (Minimization.read careless).outcome =
      .ok ⟨.listed (.ofSymbols ['a', 'b']) ["A", "B"] ["B"] (.ofList [⟨0, .symbol 'a', 1⟩])⟩ := by
    decide +kernel
  have hdet : (Automaton.listed (.ofSymbols ['a', 'b']) ["A", "C", "B"] ["B"]
      (.ofList [⟨0, .symbol 'a', 2⟩])).isDeterministic = true := by decide
  exact ⟨_, _, hd, hm, hdet, rfl, rfl, read_both hd hm hdet⟩

end FiniteState.Problem
