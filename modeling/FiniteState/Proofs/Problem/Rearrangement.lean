import FiniteState.Proofs.Automaton.Renaming
import FiniteState.Proofs.Problem.CountedLines
import FiniteState.Proofs.Problem.Declared
import FiniteState.Proofs.Problem.Success
import FiniteState.Proofs.Subset.Renaming

/-! # The order of what is declared

The nondeterministic format makes a set of edges of the transitions, so their order does not matter,
nor how often one is written. The order of the states only decides their ids, apart from the first,
which is the start, and that of symbols and final states decides nothing. So the subset construction
of what is read has the same number of states.
-/

namespace FiniteState.Problem

/-- The counted lines of both are the same, in any order and each any number of times, and they are
counted rightly. -/
structure SameLines (lines lines' : List (List Char)) : Prop where
  count_eq : countAt? lines' 7 = some (countedLines lines').length
  mem_iff (line : List Char) : line ∈ countedLines lines' ↔ line ∈ countedLines lines

/-- The words of the states after the first, of the symbols and of the final states are the same in
another order, and the counted lines are the same. -/
structure Rearranged (lines lines' : List (List Char)) : Prop extends SameLines lines lines' where
  lineAt?_eq : ∀ n ∈ [1, 3, 5], lineAt? lines' n = lineAt? lines n
  start_eq : (wordsAt lines' 2).head? = (wordsAt lines 2).head?
  names_perm : (wordsAt lines' 2).Perm (wordsAt lines 2)
  symbols_perm : (wordsAt lines' 4).Perm (wordsAt lines 4)
  finals_perm : (wordsAt lines' 6).Perm (wordsAt lines 6)

theorem sameLines_iff {lines lines' : List (List Char)} : SameLines lines lines' ↔
    countAt? lines' 7 = some (countedLines lines').length ∧
      (∀ line ∈ countedLines lines', line ∈ countedLines lines) ∧
        ∀ line ∈ countedLines lines, line ∈ countedLines lines' := by
  constructor
  · intro h
    exact ⟨h.count_eq, fun line => (h.mem_iff line).mp, fun line => (h.mem_iff line).mpr⟩
  · rintro ⟨hcount, hsubset, hsuperset⟩
    exact ⟨hcount, fun line => ⟨hsubset line, hsuperset line⟩⟩

instance (lines lines' : List (List Char)) : Decidable (SameLines lines lines') :=
  decidable_of_iff _ sameLines_iff.symm

instance (lines lines' : List (List Char)) : Decidable (Rearranged lines lines') :=
  decidable_of_iff
    (SameLines lines lines' ∧ (∀ n ∈ [1, 3, 5], lineAt? lines' n = lineAt? lines n) ∧
      (wordsAt lines' 2).head? = (wordsAt lines 2).head? ∧
      (wordsAt lines' 2).Perm (wordsAt lines 2) ∧ (wordsAt lines' 4).Perm (wordsAt lines 4) ∧
      (wordsAt lines' 6).Perm (wordsAt lines 6))
    ⟨fun ⟨hlines, hcounts, hstart, hnames, hsymbols, hfinals⟩ =>
      ⟨hlines, hcounts, hstart, hnames, hsymbols, hfinals⟩,
      fun h => ⟨h.toSameLines, h.lineAt?_eq, h.start_eq, h.names_perm, h.symbols_perm,
        h.finals_perm⟩⟩

/-- The edge of a move between states that have the numbers of their names. -/
def Move.edge (names : List String) (m : Move) : Edge :=
  ⟨names.idxOf m.source, m.label, names.idxOf m.target⟩

variable {lines lines' : List (List Char)} {s s' : Sheet} {names : List String}
  {source target : String} {label : Label}

namespace Sheet

/-! ## Sheets by their moves -/

theorem declared_iff_moves : s.Declared names ↔ names.Nodup ∧ (∀ name ∈ s.finals, name ∈ names) ∧
    ∀ m ∈ s.moves, s.alphabet.Allows m.label ∧ m.source ∈ names ∧ m.target ∈ names := by
  constructor
  · intro hs
    refine ⟨hs.names_nodup, hs.finals_mem, List.forall_mem_map.mpr fun t ht => ?_⟩
    have hfits := hs.transitions_fit t ht
    exact ⟨hfits.allowed, hfits.source_mem, hfits.target_mem⟩
  · rintro ⟨hnames, hfinals, hmoves⟩
    refine ⟨hnames, hfinals, fun t ht => ?_⟩
    obtain ⟨hallowed, hsource, htarget⟩ := hmoves t.move (List.mem_map_of_mem ht)
    exact ⟨hallowed, hsource, htarget⟩

theorem Declared.joins_iff_moves (hs : s.Declared names) :
    (s.automaton names).Joins source label target ↔ ⟨source, label, target⟩ ∈ s.moves := by
  rw [hs.joins_iff, moves, List.mem_map]
  simp [Transition.move]

theorem automaton_eq_moves (s : Sheet) (names : List String) : s.automaton names =
    .listed s.alphabet names s.finals (.ofList (s.moves.map (·.edge names))) := by
  rw [automaton, moves, List.map_map]
  rfl

/-- Sheets with the same start that declare the same, in any order and any number of times. -/
structure SameContent (s s' : Sheet) : Prop where
  start_eq : s'.names.head? = s.names.head?
  names_perm : s'.names.Perm s.names
  alphabet_eq : s'.alphabet = s.alphabet
  finals_iff (name : String) : name ∈ s'.finals ↔ name ∈ s.finals
  moves_iff (m : Move) : m ∈ s'.moves ↔ m ∈ s.moves

namespace SameContent

variable (h : s.SameContent s')
include h

theorem declared (hs : s.Declared s.names) : s'.Declared s'.names := by
  obtain ⟨hnodup, hfinals, hmoves⟩ := declared_iff_moves.mp hs
  refine declared_iff_moves.mpr ⟨h.names_perm.nodup_iff.mpr hnodup, ?_, ?_⟩
  · intro name hname
    exact h.names_perm.mem_iff.mpr (hfinals name ((h.finals_iff name).mp hname))
  · intro m hm
    rw [h.alphabet_eq, h.names_perm.mem_iff, h.names_perm.mem_iff]
    exact hmoves m ((h.moves_iff m).mp hm)

theorem sameByName (hs : s.Declared s.names) :
    Automaton.SameByName (s.automaton s.names) (s'.automaton s'.names) := by
  have hs' := h.declared hs
  have hpart : Automaton.IsPart (fun _ => True) (s'.automaton s'.names) (s.automaton s.names) := by
    refine ⟨hs'.wellFormed.names_nodup, hs.wellFormed.names_nodup, h.alphabet_eq, ?_, ?_, ?_, ?_⟩
    · rw [automaton, automaton, Automaton.startName?_listed, Automaton.startName?_listed,
        h.start_eq]
    · intro name
      rw [automaton, automaton, Automaton.names_listed, Automaton.names_listed, and_true,
        h.names_perm.mem_iff]
    · intro name
      rw [hs'.acceptsAt_iff, hs.acceptsAt_iff, and_true, h.finals_iff]
    · intro source label target
      rw [hs'.joins_iff_moves, hs.joins_iff_moves, h.moves_iff, and_self, and_true]
  exact hpart.sameByName hs.wellFormed hs'.wellFormed fun _ _ => trivial

/-- If the states and the final states are in the same order, the automata are equal. -/
theorem automaton_eq (hnames : s'.names = s.names) (hfinals : s'.finals = s.finals) :
    s'.automaton s'.names = s.automaton s.names := by
  have hedges : OrderedSet.ofList (s'.moves.map (·.edge s.names)) =
      .ofList (s.moves.map (·.edge s.names)) := by
    ext e
    simp only [OrderedSet.mem_ofList, List.mem_map, h.moves_iff]
  rw [automaton_eq_moves, automaton_eq_moves, hnames, hfinals, h.alphabet_eq, hedges]

end SameContent

end Sheet

/-! ## Lines -/

/-- If nothing else has changed, everything else is where it was. -/
theorem SameLines.rearranged (h : SameLines lines lines') (htake : lines'.take 6 = lines.take 6) :
    Rearranged lines lines' := by
  refine ⟨h, ?_, ?_, ?_, ?_, ?_⟩
  · intro n hn
    simp only [List.mem_cons, List.not_mem_nil, or_false] at hn
    exact lineAt?_eq_of_take_eq htake (by omega)
  all_goals rw [wordsAt_eq_of_take_eq htake (by decide)]

namespace Rearranged

variable (h : Rearranged lines lines')
include h

theorem sameContent (hs : Sheet.ofLines? lines = some s) (hs' : Sheet.ofLines? lines' = some s') :
    s.SameContent s' where
  start_eq := by
    rw [Sheet.names_eq_wordsAt hs', Sheet.names_eq_wordsAt hs, h.start_eq]
  names_perm := by
    rw [Sheet.names_eq_wordsAt hs', Sheet.names_eq_wordsAt hs]
    exact h.names_perm
  alphabet_eq := by
    ext c
    simp only [Sheet.mem_alphabet_iff hs', Sheet.mem_alphabet_iff hs, h.symbols_perm.mem_iff]
  finals_iff name := by
    rw [Sheet.finals_eq_wordsAt hs', Sheet.finals_eq_wordsAt hs, h.finals_perm.mem_iff]
  moves_iff m := by
    simp only [Sheet.mem_moves_iff hs', Sheet.mem_moves_iff hs, h.mem_iff]

theorem exists_heldBy (hs : s.HeldBy lines) : ∃ s', Sheet.HeldBy s' lines' := by
  obtain ⟨s', hs'⟩ := Sheet.exists_ofLines?_eq h.count_eq fun line hline =>
    Sheet.exists_moveIn?_eq hs.sheet ((h.mem_iff line).mp hline)
  refine ⟨s', ?_, ?_, ?_, hs'⟩
  · rw [countAt?, h.lineAt?_eq 1 (by decide)]
    exact hs.stateCount
  · rw [countAt?, h.lineAt?_eq 3 (by decide)]
    exact hs.alphabetSize
  · rw [countAt?, h.lineAt?_eq 5 (by decide)]
    exact hs.finalCount

end Rearranged

/-! ## Texts -/

/-- If the counted lines of a text that the nondeterministic format reads are put in another order
or repeated, with the count adjusted, the text is read to the same automaton. If the states after
the first, the symbols and the final states are put in another order as well, it is read to the same
automaton but for the ids, and the subset construction has the same number of states. -/
theorem Determinization.read_rearranged {text : String} {p : Determinization}
    (hread : (Determinization.read text).outcome = .ok p) (text' : String) :
    ((Text.lines text'.toList).take 6 = (Text.lines text.toList).take 6 →
      SameLines (Text.lines text.toList) (Text.lines text'.toList) →
      (Determinization.read text').outcome = .ok p) ∧
    (Rearranged (Text.lines text.toList) (Text.lines text'.toList) →
      ∃ p', (Determinization.read text').outcome = .ok p' ∧ Automaton.SameByName p.nfa p'.nfa ∧
        p'.solve = p.solve) := by
  obtain ⟨s, hs, hbuilt⟩ := outcome_eq_ok_iff.mp hread
  obtain ⟨hdeclared, hautomaton⟩ := Sheet.nondeterministic_eq_ok_iff.mp hbuilt
  constructor
  · intro htake h
    obtain ⟨s', hs'⟩ := (h.rearranged htake).exists_heldBy hs
    have hsame := (h.rearranged htake).sameContent hs.sheet hs'.sheet
    have hnames : s'.names = s.names := by
      rw [Sheet.names_eq_wordsAt hs'.sheet, Sheet.names_eq_wordsAt hs.sheet,
        wordsAt_eq_of_take_eq htake (by decide)]
    have hfinals : s'.finals = s.finals := by
      rw [Sheet.finals_eq_wordsAt hs'.sheet, Sheet.finals_eq_wordsAt hs.sheet,
        wordsAt_eq_of_take_eq htake (by decide)]
    exact outcome_eq_ok_iff.mpr ⟨s', hs', Sheet.nondeterministic_eq_ok_iff.mpr
      ⟨hsame.declared hdeclared, (hsame.automaton_eq hnames hfinals).trans hautomaton⟩⟩
  · intro h
    obtain ⟨s', hs'⟩ := h.exists_heldBy hs
    have hsame := h.sameContent hs.sheet hs'.sheet
    have hdeclared' := hsame.declared hdeclared
    have hnamed : Automaton.SameByName p.nfa (s'.automaton s'.names) :=
      hautomaton ▸ hsame.sameByName hdeclared
    refine ⟨⟨s'.automaton s'.names⟩, outcome_eq_ok_iff.mpr
      ⟨s', hs', Sheet.nondeterministic_eq_ok_iff.mpr ⟨hdeclared', rfl⟩⟩, hnamed, ?_⟩
    obtain ⟨f, hiso, _⟩ := hnamed
    exact SubsetAutomaton.stateCount_of_isIso (hautomaton ▸ hdeclared.wellFormed)
      hdeclared'.wellFormed hiso

/-- A text with three states, of which the second and the third are final. -/
def tidy : String := "3\nA B C\n2\na b\n2\nB C\n3\nA,a,B\nA,$,C\nB,b,A\n"

/-- The same with its transitions in another order, and one of them twice. -/
def repeated : String := "3\nA B C\n2\na b\n2\nB C\n4\nB,b,A\nA,a,B\nA,$,C\nB,b,A\n"

/-- The same with everything else in another order as well. -/
def shuffled : String := "3\nA C B\n2\nb a\n2\nC B\n4\nB,b,A\nA,a,B\nA,$,C\nB,b,A\n"

theorem Determinization.read_rearranged_shuffled :
    SameLines (Text.lines tidy.toList) (Text.lines repeated.toList) ∧
    Rearranged (Text.lines tidy.toList) (Text.lines shuffled.toList) ∧
    ∃ p p', (Determinization.read tidy).outcome = .ok p ∧
      (Determinization.read repeated).outcome = .ok p ∧
      (Determinization.read shuffled).outcome = .ok p' ∧ p.nfa.names = ["A", "B", "C"] ∧
      p'.nfa.names = ["A", "C", "B"] ∧ Automaton.SameByName p.nfa p'.nfa ∧
      p'.solve = p.solve := by
  have hlines : SameLines (Text.lines tidy.toList) (Text.lines repeated.toList) := by
    decide +kernel
  have hrearranged : Rearranged (Text.lines tidy.toList) (Text.lines shuffled.toList) := by
    decide +kernel
  let p : Determinization := ⟨.listed (.ofSymbols ['a', 'b']) ["A", "B", "C"] ["B", "C"]
    (.ofList [⟨0, .symbol 'a', 1⟩, ⟨0, .epsilon, 2⟩, ⟨1, .symbol 'b', 0⟩])⟩
  let p' : Determinization := ⟨.listed (.ofSymbols ['a', 'b']) ["A", "C", "B"] ["B", "C"]
    (.ofList [⟨0, .symbol 'a', 2⟩, ⟨0, .epsilon, 1⟩, ⟨2, .symbol 'b', 0⟩])⟩
  have hp : (Determinization.read tidy).outcome = .ok p := by decide +kernel
  have hp' : (Determinization.read shuffled).outcome = .ok p' := by decide +kernel
  have hrepeated := (Determinization.read_rearranged hp repeated).1 (by decide +kernel) hlines
  obtain ⟨_, hread, hnamed, hsolve⟩ :=
    (Determinization.read_rearranged hp shuffled).2 hrearranged
  cases hp'.symm.trans hread
  exact ⟨hlines, hrearranged, p, p', hp, hrepeated, hp', rfl, rfl, hnamed, hsolve⟩

end FiniteState.Problem
