import FiniteState.Proofs.Automaton.Renaming
import FiniteState.Proofs.Partition.Renaming
import FiniteState.Proofs.Problem.CountedLines
import FiniteState.Proofs.Problem.Deterministic

/-! # The order of deterministic transitions

The order in which transitions are written decides the order in which their targets become states.
It decides where they lead only among those with the same source and symbol. If these stay in order,
the deterministic format makes of the text an automaton with other ids but the same names, which has
as many classes.
-/

namespace FiniteState.Problem

/-- Where the moves in a list lead in the deterministic format: with a symbol where the last one
does, silently where any does. -/
def Leads (moves : List Move) (source : String) : Label → String → Prop
  | .symbol c, target => ∃ m,
      (moves.filter fun m => m.source = source ∧ m.label = .symbol c).getLast? = some m ∧
        m.target = target
  | .epsilon, target => ⟨source, .epsilon, target⟩ ∈ moves

/-- Lines differ only in the order of those that are counted, and those with the same first two
fields, the source and the symbol, are in the same order. -/
structure Reordered (lines lines' : List (List Char)) : Prop where
  take_eq : lines'.take 7 = lines.take 7
  perm : (countedLines lines').Perm (countedLines lines)
  filter_eq (key : List String) :
    (countedLines lines').filter (fun line => (fieldsOf line).take 2 = key) =
      (countedLines lines).filter fun line => (fieldsOf line).take 2 = key

variable {lines lines' : List (List Char)} {line : List Char} {moves moves' : List Move} {m : Move}
  {n : Nat} {s s' : Sheet} {name start source target : String} {label : Label} {a b : Automaton}

/-- Only the keys of counted lines need to be looked at. -/
theorem reordered_iff : Reordered lines lines' ↔ lines'.take 7 = lines.take 7 ∧
    (countedLines lines').Perm (countedLines lines) ∧ ∀ first ∈ countedLines lines,
      (countedLines lines').filter (fun line => (fieldsOf line).take 2 = (fieldsOf first).take 2) =
        (countedLines lines).filter fun line =>
          (fieldsOf line).take 2 = (fieldsOf first).take 2 := by
  constructor
  · intro h
    exact ⟨h.take_eq, h.perm, fun first _ => h.filter_eq _⟩
  · rintro ⟨htake, hperm, hfilter⟩
    refine ⟨htake, hperm, fun key => ?_⟩
    by_cases hkey : ∃ first ∈ countedLines lines, (fieldsOf first).take 2 = key
    · obtain ⟨first, hfirst, rfl⟩ := hkey
      exact hfilter first hfirst
    · have hnone : ∀ line ∈ countedLines lines, ¬(fieldsOf line).take 2 = key := by
        simpa using hkey
      rw [List.filter_eq_nil_iff.mpr fun line hline => by
          simpa using hnone line (hperm.mem_iff.mp hline),
        List.filter_eq_nil_iff.mpr fun line hline => by
          simpa using hnone line hline]

instance (lines lines' : List (List Char)) : Decidable (Reordered lines lines') :=
  decidable_of_iff _ reordered_iff.symm

/-! ## Moves -/

theorem mark_ofToken (token : Char) : (Label.ofToken token).mark = token := by
  unfold Label.ofToken
  split
  next h => exact h.symm
  next => rfl

/-- The first two fields of a line are the source and the label of its move. -/
theorem take_fieldsOf (h : moveIn? line = some m) :
    (fieldsOf line).take 2 = [m.source, m.label.text] := by
  obtain ⟨token, htoken, hfields⟩ := fieldsOf_of_moveIn? h
  rw [hfields, ← htoken, Label.text, mark_ofToken]
  rfl

/-- The moves with a source and a label are in the lines with these fields. -/
theorem filter_filterMap_moveIn? (lines : List (List Char)) :
    (lines.filterMap moveIn?).filter (fun m => m.source = source ∧ m.label = label) =
      ((lines.filter fun line => (fieldsOf line).take 2 = [source, label.text]).filterMap
        moveIn?).filter fun m => m.source = source ∧ m.label = label := by
  rw [List.filter_filterMap, List.filter_filterMap, List.filterMap_filter]
  apply List.filterMap_congr
  intro line _
  split
  next => rfl
  next hkey =>
    cases hm : moveIn? line with
    | none => rfl
    | some m =>
      have hother : ¬(m.source = source ∧ m.label = label) := by
        rintro ⟨rfl, rfl⟩
        exact hkey (decide_eq_true (take_fieldsOf hm))
      simp [Option.filter, hother]

theorem leads_congr (hperm : moves'.Perm moves)
    (hfilter : ∀ label, moves'.filter (fun m => m.source = source ∧ m.label = label) =
      moves.filter fun m => m.source = source ∧ m.label = label) :
    Leads moves' source label target ↔ Leads moves source label target := by
  cases label with
  | symbol c => rw [Leads, Leads, hfilter]
  | epsilon => exact hperm.mem_iff

namespace Sheet

/-- In the automaton of a sheet, states are joined as the moves lead. -/
theorem joins_iff_leads (h : s.deterministic start = .ok a) :
    a.Joins source label target ↔ Leads s.moves source label target := by
  obtain ⟨hs, rfl⟩ := deterministic_eq_ok_iff.mp h
  cases label with
  | symbol c =>
    have hlast : (s.moves.filter fun m => m.source = source ∧ m.label = .symbol c).getLast? =
        (last? s.transitions source (.symbol c)).map Transition.move := by
      rw [moves, List.filter_map, List.getLast?_map, List.getLast?_filter]
      rfl
    rw [joins_symbol_iff hs.names_nodup hs.transitions_fit, Leads, hlast]
    simp [Transition.move]
  | epsilon =>
    rw [joins_epsilon_iff hs.names_nodup hs.transitions_fit]
    simp [Leads, moves, Transition.move]

/-- What a sheet needs and refuses depends on its moves, in any order. -/
theorem needs_iff_moves : s.Needs name ↔
    s.names.head? = some name ∨ name ∈ s.finals ∨ ∃ m ∈ s.moves, m.target = name := by
  simp [Needs, moves, Transition.move]

/-- A sheet is built if the alphabet has the symbols of its moves and it needs their sources. -/
theorem exists_deterministic_iff_moves (hstart : s.names.head? = some start) :
    (∃ a, s.deterministic start = .ok a) ↔
      ∀ m ∈ s.moves, (∀ c, m.label = .symbol c → c ∈ s.alphabet) ∧ s.Needs m.source := by
  simp [exists_deterministic_eq_ok_iff hstart, Refuses, moves, Transition.move]

/-- A sheet has the moves of another in an order that leads to the same, and agrees with it on
everything else. -/
structure SameButOrder (s s' : Sheet) : Prop where
  names_eq : s'.names = s.names
  alphabet_eq : s'.alphabet = s.alphabet
  finals_eq : s'.finals = s.finals
  perm : s'.moves.Perm s.moves
  leads_iff (source : String) (label : Label) (target : String) :
    Leads s'.moves source label target ↔ Leads s.moves source label target

namespace SameButOrder

variable (h : s.SameButOrder s')
include h

theorem needs_iff : s'.Needs name ↔ s.Needs name := by
  rw [needs_iff_moves, needs_iff_moves, h.names_eq, h.finals_eq]
  simp only [h.perm.mem_iff]

theorem exists_deterministic_eq_ok (hstart : s.names.head? = some start)
    (ha : s.deterministic start = .ok a) : ∃ b, s'.deterministic start = .ok b := by
  have hmoves := (exists_deterministic_iff_moves hstart).mp ⟨a, ha⟩
  rw [exists_deterministic_iff_moves (h.names_eq ▸ hstart)]
  intro m hm
  rw [h.alphabet_eq, h.needs_iff]
  exact hmoves m (h.perm.mem_iff.mp hm)

theorem sameByName (hstart : s.names.head? = some start) (ha : s.deterministic start = .ok a)
    (hb : s'.deterministic start = .ok b) : Automaton.SameByName a b := by
  have hya : s.Yields a := yields_of_deterministic hstart ha
  have hyb : s'.Yields b := yields_of_deterministic (h.names_eq ▸ hstart) hb
  have hpart : Automaton.IsPart (fun _ => True) b a := by
    refine ⟨hyb.wellFormed.names_nodup, hya.wellFormed.names_nodup, ?_, ?_, ?_, ?_, ?_⟩
    · rw [hyb.alphabet_eq, hya.alphabet_eq, h.alphabet_eq]
    · rw [hyb.startName?_eq, hya.startName?_eq, h.names_eq]
    · intro name
      rw [and_true, hyb.mem_names_iff, hya.mem_names_iff, h.needs_iff]
    · intro name
      rw [and_true, hyb.acceptsAt_iff, hya.acceptsAt_iff, h.finals_eq]
    · intro source label target
      rw [joins_iff_leads hb, joins_iff_leads ha, h.leads_iff, and_self, and_true]
  exact hpart.sameByName hya.wellFormed hyb.wellFormed fun _ _ => trivial

end SameButOrder

end Sheet

/-! ## Lines -/

namespace Reordered

variable (h : Reordered lines lines')
include h

theorem countAt?_eq (hn : n ≤ 7) : countAt? lines' n = countAt? lines n := by
  rw [countAt?, countAt?, lineAt?_eq_of_take_eq h.take_eq hn]

theorem moves_perm (hs : Sheet.ofLines? lines = some s) (hs' : Sheet.ofLines? lines' = some s') :
    s'.moves.Perm s.moves := by
  rw [← Sheet.filterMap_countedLines hs, ← Sheet.filterMap_countedLines hs']
  exact h.perm.filterMap moveIn?

theorem leads_iff (hs : Sheet.ofLines? lines = some s) (hs' : Sheet.ofLines? lines' = some s') :
    Leads s'.moves source label target ↔ Leads s.moves source label target := by
  refine leads_congr (h.moves_perm hs hs') fun label => ?_
  rw [← Sheet.filterMap_countedLines hs, ← Sheet.filterMap_countedLines hs']
  rw [filter_filterMap_moveIn?, h.filter_eq, ← filter_filterMap_moveIn?]

/-- The lines in the other order hold a sheet with the same moves in that order. -/
theorem exists_filledIn (hs : s.FilledIn lines start) :
    ∃ s', Sheet.FilledIn s' lines' start ∧ s.SameButOrder s' := by
  have hwords {n : Nat} (hn : n ≤ 7) : wordsAt lines' n = wordsAt lines n :=
    wordsAt_eq_of_take_eq h.take_eq hn
  have hcount : countAt? lines' 7 = some (countedLines lines').length := by
    rw [h.countAt?_eq le_rfl, Sheet.countAt?_eq_length hs.sheet, h.perm.length_eq]
  obtain ⟨s', hs'⟩ := Sheet.exists_ofLines?_eq hcount fun line hline =>
    Sheet.exists_moveIn?_eq hs.sheet (h.perm.mem_iff.mp hline)
  have hnames : s'.names = s.names := by
    rw [Sheet.names_eq_wordsAt hs', Sheet.names_eq_wordsAt hs.sheet, hwords (by decide)]
  refine ⟨s', ⟨?_, ?_, ?_, hs', hnames ▸ hs.start⟩,
    ⟨hnames, ?_, ?_, h.moves_perm hs.sheet hs', fun _ _ _ => h.leads_iff hs.sheet hs'⟩⟩
  · rw [h.countAt?_eq (by decide)]
    exact hs.stateCount
  · rw [h.countAt?_eq (by decide)]
    exact hs.alphabetSize
  · rw [h.countAt?_eq (by decide)]
    exact hs.finalCount
  · ext c
    rw [Sheet.mem_alphabet_iff hs', Sheet.mem_alphabet_iff hs.sheet, hwords (by decide)]
  · rw [Sheet.finals_eq_wordsAt hs', Sheet.finals_eq_wordsAt hs.sheet, hwords (by decide)]

end Reordered

/-! ## Texts -/

/-- If the counted lines of a text that the deterministic format reads are put in another order,
which keeps the order of those with the same source and symbol, the text is read again. The
automaton is the same but for its ids, and minimizing it comes to equally many classes within any
number of rounds, or fails for a choice in both. -/
theorem Minimization.read_reordered {text text' : String} {m : Minimization}
    (hread : (Minimization.read text).outcome = .ok m)
    (h : Reordered (Text.lines text.toList) (Text.lines text'.toList)) :
    ∃ m', (Minimization.read text').outcome = .ok m' ∧ Automaton.SameByName m.dfa m'.dfa ∧
      ∀ limit, (∃ n, m.solve limit = .ok n ∧ m'.solve limit = .ok n) ∨
        ∃ o o', m.solve limit = .error (.nondeterministic o) ∧
          m'.solve limit = .error (.nondeterministic o') := by
  obtain ⟨s, start, hs, ha⟩ := outcome_eq_ok_iff.mp hread
  obtain ⟨s', hs', hsame⟩ := h.exists_filledIn hs
  obtain ⟨b, hb⟩ := hsame.exists_deterministic_eq_ok hs.start ha
  have hnamed : Automaton.SameByName m.dfa b := hsame.sameByName hs.start ha hb
  refine ⟨⟨b⟩, outcome_eq_ok_iff.mpr ⟨s', start, hs', hb⟩, hnamed, fun limit => ?_⟩
  obtain ⟨f, hiso, _⟩ := hnamed
  have hminimized := Partition.minimize_isIso (Sheet.wellFormed_of_deterministic ha)
    (Sheet.wellFormed_of_deterministic hb) hiso limit
  rcases hminimized with ⟨p, p', hp, hp', hsize⟩ | ⟨o, o', ho, ho'⟩
  · refine .inl ⟨p.size, ?_, ?_⟩
    · rw [solve, hp]
      rfl
    · rw [solve, hp', ← hsize]
      rfl
  · refine .inr ⟨o, o', ?_, ?_⟩
    · rw [solve, ho]
      rfl
    · rw [solve, ho']
      rfl

/-- A text in which one transition replaces another. -/
def forward : String := "1\nA\n1\na b\n1\nC\n4\nB,b,C\nA,a,D\nA,a,B\nD,b,B\n"

/-- The same text with two lines exchanged, so that the targets become states in another order. -/
def backward : String := "1\nA\n1\na b\n1\nC\n4\nD,b,B\nA,a,D\nA,a,B\nB,b,C\n"

theorem Minimization.read_reordered_backward :
    Reordered (Text.lines forward.toList) (Text.lines backward.toList) ∧
      ∃ m m', (Minimization.read forward).outcome = .ok m ∧
        (Minimization.read backward).outcome = .ok m' ∧ m.dfa.names = ["A", "C", "D", "B"] ∧
        m'.dfa.names = ["A", "C", "B", "D"] ∧ Automaton.SameByName m.dfa m'.dfa ∧
        ∃ n, m.solve (some 1) = .ok n ∧ m'.solve (some 1) = .ok n := by
  have hreordered : Reordered (Text.lines forward.toList) (Text.lines backward.toList) := by
    decide +kernel
  let m : Minimization := ⟨.listed (.ofSymbols ['a', 'b']) ["A", "C", "D", "B"] ["C"]
    (.ofList [⟨0, .symbol 'a', 3⟩, ⟨2, .symbol 'b', 3⟩, ⟨3, .symbol 'b', 1⟩])⟩
  let m' : Minimization := ⟨.listed (.ofSymbols ['a', 'b']) ["A", "C", "B", "D"] ["C"]
    (.ofList [⟨0, .symbol 'a', 2⟩, ⟨2, .symbol 'b', 1⟩, ⟨3, .symbol 'b', 2⟩])⟩
  have hm : (Minimization.read forward).outcome = .ok m := by decide +kernel
  have hm' : (Minimization.read backward).outcome = .ok m' := by decide +kernel
  have hsolved : m.solve (some 1) = .ok 4 := by decide +kernel
  obtain ⟨m'', hread, hnamed, hsolve⟩ := Minimization.read_reordered hm hreordered
  cases hm'.symm.trans hread
  rcases hsolve (some 1) with hsame | ⟨o, _, hfails, _⟩
  · exact ⟨hreordered, m, m', hm, hm', rfl, rfl, hnamed, hsame⟩
  · cases hsolved.symm.trans hfails

end FiniteState.Problem
