import FiniteState.Proofs.Problem.Description
import FiniteState.Proofs.Problem.Rejection

/-! # The lines of the transitions

The transitions of a sheet are the moves that the counted lines hold, line by line. What is made of
them does not depend on the numbers of the lines.
-/

namespace FiniteState.Problem

/-- A function gives the listed results exactly if it gives some for every entry, and these. -/
theorem map_eq_map_some_iff {α β : Type} {g : α → Option β} {xs : List α} {ys : List β} :
    xs.map g = ys.map some ↔ (∀ x ∈ xs, ∃ y, g x = some y) ∧ xs.filterMap g = ys := by
  induction xs generalizing ys with
  | nil => cases ys <;> simp
  | cons x xs ih =>
    cases hx : g x with
    | none => cases ys <;> simp [hx]
    | some y => cases ys <;> simp [hx, ih, and_left_comm]

/-- The lines after the number of transitions, as many as it says. -/
def countedLines (lines : List (List Char)) : List (List Char) :=
  (lines.drop 7).take ((countAt? lines 7).getD 0)

/-- The words of a line, none if it is absent. -/
def wordsAt (lines : List (List Char)) (n : Nat) : List String :=
  namesIn ((lineAt? lines n).getD [])

/-- The move that a line holds. -/
def moveIn? (line : List Char) : Option Move :=
  (transitionParts? (Text.trim line)).map fun (source, label, target) => ⟨source, label, target⟩

/-- The transitions without the numbers of their lines. -/
def Sheet.moves (s : Sheet) : List Move := s.transitions.map Transition.move

variable {lines : List (List Char)} {line : List Char} {n count : Nat} {moves : List Move}
  {m : Move}

/-- The fields of a line name the parts of its move. -/
theorem fieldsOf_of_moveIn? (h : moveIn? line = some m) :
    ∃ token, Label.ofToken token = m.label ∧
      fieldsOf line = [m.source, token.toString, m.target] := by
  obtain ⟨⟨source, label, target⟩, hparts, rfl⟩ := Option.map_eq_some_iff.mp h
  exact fieldsOf_of_transitionParts? hparts

theorem exists_transitionAt?_iff :
    (∃ t, transitionAt? lines (n + 1) = some t ∧ t.move = m) ↔
      ∃ line, lines[n]? = some line ∧ moveIn? line = some m := by
  simp only [transitionAt?, lineAt?, Option.bind_eq_bind, Option.bind_eq_some_iff, moveIn?,
    Option.map_eq_some_iff]
  constructor
  · rintro ⟨_, ⟨line, hline, parts, hparts, ht⟩, rfl⟩
    cases ht
    exact ⟨line, hline, parts, hparts, rfl⟩
  · rintro ⟨line, hline, parts, hparts, rfl⟩
    exact ⟨_, ⟨line, hline, parts, hparts, rfl⟩, rfl⟩

/-- The first of a number of transitions stands in the first line, the others in the next ones. -/
theorem exists_transitionsFrom?_succ_iff :
    (∃ ts, transitionsFrom? lines (n + 1) (count + 1) = some ts ∧
      ts.map Transition.move = m :: moves) ↔
      (∃ t, transitionAt? lines (n + 1) = some t ∧ t.move = m) ∧
        ∃ ts, transitionsFrom? lines (n + 2) count = some ts ∧ ts.map Transition.move = moves := by
  simp only [transitionsFrom?, Option.bind_eq_bind, Option.bind_eq_some_iff]
  constructor
  · rintro ⟨_, ⟨t, ht, ts, hts, heq⟩, hmoves⟩
    cases heq
    obtain ⟨rfl, rfl⟩ := List.cons.inj hmoves
    exact ⟨⟨t, ht, rfl⟩, ts, hts, rfl⟩
  · rintro ⟨⟨t, ht, rfl⟩, ts, hts, rfl⟩
    exact ⟨_, ⟨t, ht, ts, hts, rfl⟩, rfl⟩

/-- A number of transitions stands in lines exactly if these hold their moves. -/
theorem exists_transitionsFrom?_iff :
    (∃ ts, transitionsFrom? lines (n + 1) count = some ts ∧ ts.map Transition.move = moves) ↔
      moves.length = count ∧ ((lines.drop n).take count).map moveIn? = moves.map some := by
  induction count generalizing n moves with
  | zero => cases moves <;> simp [transitionsFrom?]
  | succ count ih =>
    cases moves with
    | nil => simp [transitionsFrom?, Option.bind_eq_some_iff]
    | cons m moves =>
      rw [exists_transitionsFrom?_succ_iff, exists_transitionAt?_iff, ih, ← List.head?_drop,
        ← List.tail_drop]
      cases lines.drop n with
      | nil => simp
      | cons line rest => simp [and_left_comm]

/-- The transitions of lines hold the moves of the counted ones. -/
theorem exists_transitionsAt?_iff :
    (∃ ts, transitionsAt? lines 7 = some ts ∧ ts.map Transition.move = moves) ↔
      countAt? lines 7 = some moves.length ∧
        (countedLines lines).map moveIn? = moves.map some := by
  have hread : ∀ ts, transitionsAt? lines 7 = some ts ↔
      ∃ count, countAt? lines 7 = some count ∧ transitionsFrom? lines 8 count = some ts :=
    fun ts => Option.bind_eq_some_iff
  have hfrom (count : Nat) :
      (∃ ts, transitionsFrom? lines 8 count = some ts ∧ ts.map Transition.move = moves) ↔
        moves.length = count ∧ ((lines.drop 7).take count).map moveIn? = moves.map some :=
    exists_transitionsFrom?_iff
  simp only [hread, countedLines]
  constructor
  · rintro ⟨ts, ⟨count, hcount, hts⟩, hmoves⟩
    obtain ⟨rfl, hlines⟩ := (hfrom count).mp ⟨ts, hts, hmoves⟩
    rw [hcount]
    exact ⟨rfl, hlines⟩
  · rintro ⟨hcount, hlines⟩
    rw [hcount] at hlines
    obtain ⟨ts, hts, hmoves⟩ := (hfrom _).mpr ⟨rfl, hlines⟩
    exact ⟨ts, ⟨_, hcount, hts⟩, hmoves⟩

/-- Lines that begin with the same lines hold the same there. -/
theorem lineAt?_eq_of_take_eq {lines' : List (List Char)} {k : Nat}
    (h : lines'.take k = lines.take k) (hn : n ≤ k) : lineAt? lines' n = lineAt? lines n := by
  cases n with
  | zero => rfl
  | succ n =>
    rw [lineAt?, lineAt?, ← List.getElem?_take_of_lt hn, h, List.getElem?_take_of_lt hn]

theorem wordsAt_eq_of_take_eq {lines' : List (List Char)} {k : Nat}
    (h : lines'.take k = lines.take k) (hn : n ≤ k) : wordsAt lines' n = wordsAt lines n := by
  rw [wordsAt, wordsAt, lineAt?_eq_of_take_eq h hn]

/-- Before a line that is there no line is absent. -/
theorem exists_lineAt?_of_le {k : Nat} (hline : lineAt? lines n = some line) (hk : 1 ≤ k)
    (hkn : k ≤ n) : ∃ earlier, lineAt? lines k = some earlier := by
  obtain ⟨k, rfl⟩ := Nat.exists_eq_add_of_le' hk
  have hlength := (lineAt?_bounds hline).2
  exact ⟨_, List.getElem?_eq_getElem (Nat.lt_of_lt_of_le hkn hlength)⟩

/-- Lines have a sheet if as many lines as counted are there and hold moves. -/
theorem Sheet.exists_ofLines?_eq (hcount : countAt? lines 7 = some (countedLines lines).length)
    (hmoves : ∀ line ∈ countedLines lines, ∃ m, moveIn? line = some m) :
    ∃ s, ofLines? lines = some s := by
  have hheld : (countedLines lines).map moveIn? =
      ((countedLines lines).filterMap moveIn?).map some :=
    map_eq_map_some_iff.mpr ⟨hmoves, rfl⟩
  have hlength : ((countedLines lines).filterMap moveIn?).length = (countedLines lines).length := by
    rw [← List.length_map some, ← hheld, List.length_map]
  obtain ⟨_, hline, _⟩ := Option.bind_eq_some_iff.mp hcount
  obtain ⟨states, hstates⟩ := exists_lineAt?_of_le hline (k := 2) (by decide) (by decide)
  obtain ⟨marks, hmarks⟩ := exists_lineAt?_of_le hline (k := 4) (by decide) (by decide)
  obtain ⟨finals, hfinals⟩ := exists_lineAt?_of_le hline (k := 6) (by decide) (by decide)
  rw [← hlength] at hcount
  obtain ⟨ts, hts, _⟩ := exists_transitionsAt?_iff.mpr ⟨hcount, hheld⟩
  exact ⟨_, ofLines?_eq_some_iff.mpr
    ⟨states, hstates, marks, hmarks, finals, hfinals, ts, hts, rfl⟩⟩

namespace Sheet

variable {s : Sheet} (hs : ofLines? lines = some s)
include hs

theorem names_eq_wordsAt : s.names = wordsAt lines 2 := by
  obtain ⟨states, hstates, _, _, _, _, _, _, rfl⟩ := ofLines?_eq_some_iff.mp hs
  rw [wordsAt, hstates]
  rfl

theorem finals_eq_wordsAt : s.finals = wordsAt lines 6 := by
  obtain ⟨_, _, _, _, finals, hfinals, _, _, rfl⟩ := ofLines?_eq_some_iff.mp hs
  rw [wordsAt, hfinals]
  rfl

/-- The symbols are what the words of their line are made of. -/
theorem mem_alphabet_iff {c : Char} : c ∈ s.alphabet ↔
    (∃ word ∈ wordsAt lines 4, c ∈ word.toList) ∧ c ≠ Label.epsilonMark := by
  obtain ⟨_, _, marks, hmarks, _, _, _, _, rfl⟩ := ofLines?_eq_some_iff.mp hs
  rw [wordsAt, hmarks]
  simp [namesIn]

/-- The counted lines hold the moves of the sheet, one each. -/
theorem map_moveIn?_countedLines : (countedLines lines).map moveIn? = s.moves.map some := by
  obtain ⟨_, _, _, _, _, _, ts, hts, rfl⟩ := ofLines?_eq_some_iff.mp hs
  exact (exists_transitionsAt?_iff.mp ⟨ts, hts, rfl⟩).2

theorem exists_moveIn?_eq (hline : line ∈ countedLines lines) : ∃ m, moveIn? line = some m :=
  (map_eq_map_some_iff.mp (map_moveIn?_countedLines hs)).1 line hline

theorem filterMap_countedLines : (countedLines lines).filterMap moveIn? = s.moves :=
  (map_eq_map_some_iff.mp (map_moveIn?_countedLines hs)).2

theorem mem_moves_iff : m ∈ s.moves ↔ ∃ line ∈ countedLines lines, moveIn? line = some m := by
  rw [← filterMap_countedLines hs, List.mem_filterMap]

/-- As many lines are counted as the count says. -/
theorem countAt?_eq_length : countAt? lines 7 = some (countedLines lines).length := by
  obtain ⟨_, _, _, _, _, _, ts, hts, _⟩ := ofLines?_eq_some_iff.mp hs
  obtain ⟨hcount, hmoves⟩ := exists_transitionsAt?_iff.mp ⟨ts, hts, rfl⟩
  rw [hcount, ← List.length_map some, ← hmoves, List.length_map]

end Sheet

end FiniteState.Problem
