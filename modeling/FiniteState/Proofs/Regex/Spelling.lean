import FiniteState.Regex.Token
import Mathlib.Algebra.Ring.Parity
import Mathlib.Data.List.DropRight

/-! # Spellings of tokens

A pattern is made of the spellings of its tokens, one after the other. A backslash and the
character after it spell that character, so a pattern has tokens, and only one sequence of them,
unless the number of backslashes at its end is odd.
-/

namespace FiniteState.Token

/-- The ways to write a token. -/
inductive Spelling : Token → List Char → Prop where
  | plain {c : Char} : isOperator c = false → c ≠ escapeMark → Spelling (.character c) [c]
  | escaped (c : Char) : Spelling (.character c) [escapeMark, c]
  | openGroup : Spelling .openGroup ['(']
  | closeGroup : Spelling .closeGroup [')']
  | bar : Spelling .bar ['|']
  | star : Spelling .star ['*']

/-- Characters that spell tokens, of which the first one begins at the given offset. -/
inductive Spelled : Nat → List Char → List PlacedToken → Prop where
  | nil (offset : Nat) : Spelled offset [] []
  | cons {offset : Nat} {t : Token} {part cs : List Char} {ts : List PlacedToken} :
      Spelling t part → Spelled (offset + part.length) cs ts →
        Spelled offset (part ++ cs) (⟨t, offset⟩ :: ts)

/-- The backslashes at the end pair off except for the last one. -/
def EndsUnpaired (cs : List Char) : Prop := Odd (cs.rtakeWhile (· = escapeMark)).length

variable {c : Char} {offset : Nat} {cs rest : List Char} {ts : List PlacedToken}

theorem Spelling.length_pos {t : Token} {part : List Char} (h : Spelling t part) :
    0 < part.length := by
  cases h <;> exact Nat.succ_pos _

/-- There are no more tokens than characters. -/
theorem Spelled.length_le (h : Spelled offset cs ts) : ts.length ≤ cs.length := by
  induction h with
  | nil => exact Nat.le_refl _
  | cons hpart _ ih =>
    have hpos := hpart.length_pos
    rw [List.length_append, List.length_cons]
    omega

/-! ## Scanning -/

theorem scan_pair : scan offset (escapeMark :: c :: rest) =
    (scan (offset + 2) rest).map (⟨.character c, offset⟩ :: ·) := rfl

theorem scan_single (hc : c ≠ escapeMark) : scan offset (c :: rest) =
    (scan (offset + 1) rest).map (⟨ofChar c, offset⟩ :: ·) := by
  rw [scan]
  · intro h _
    exact hc h
  · intro d _ h
    exact absurd h hc

theorem spelling_ofChar (hc : c ≠ escapeMark) : Spelling (ofChar c) [c] := by
  unfold ofChar
  split
  next h => exact h ▸ .openGroup
  next hopen =>
    split
    next h => exact h ▸ .closeGroup
    next hclose =>
      split
      next h => exact h ▸ .bar
      next hbar =>
        split
        next h => exact h ▸ .star
        next hstar => exact .plain (by simp [isOperator, hopen, hclose, hbar, hstar]) hc

theorem ofChar_of_not_operator (hc : isOperator c = false) : ofChar c = .character c := by
  simp only [isOperator, Bool.or_eq_false_iff, decide_eq_false_iff_not] at hc
  obtain ⟨⟨⟨hopen, hclose⟩, hstar⟩, hbar⟩ := hc
  simp [ofChar, hopen, hclose, hstar, hbar]

theorem scan_spelling {t : Token} {part : List Char} (h : Spelling t part) (offset : Nat)
    (rest : List Char) :
    scan offset (part ++ rest) =
      (scan (offset + part.length) rest).map (⟨t, offset⟩ :: ·) := by
  cases h with
  | plain hoperator hmark =>
    rw [List.singleton_append, scan_single hmark, ofChar_of_not_operator hoperator]
    rfl
  | escaped c => exact scan_pair
  | openGroup => exact scan_single (by decide)
  | closeGroup => exact scan_single (by decide)
  | bar => exact scan_single (by decide)
  | star => exact scan_single (by decide)

/-- Scanning finds the tokens that the characters spell. -/
theorem scan_eq_ok_of_spelled (h : Spelled offset cs ts) : scan offset cs = .ok ts := by
  induction h with
  | nil offset => rfl
  | cons hpart _ ih => rw [scan_spelling hpart, ih]; rfl

/-! ## Backslashes at the end -/

theorem rtakeWhile_cons {α : Type} (p : α → Bool) (x : α) (xs : List α) :
    (x :: xs).rtakeWhile p =
      if xs.all p then (if p x then x :: xs else xs) else xs.rtakeWhile p := by
  induction xs using List.reverseRecOn with
  | nil => cases hx : p x <;> simp [List.rtakeWhile, hx]
  | append_singleton ys y ih =>
    rw [← List.cons_append, List.rtakeWhile_concat, List.rtakeWhile_concat, ih]
    cases hy : p y with
    | false => simp [hy]
    | true =>
      cases hys : ys.all p with
      | false => simp [hy, hys]
      | true => cases hx : p x <;> simp [hy, hys]

theorem endsUnpaired_cons_iff (hc : c ≠ escapeMark) :
    EndsUnpaired (c :: rest) ↔ EndsUnpaired rest := by
  unfold EndsUnpaired
  rw [rtakeWhile_cons, decide_eq_false hc]
  split
  next hall => simp [List.rtakeWhile_eq_self_iff.mpr (List.all_eq_true.mp hall)]
  next => rfl

/-- A backslash and the character after it do not count. -/
theorem endsUnpaired_pair_iff : EndsUnpaired (escapeMark :: c :: rest) ↔ EndsUnpaired rest := by
  by_cases hc : c = escapeMark
  · subst hc
    unfold EndsUnpaired
    rw [rtakeWhile_cons, rtakeWhile_cons]
    cases hall : rest.all (· = escapeMark) with
    | false => simp [hall]
    | true =>
      have hrest : rest.rtakeWhile (· = escapeMark) = rest :=
        List.rtakeWhile_eq_self_iff.mpr (List.all_eq_true.mp hall)
      simp [hall, hrest, Nat.odd_add_one]
  · have hsingle : EndsUnpaired (escapeMark :: c :: rest) ↔ EndsUnpaired (c :: rest) := by
      unfold EndsUnpaired
      rw [rtakeWhile_cons, List.all_cons, decide_eq_false hc]
      simp
    rw [hsingle, endsUnpaired_cons_iff hc]

/-! ## Both outcomes -/

/-- Scanning either finds tokens that the characters spell, or stops at an unpaired backslash. -/
inductive Scans (offset : Nat) (cs : List Char) : Prop where
  | tokens {ts : List PlacedToken} :
      scan offset cs = .ok ts → Spelled offset cs ts → ¬EndsUnpaired cs → Scans offset cs
  | unpaired : EndsUnpaired cs →
      scan offset cs = .error ⟨.danglingEscape, offset + cs.length - 1⟩ → Scans offset cs

/-- The spelling of a token in front changes the outcome only by this token. -/
theorem Scans.spelling {t : Token} {part : List Char} (hpart : Spelling t part)
    (hends : EndsUnpaired (part ++ rest) ↔ EndsUnpaired rest)
    (h : Scans (offset + part.length) rest) : Scans offset (part ++ rest) := by
  have hscan := scan_spelling hpart offset rest
  cases h with
  | tokens hrest hspelled hpaired =>
    rw [hrest] at hscan
    exact .tokens hscan (.cons hpart hspelled) (mt hends.mp hpaired)
  | unpaired hunpaired hrest =>
    rw [hrest, Nat.add_assoc, ← List.length_append] at hscan
    exact .unpaired (hends.mpr hunpaired) hscan

theorem scans (offset : Nat) (cs : List Char) : Scans offset cs := by
  induction offset, cs using scan.induct with
  | case1 offset => exact .tokens rfl (.nil offset) (by simp [EndsUnpaired])
  | case2 offset => exact .unpaired (by simp [EndsUnpaired, List.rtakeWhile, escapeMark]) rfl
  | case3 offset c rest ih => exact ih.spelling (.escaped c) endsUnpaired_pair_iff
  | case4 offset c rest hlast hpair ih =>
    have hc : c ≠ escapeMark := by
      rintro rfl
      cases rest with
      | nil => exact hlast rfl rfl
      | cons d rest => exact hpair d rest rfl rfl
    exact ih.spelling (spelling_ofChar hc) (endsUnpaired_cons_iff hc)

theorem scan_eq_ok_iff : scan offset cs = .ok ts ↔ Spelled offset cs ts := by
  refine ⟨?_, scan_eq_ok_of_spelled⟩
  intro h
  cases scans offset cs with
  | tokens hscan hspelled _ =>
    cases h.symm.trans hscan
    exact hspelled
  | unpaired _ hscan => cases h.symm.trans hscan

theorem scan_eq_error_iff {e : ParseError} : scan offset cs = .error e ↔
    EndsUnpaired cs ∧ e = ⟨.danglingEscape, offset + cs.length - 1⟩ := by
  cases scans offset cs with
  | tokens hscan _ hpaired => simp [hscan, hpaired]
  | unpaired hunpaired hscan => simp [hscan, hunpaired, eq_comm]

end FiniteState.Token
