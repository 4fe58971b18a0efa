import FiniteState.Proofs.Regex.Canonical

/-! # The shortest pattern of a tree

Many patterns may be read as one tree, for parentheses can stand around every part and a backslash
before every character. A derivation of such a pattern is followed from its parts: what is written
for a part is the text that the part has in the pattern, or a shorter one. So the pattern that is
written for a tree is shorter than all others that are read as this tree.
-/

namespace FiniteState

/-- One text is another, or it has fewer characters. -/
def EqOrShorter (cs ds : List Char) : Prop := cs = ds ∨ cs.length < ds.length

namespace EqOrShorter

variable {cs ds es cs' ds' : List Char}

theorem refl (cs : List Char) : EqOrShorter cs cs := .inl rfl

theorem length_le (h : EqOrShorter cs ds) : cs.length ≤ ds.length := by
  rcases h with rfl | hlt
  · exact Nat.le_refl _
  · exact Nat.le_of_lt hlt

theorem eq_of_length_eq (h : EqOrShorter cs ds) (hlength : cs.length = ds.length) : cs = ds :=
  h.resolve_right (Nat.not_lt_of_ge (Nat.le_of_eq hlength.symm))

theorem trans (hcd : EqOrShorter cs ds) (hde : EqOrShorter ds es) : EqOrShorter cs es := by
  rcases hcd with rfl | hlt
  · exact hde
  · exact .inr (Nat.lt_of_lt_of_le hlt hde.length_le)

theorem append (h : EqOrShorter cs ds) (h' : EqOrShorter cs' ds') :
    EqOrShorter (cs ++ cs') (ds ++ ds') := by
  have hle : cs.length ≤ ds.length := h.length_le
  have hle' : cs'.length ≤ ds'.length := h'.length_le
  rcases h with rfl | hlt
  · rcases h' with rfl | hlt'
    · exact .refl _
    · right
      rw [List.length_append, List.length_append]
      omega
  · right
    rw [List.length_append, List.length_append]
    omega

theorem cons (c : Char) (h : EqOrShorter cs ds) : EqOrShorter (c :: cs) (c :: ds) :=
  (refl [c]).append h

end EqOrShorter

/-! ## Taking spellings apart -/

namespace Token

variable {cs : List Char} {t : Token} {us vs : List Token} {n : Nat}

theorem Spells.eq_nil (h : Spells cs []) : cs = [] := by
  obtain ⟨ts, hts, htokens⟩ := h 0
  obtain rfl := List.map_eq_nil_iff.mp htokens
  cases hts
  rfl

theorem Spells.exists_cons (h : Spells cs (t :: us)) :
    ∃ part ds, cs = part ++ ds ∧ Spelling t part ∧ Spells ds us := by
  obtain ⟨ts, hts, htokens⟩ := h 0
  obtain ⟨_, ts', rfl, rfl, rfl⟩ := List.map_eq_cons_iff.mp htokens
  cases hts with
  | cons hpart hrest => exact ⟨_, _, rfl, hpart, hrest.spells⟩

theorem Spells.exists_append (h : Spells cs (us ++ vs)) :
    ∃ ds es, cs = ds ++ es ∧ Spells ds us ∧ Spells es vs := by
  induction us generalizing cs with
  | nil => exact ⟨[], cs, rfl, (Spelled.nil 0).spells, h⟩
  | cons t us ih =>
    obtain ⟨part, rest, rfl, hpart, hrest⟩ := h.exists_cons
    obtain ⟨ds, es, rfl, hds, hes⟩ := ih hrest
    exact ⟨part ++ ds, es, (List.append_assoc ..).symm, hpart.spells.append hds, hes⟩

theorem Spells.eq_stars (h : Spells cs (List.replicate n .star)) : cs = List.replicate n '*' := by
  induction n generalizing cs with
  | zero => exact h.eq_nil
  | succ n ih =>
    obtain ⟨part, rest, rfl, hpart, hrest⟩ := h.exists_cons
    cases hpart
    rw [ih hrest]
    rfl

end Token

namespace Regex

open Grammar Token

variable {r : Regex} {rs : List Regex} {c : Char} {cs part : List Char} {least strength : Nat}

/-! ## Parts of a pattern -/

/-- A backslash stands only before a character that cannot stand alone. -/
theorem escaped_eqOrShorter (h : Spelling (.character c) part) : EqOrShorter (escaped c) part := by
  cases h with
  | plain hoperator hmark =>
    left
    simp [escaped, hoperator, hmark]
  | escaped c =>
    unfold escaped
    split
    next => exact .refl _
    next => exact .inr (Nat.lt_succ_self 1)

/-- Parentheses around a part can be kept or left out. -/
theorem operand_eqOrShorter_group (h : EqOrShorter part cs) :
    EqOrShorter (operand least strength part) ('(' :: cs ++ [')']) := by
  unfold operand
  split
  next => exact (h.cons '(').append (.refl [')'])
  next =>
    right
    have hle : part.length ≤ cs.length := h.length_le
    simp only [List.cons_append, List.length_cons, List.length_append]
    omega

theorem operand_zero : operand 0 strength part = part := if_neg (Nat.not_lt_zero strength)

theorem operand_eqOrShorter {least' : Nat} (h : least ≤ least') :
    EqOrShorter (operand least strength part) (operand least' strength part) := by
  by_cases hstrength : strength < least'
  · have hgroup : operand least' strength part = '(' :: part ++ [')'] := if_pos hstrength
    rw [hgroup]
    exact operand_eqOrShorter_group (.refl part)
  · have hplain : operand least' strength part = part := if_neg hstrength
    rw [hplain, operand, if_neg (fun hlt => hstrength (Nat.lt_of_lt_of_le hlt h))]
    exact .refl part

/-- Stars stand after what the tree has as their operand. -/
theorem operand_stars (r : Regex) (n : Nat) :
    operand 2 (star^[n] r).strength (star^[n] r).toChars =
      operand 2 r.strength r.toChars ++ List.replicate n '*' := by
  induction n with
  | zero => exact (List.append_nil _).symm
  | succ n ih =>
    rw [Function.iterate_succ_apply', List.replicate_succ', ← List.append_assoc, ← ih]
    rfl

/-- A single item stands for itself, as an alternative in fewer parentheses. -/
theorem operand_sequence_eqOrShorter (rs : List Regex) :
    EqOrShorter (operand 1 (sequence rs).strength (sequence rs).toChars)
      (operands 2 rs).flatten := by
  match rs with
  | [r] =>
    rw [operands, operands, List.flatten_singleton]
    exact operand_eqOrShorter (Nat.le_succ 1)
  | [] | _ :: _ :: _ => exact .refl _

theorem toChars_choice_eqOrShorter (rs : List Regex) :
    EqOrShorter (choice rs).toChars (['|'].intercalate (operands 1 rs)) := by
  match rs with
  | [r] =>
    rw [operands, operands, List.intercalate_singleton]
    have hless : EqOrShorter (operand 0 r.strength r.toChars) (operand 1 r.strength r.toChars) :=
      operand_eqOrShorter (Nat.zero_le 1)
    rwa [operand_zero] at hless
  | [] | _ :: _ :: _ => exact .refl _

end Regex

/-! ## Derivations -/

namespace Grammar

open Regex Token

theorem Item.eqOrShorter_stars {r : Regex} {stars : Nat} {cs ds : List Char}
    (h : EqOrShorter (operand 2 r.strength r.toChars) cs)
    (hds : Spells ds (List.replicate stars .star)) :
    EqOrShorter (operand 2 (Regex.star^[stars] r).strength (Regex.star^[stars] r).toChars)
      (cs ++ ds) := by
  rw [operand_stars, hds.eq_stars]
  exact h.append (.refl _)

-- Each part is written as an operand of the level of the grammar at which it stands.
mutual

theorem Expression.eqOrShorter (e : Expression) {cs : List Char} (h : Spells cs e.tokens) :
    EqOrShorter (['|'].intercalate (operands 1 e.alternatives)) cs := by
  match e with
  | .single s =>
    rw [Expression.alternatives, operands, operands, List.intercalate_singleton]
    exact (operand_sequence_eqOrShorter s.items).trans (s.eqOrShorter h)
  | .bar s rest =>
    obtain ⟨ds, _, rfl, hds, htail⟩ := h.exists_append
    obtain ⟨_, es, rfl, hbar, hes⟩ := htail.exists_cons
    cases hbar
    have hfirst := (operand_sequence_eqOrShorter s.items).trans (s.eqOrShorter hds)
    have hrest := rest.eqOrShorter hes
    have hne : operands 1 rest.alternatives ≠ [] := by
      cases rest <;> exact List.cons_ne_nil _ _
    rw [Expression.alternatives, operands, List.intercalate_cons_of_ne_nil hne, List.append_assoc]
    exact hfirst.append (hrest.cons '|')

theorem Sequence.eqOrShorter (s : Sequence) {cs : List Char} (h : Spells cs s.tokens) :
    EqOrShorter (operands 2 s.items).flatten cs := by
  match s with
  | .single i =>
    rw [Sequence.items, operands, operands, List.flatten_singleton]
    exact i.eqOrShorter h
  | .next i rest =>
    obtain ⟨ds, es, rfl, hds, hes⟩ := h.exists_append
    exact (i.eqOrShorter hds).append (rest.eqOrShorter hes)

theorem Item.eqOrShorter (i : Item) {cs : List Char} (h : Spells cs i.tokens) :
    EqOrShorter (operand 2 i.tree.strength i.tree.toChars) cs := by
  match i with
  | .character c stars =>
    obtain ⟨part, ds, rfl, hpart, hds⟩ := h.exists_cons
    exact Item.eqOrShorter_stars (escaped_eqOrShorter hpart) hds
  | .group e stars =>
    obtain ⟨_, ds, rfl, hopen, hds⟩ := h.exists_cons
    obtain ⟨inner, es, rfl, hinner, hes⟩ := hds.exists_append
    obtain ⟨_, gs, rfl, hclose, hgs⟩ := hes.exists_cons
    cases hopen
    cases hclose
    have hchoice := (toChars_choice_eqOrShorter e.alternatives).trans (e.eqOrShorter hinner)
    have hgroup := Item.eqOrShorter_stars (operand_eqOrShorter_group hchoice) hgs
    simpa [Item.tree] using hgroup

end

end Grammar

namespace Regex

open Grammar Token

/-- The pattern that is written for a tree is read as this tree, and every other pattern that is
read as this tree is longer. -/
theorem text_shortest {pattern : String} {r : Regex} (h : ofString pattern = .ok r) :
    ofString r.text = .ok r ∧ r.text.length ≤ pattern.length ∧
      (r.text.length = pattern.length → r.text = pattern) := by
  have hshortest : EqOrShorter r.toChars pattern.toList := by
    rcases exists_derives h with ⟨hpattern, rfl⟩ | ⟨e, ⟨ts, hspelled, htokens⟩, rfl⟩
    · rw [hpattern]
      exact .refl []
    · have hspells : Spells pattern.toList e.tokens := htokens ▸ hspelled.spells
      exact (toChars_choice_eqOrShorter e.alternatives).trans (e.eqOrShorter hspells)
  have hlength : r.text.length = r.toChars.length := String.length_ofList
  have hpattern : pattern.toList.length = pattern.length := String.length_toList
  refine ⟨(canonical_of_ofString h).ofString_text, ?_, ?_⟩
  · rw [hlength, ← hpattern]
    exact hshortest.length_le
  · intro heq
    rw [hlength, ← hpattern] at heq
    rw [text, hshortest.eq_of_length_eq heq, String.ofList_toList]

/-- Two pairs of parentheses and one of the backslashes are not needed. -/
theorem text_shortest_grouped :
    ∃ r, ofString "((a\\|\\b))*(c)*" = .ok r ∧ r.text = "(a\\|b)*c*" ∧
      ofString r.text = .ok r ∧ r.text.length ≤ "((a\\|\\b))*(c)*".length := by
  obtain ⟨r, hr⟩ : ∃ r, ofString "((a\\|\\b))*(c)*" = .ok r := ⟨_, rfl⟩
  obtain ⟨hread, hlength, _⟩ := text_shortest hr
  refine ⟨r, hr, ?_, hread, hlength⟩
  cases hr
  rfl

end Regex

end FiniteState
