import FiniteState.Proofs.Regex.Reading
import FiniteState.Proofs.Regex.Grammar
import FiniteState.Regex.Text

/-! # The ordinary characters of a pattern

The ordinary characters of a pattern are found without reading it: a text that spells tokens adds
those of its tokens, whatever follows. If the pattern is read they are the literals of the tree, in
the same order, and the pattern that is written for any tree has just the literals of this tree. So
the alphabets of a pattern, of its tree and of its automaton are the same.
-/

namespace FiniteState

namespace Token

/-- The ordinary character that a token stands for; operators stand for none. -/
def character? : Token → Option Char
  | .character c => some c
  | .openGroup | .closeGroup | .bar | .star => none

/-- In front of any text, the characters add these to its ordinary ones. -/
def Adds (cs ds : List Char) : Prop := ∀ rest, ordinary (cs ++ rest) = ds ++ ordinary rest

variable {c : Char} {cs cs' ds ds' part : List Char} {t : Token} {ts : List PlacedToken}
  {offset : Nat}

theorem ordinary_single (hc : c ≠ escapeMark) (rest : List Char) :
    ordinary (c :: rest) = if isOperator c then ordinary rest else c :: ordinary rest := by
  rw [ordinary]
  · intro h _
    exact hc h
  · intro d _ h
    exact absurd h hc

namespace Adds

theorem nil : Adds [] [] := fun _ => rfl

theorem append (h : Adds cs ds) (h' : Adds cs' ds') : Adds (cs ++ cs') (ds ++ ds') := by
  intro rest
  rw [List.append_assoc, h, h', List.append_assoc]

/-- What operators stand around adds all there is. -/
theorem between {before after : List Char} (hbefore : Adds before []) (h : Adds cs ds)
    (hafter : Adds after []) : Adds (before ++ cs ++ after) ds := by
  simpa using (hbefore.append h).append hafter

theorem operator (hc : c ≠ escapeMark) (hoperator : isOperator c = true) : Adds [c] [] := by
  intro rest
  rw [List.singleton_append, ordinary_single hc, if_pos hoperator, List.nil_append]

theorem flatten {parts dss : List (List Char)} (h : List.Forall₂ Adds parts dss) :
    Adds parts.flatten dss.flatten := by
  induction h with
  | nil => exact .nil
  | cons hpart _ ih => exact hpart.append ih

theorem intercalate {glue : List Char} (hglue : Adds glue []) {parts dss : List (List Char)}
    (h : List.Forall₂ Adds parts dss) : Adds (glue.intercalate parts) dss.flatten := by
  induction h with
  | nil => exact .nil
  | @cons part ds _ _ hpart hrest ih =>
    cases hrest with
    | nil => simpa using hpart
    | cons =>
      have hglued : Adds (part ++ glue) ds := by simpa using hpart.append hglue
      rw [List.intercalate_cons_cons, List.flatten_cons]
      exact hglued.append ih

theorem ordinary_eq (h : Adds cs ds) : ordinary cs = ds := by
  simpa [ordinary] using h []

end Adds

/-- A token adds the character that it stands for, however it is spelled. -/
theorem Spelling.adds (h : Spelling t part) : Adds part t.character?.toList := by
  cases h with
  | plain hoperator hmark =>
    intro rest
    rw [List.singleton_append, ordinary_single hmark, hoperator]
    rfl
  | escaped c => exact fun rest => rfl
  | openGroup => exact .operator (by decide) rfl
  | closeGroup => exact .operator (by decide) rfl
  | bar => exact .operator (by decide) rfl
  | star => exact .operator (by decide) rfl

theorem Spelled.adds (h : Spelled offset cs ts) :
    Adds cs ((ts.map (·.token)).filterMap character?) := by
  induction h with
  | nil offset => exact .nil
  | @cons offset t part cs ts hpart _ ih =>
    have hboth := hpart.adds.append ih
    cases hcharacter : t.character? <;> simpa [hcharacter] using hboth

end Token

/-! ## Patterns that are read -/

namespace Regex

theorem literals_sequence (rs : List Regex) : (sequence rs).literals = literalsOf rs := by
  match rs with
  | [r] => simp [sequence, literalsOf]
  | [] | _ :: _ :: _ => rfl

theorem literals_choice (rs : List Regex) : (choice rs).literals = literalsOf rs := by
  match rs with
  | [r] => simp [choice, literalsOf]
  | [] | _ :: _ :: _ => rfl

theorem literals_stars (r : Regex) (n : Nat) : (star^[n] r).literals = r.literals := by
  induction n with
  | zero => rfl
  | succ n ih => rw [Function.iterate_succ_apply', literals, ih]

end Regex

namespace Grammar

open Token (character?)

theorem filterMap_character?_stars (n : Nat) :
    (List.replicate n Token.star).filterMap character? = [] := by
  simp [character?]

mutual

/-- A derivation has the ordinary characters of its tokens as literals of its tree. -/
theorem Expression.literals_eq (e : Expression) :
    e.tokens.filterMap character? = Regex.literalsOf e.alternatives := by
  match e with
  | .single s =>
    rw [Expression.tokens, Expression.alternatives, s.literals_eq, Regex.literalsOf,
      Regex.literals_sequence, Regex.literalsOf, List.append_nil]
  | .bar s rest =>
    rw [Expression.tokens, Expression.alternatives, List.filterMap_append, s.literals_eq,
      List.filterMap_cons_none rfl, rest.literals_eq, Regex.literalsOf, Regex.literals_sequence]

theorem Sequence.literals_eq (s : Sequence) :
    s.tokens.filterMap character? = Regex.literalsOf s.items := by
  match s with
  | .single i =>
    rw [Sequence.tokens, Sequence.items, i.literals_eq, Regex.literalsOf, Regex.literalsOf,
      List.append_nil]
  | .next i rest =>
    rw [Sequence.tokens, Sequence.items, List.filterMap_append, i.literals_eq, rest.literals_eq,
      Regex.literalsOf]

theorem Item.literals_eq (i : Item) : i.tokens.filterMap character? = i.tree.literals := by
  match i with
  | .character c stars =>
    have hcharacter : character? (.character c) = some c := rfl
    rw [Item.tokens, Item.tree, List.filterMap_cons_some hcharacter, filterMap_character?_stars,
      Regex.literals_stars, Regex.literals]
  | .group e stars =>
    rw [Item.tokens, Item.tree, List.filterMap_cons_none rfl, List.filterMap_append, e.literals_eq,
      List.filterMap_cons_none rfl, filterMap_character?_stars, List.append_nil,
      Regex.literals_stars, Regex.literals_choice]

end

end Grammar

namespace Regex

open Token

/-- A pattern that is read has the literals of its tree as ordinary characters. -/
theorem ordinary_eq_literals {cs : List Char} {r : Regex} (h : ofChars cs = .ok r) :
    ordinary cs = r.literals := by
  rcases Grammar.exists_derives h with ⟨rfl, rfl⟩ | ⟨e, ⟨ts, hspelled, htokens⟩, rfl⟩
  · rfl
  · rw [hspelled.adds.ordinary_eq, htokens, e.literals_eq, Grammar.Expression.tree,
      literals_choice]

/-! ## Patterns that are written -/

theorem adds_escaped (c : Char) : Adds (escaped c) [c] := by
  unfold escaped
  split
  next => exact (Spelling.escaped c).adds
  next h =>
    have h : isOperator c = false ∧ c ≠ escapeMark := by simpa using h
    exact (Spelling.plain h.1 h.2).adds

theorem adds_operand (least strength : Nat) {part ds : List Char} (h : Adds part ds) :
    Adds (operand least strength part) ds := by
  unfold operand
  split
  next => exact .between Spelling.openGroup.adds h Spelling.closeGroup.adds
  next => exact h

mutual

/-- The pattern of a tree adds the literals of the tree, also where it would not be read. -/
theorem adds_toChars : (r : Regex) → Adds r.toChars r.literals
  | .empty => .nil
  | .literal c => adds_escaped c
  | .concat rs => by
    rw [literals, literalsOf_eq_flatMap, List.flatMap_def]
    exact .flatten (adds_operands 2 rs)
  | .alternation rs => by
    rw [literals, literalsOf_eq_flatMap, List.flatMap_def]
    exact .intercalate Spelling.bar.adds (adds_operands 1 rs)
  | .star r => by
    have hstarred := (adds_operand 2 r.strength (adds_toChars r)).append Spelling.star.adds
    rw [toChars, literals]
    simpa [character?] using hstarred

theorem adds_operands (least : Nat) :
    (rs : List Regex) → List.Forall₂ Adds (operands least rs) (rs.map literals)
  | [] => .nil
  | r :: rs => .cons (adds_operand least r.strength (adds_toChars r)) (adds_operands least rs)

end

end Regex

/-! ## Alphabets -/

/-- A pattern that is read, its tree and its automaton have one alphabet, and scanning the pattern
that is written for any tree at all gives the alphabet of this tree. -/
theorem Alphabet.ofPattern_eq :
    (∀ (text : String) (r : Regex), Regex.ofString text = .ok r →
      ofPattern text = r.alphabet ∧
        ∃ p, Pattern.ofString text = .ok p ∧ p.regex = r ∧ p.alphabet = r.alphabet) ∧
    ∀ r : Regex, ofPattern r.text = r.alphabet := by
  constructor
  · intro text r h
    refine ⟨?_, _, Pattern.ofString_eq_ok_iff.mpr ⟨r, h, rfl⟩, rfl, rfl⟩
    rw [ofPattern, Regex.ordinary_eq_literals h, Regex.alphabet]
  · intro r
    rw [ofPattern, Regex.text, String.toList_ofList, (Regex.adds_toChars r).ordinary_eq,
      Regex.alphabet]

theorem Alphabet.ofPattern_eq_escaped :
    ∃ r p, Regex.ofString "(\\\\|\\a*)$" = .ok r ∧ Pattern.ofString "(\\\\|\\a*)$" = .ok p ∧
      ofPattern "(\\\\|\\a*)$" = r.alphabet ∧ p.alphabet = r.alphabet ∧
      r.alphabet = ofSymbols ['$', '\\', 'a'] := by
  obtain ⟨r, hr⟩ : ∃ r, Regex.ofString "(\\\\|\\a*)$" = .ok r := ⟨_, rfl⟩
  obtain ⟨hpattern, p, hp, _, hnfa⟩ := ofPattern_eq.1 _ r hr
  refine ⟨r, p, hr, hp, hpattern, hnfa, ?_⟩
  cases hr
  rfl

end FiniteState
