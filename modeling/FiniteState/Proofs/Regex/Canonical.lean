import FiniteState.Regex.Text
import FiniteState.Proofs.Regex.Grammar
import FiniteState.Proofs.Regex.Reading

/-! # Trees and their patterns

A tree is canonical if it is the empty tree, or if nothing in it is empty and all its sequences
and choices have at least two parts. The pattern of a canonical tree is read as this tree again,
and the reader gives canonical trees only.
-/

namespace FiniteState.Token

/-- The characters spell the tokens, wherever they stand. -/
def Spells (cs : List Char) (tokens : List Token) : Prop :=
  ∀ offset, ∃ ts, Spelled offset cs ts ∧ ts.map (·.token) = tokens

variable {cs ds : List Char} {us vs : List Token}

theorem Spelled.append {offset : Nat} {ts ts' : List PlacedToken} (hcs : Spelled offset cs ts)
    (hds : Spelled (offset + cs.length) ds ts') : Spelled offset (cs ++ ds) (ts ++ ts') := by
  induction hcs with
  | nil offset => exact hds
  | cons hpart _ ih =>
    rw [List.append_assoc]
    rw [List.length_append, ← Nat.add_assoc] at hds
    exact .cons hpart (ih hds)

theorem Spells.append (hcs : Spells cs us) (hds : Spells ds vs) : Spells (cs ++ ds) (us ++ vs) := by
  intro offset
  obtain ⟨ts, hts, rfl⟩ := hcs offset
  obtain ⟨ts', hts', rfl⟩ := hds (offset + cs.length)
  exact ⟨ts ++ ts', hts.append hts', List.map_append⟩

theorem Spelling.spells {t : Token} {part : List Char} (h : Spelling t part) :
    Spells part [t] := by
  intro offset
  have hspelled := Spelled.cons h (.nil (offset + part.length))
  rw [List.append_nil] at hspelled
  exact ⟨_, hspelled, rfl⟩

/-- Where characters stand does not change the tokens that they spell. -/
theorem Spelled.spells {offset : Nat} {ts : List PlacedToken} (h : Spelled offset cs ts) :
    Spells cs (ts.map (·.token)) := by
  induction h with
  | nil => exact fun offset => ⟨[], .nil offset, rfl⟩
  | cons hpart _ ih => exact hpart.spells.append ih

end FiniteState.Token

namespace FiniteState.Regex

open Grammar Token

/-- Nothing in the tree is empty, and its sequences and choices have at least two parts. -/
inductive Solid : Regex → Prop where
  | literal (c : Char) : Solid (.literal c)
  | concat {rs : List Regex} : 2 ≤ rs.length → (∀ r ∈ rs, Solid r) → Solid (.concat rs)
  | alternation {rs : List Regex} : 2 ≤ rs.length → (∀ r ∈ rs, Solid r) → Solid (.alternation rs)
  | star {r : Regex} : Solid r → Solid (.star r)

def Canonical (r : Regex) : Prop := r = .empty ∨ r.Solid

variable {r : Regex} {rs : List Regex}

theorem sequence_eq_concat (h : 2 ≤ rs.length) : sequence rs = .concat rs := by
  match rs with
  | _ :: _ :: _ => rfl

theorem choice_eq_alternation (h : 2 ≤ rs.length) : choice rs = .alternation rs := by
  match rs with
  | _ :: _ :: _ => rfl

/-! ## Reading what has been written -/

theorem spells_escaped (c : Char) : Spells (escaped c) [.character c] := by
  unfold escaped
  split
  next => exact (Spelling.escaped c).spells
  next h =>
    have h : isOperator c = false ∧ c ≠ escapeMark := by simpa using h
    exact (Spelling.plain h.1 h.2).spells

/-- The pattern of a tree has a derivation of the tree, at the level of the grammar at which its
outermost operator stands and at those above. -/
structure Legible (r : Regex) : Prop where
  expression : ∃ e : Expression, e.tree = r ∧ Spells r.toChars e.tokens
  sequence : 1 ≤ r.strength → ∃ s : Sequence, s.tree = r ∧ Spells r.toChars s.tokens
  item : 2 ≤ r.strength → ∃ i : Item, i.tree = r ∧ Spells r.toChars i.tokens

namespace Legible

theorem of_item (i : Item) (htree : i.tree = r) (h : Spells r.toChars i.tokens) : r.Legible where
  expression := ⟨.single (.single i), htree, h⟩
  sequence _ := ⟨.single i, htree, h⟩
  item _ := ⟨i, htree, h⟩

theorem of_sequence (hr : r.strength = 1) (s : Sequence) (htree : s.tree = r)
    (h : Spells r.toChars s.tokens) : r.Legible where
  expression := ⟨.single s, htree, h⟩
  sequence _ := ⟨s, htree, h⟩
  item hitem := by omega

theorem of_expression (hr : r.strength = 0) (e : Expression) (htree : e.tree = r)
    (h : Spells r.toChars e.tokens) : r.Legible where
  expression := ⟨e, htree, h⟩
  sequence hsequence := by omega
  item hitem := by omega

/-- A part in parentheses is an item. -/
theorem exists_group (hr : r.Legible) :
    ∃ i : Item, i.tree = r ∧ Spells ('(' :: r.toChars ++ [')']) i.tokens := by
  obtain ⟨e, htree, he⟩ := hr.expression
  exact ⟨.group e 0, htree, Spelling.openGroup.spells.append (he.append Spelling.closeGroup.spells)⟩

theorem exists_item (hr : r.Legible) :
    ∃ i : Item, i.tree = r ∧ Spells (operand 2 r.strength r.toChars) i.tokens := by
  unfold operand
  split
  next => exact hr.exists_group
  next h => exact hr.item (Nat.le_of_not_lt h)

theorem exists_sequence (hr : r.Legible) :
    ∃ s : Sequence, s.tree = r ∧ Spells (operand 1 r.strength r.toChars) s.tokens := by
  unfold operand
  split
  next =>
    obtain ⟨i, htree, hi⟩ := hr.exists_group
    exact ⟨.single i, htree, hi⟩
  next h => exact hr.sequence (Nat.le_of_not_lt h)

/-- Parts one after the other are a sequence. -/
theorem exists_items (hne : rs ≠ []) (hrs : ∀ r ∈ rs, r.Legible) :
    ∃ s : Sequence, s.items = rs ∧ Spells (operands 2 rs).flatten s.tokens := by
  induction rs with
  | nil => exact absurd rfl hne
  | cons r rs ih =>
    obtain ⟨hr, hrest⟩ := List.forall_mem_cons.mp hrs
    obtain ⟨i, rfl, hi⟩ := hr.exists_item
    by_cases hne : rs = []
    · subst hne
      exact ⟨.single i, rfl, by simpa [operands, Sequence.tokens] using hi⟩
    · obtain ⟨s, rfl, hs⟩ := ih hne hrest
      exact ⟨.next i s, rfl, hi.append hs⟩

/-- Parts with bars between them are an expression. -/
theorem exists_alternatives (hne : rs ≠ []) (hrs : ∀ r ∈ rs, r.Legible) :
    ∃ e : Expression, e.alternatives = rs ∧
      Spells (['|'].intercalate (operands 1 rs)) e.tokens := by
  induction rs with
  | nil => exact absurd rfl hne
  | cons r rs ih =>
    obtain ⟨hr, hrest⟩ := List.forall_mem_cons.mp hrs
    obtain ⟨s, rfl, hs⟩ := hr.exists_sequence
    match rs with
    | [] => exact ⟨.single s, rfl, by simpa [operands, Expression.tokens] using hs⟩
    | r :: rs =>
      obtain ⟨e, he, hspells⟩ := ih (List.cons_ne_nil _ _) hrest
      refine ⟨.bar s e, congrArg (s.tree :: ·) he, ?_⟩
      exact hs.append (Spelling.bar.spells.append hspells)

end Legible

theorem Solid.legible (h : r.Solid) : r.Legible := by
  induction h with
  | literal c => exact .of_item (.character c 0) rfl (spells_escaped c)
  | @concat rs hlength _ ih =>
    have hne : rs ≠ [] := List.ne_nil_of_length_pos (by omega)
    obtain ⟨s, hitems, hs⟩ := Legible.exists_items hne ih
    have htree : s.tree = .concat rs := by
      rw [Sequence.tree, hitems, sequence_eq_concat hlength]
    exact .of_sequence rfl s htree hs
  | @alternation rs hlength _ ih =>
    have hne : rs ≠ [] := List.ne_nil_of_length_pos (by omega)
    obtain ⟨e, halternatives, he⟩ := Legible.exists_alternatives hne ih
    have htree : e.tree = .alternation rs := by
      rw [Expression.tree, halternatives, choice_eq_alternation hlength]
    exact .of_expression rfl e htree he
  | star _ ih =>
    obtain ⟨i, rfl, hi⟩ := ih.exists_item
    apply Legible.of_item i.starred i.tree_starred
    rw [Item.tokens_starred]
    exact hi.append Spelling.star.spells

theorem Canonical.ofString_text (h : r.Canonical) : ofString r.text = .ok r := by
  rw [ofString, text, String.toList_ofList]
  rcases h with rfl | h
  · rfl
  · obtain ⟨e, rfl, he⟩ := h.legible.expression
    exact Expression.Derives.ofChars_eq (he 0)

/-! ## Trees that are read -/

theorem readerClosed_solid : ReaderClosed Solid where
  literal := .literal
  star _ := .star
  sequence rs hne hrs := by
    match rs with
    | [r] => exact hrs r List.mem_cons_self
    | _ :: _ :: _ => exact .concat (by simp) hrs
  choice rs hne hrs := by
    match rs with
    | [r] => exact hrs r List.mem_cons_self
    | _ :: _ :: _ => exact .alternation (by simp) hrs

theorem canonical_of_ofString {pattern : String} (h : ofString pattern = .ok r) : r.Canonical :=
  eq_empty_or_of_ofString readerClosed_solid h

/-- Canonical trees are read back from their patterns, and they are exactly the trees that are
read at all. Writing a tree that has been read therefore changes at most the pattern. -/
theorem canonical_roundtrip :
    (∀ r : Regex, r.Canonical → ofString r.text = .ok r) ∧
    (∀ (pattern : String) (r : Regex), ofString pattern = .ok r → r.Canonical) ∧
    (∀ r : Regex, (∃ pattern, ofString pattern = .ok r) ↔ r.Canonical) ∧
    ∀ (pattern : String) (r : Regex), ofString pattern = .ok r → ofString r.text = .ok r := by
  refine ⟨fun r => Canonical.ofString_text, fun pattern r => canonical_of_ofString, ?_, ?_⟩
  · intro r
    constructor
    · rintro ⟨pattern, h⟩
      exact canonical_of_ofString h
    · intro h
      exact ⟨r.text, h.ofString_text⟩
  · intro pattern r h
    exact (canonical_of_ofString h).ofString_text

theorem canonical_roundtrip_nested :
    ∃ r : Regex, r = .concat [.concat [.literal 'a', .literal '*'],
        .star (.star (.alternation [.literal '\\', .literal 'b']))] ∧
      r.Canonical ∧ r.text = "(a\\*)(\\\\|b)**" ∧ ofString r.text = .ok r := by
  have hstars : Solid (.star (.star (.alternation [.literal '\\', .literal 'b']))) := by
    refine .star (.star (.alternation (by simp) ?_))
    simpa using And.intro (Solid.literal '\\') (Solid.literal 'b')
  have hitems : Solid (.concat [.literal 'a', .literal '*']) := by
    refine .concat (by simp) ?_
    simpa using And.intro (Solid.literal 'a') (Solid.literal '*')
  have hcanonical : Canonical (.concat [.concat [.literal 'a', .literal '*'],
      .star (.star (.alternation [.literal '\\', .literal 'b']))]) :=
    .inr (.concat (by simp) (by simpa using ⟨hitems, hstars⟩))
  exact ⟨_, rfl, hcanonical, rfl, canonical_roundtrip.1 _ hcanonical⟩

end FiniteState.Regex
