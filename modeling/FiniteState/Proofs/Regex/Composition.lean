import FiniteState.Proofs.Regex.Canonical

/-! # Patterns put together

Patterns can be put together as texts: with a bar between them, one after the other in
parentheses, or in parentheses with a star. Derivations of the parts make up a derivation of the
whole, so the new text is read, and it matches what the union, the product or the repetition of the
languages of the parts holds.
-/

open Computability

namespace FiniteState

/-! ## Languages -/

namespace Regex

theorem language_choice (rs : List Regex) : (choice rs).language = (languages rs).sum := by
  unfold choice
  split
  next r => rw [languages, languages, List.sum_singleton]
  next => rw [language]

theorem languages_append (rs ss : List Regex) :
    languages (rs ++ ss) = languages rs ++ languages ss := by
  induction rs with
  | nil => rfl
  | cons r rs ih => rw [List.cons_append, languages, languages, ih, List.cons_append]

end Regex

/-- A word of a product, as a string, falls apart into a word of each language. -/
theorem mem_mul_toList_iff {L M : Language Char} {w : String} : w.toList ∈ L * M ↔
    ∃ u v : String, w = u ++ v ∧ u.toList ∈ L ∧ v.toList ∈ M := by
  rw [Language.mem_mul]
  constructor
  · rintro ⟨u, hu, v, hv, hw⟩
    refine ⟨.ofList u, .ofList v, ?_, by rwa [String.toList_ofList], by rwa [String.toList_ofList]⟩
    rw [← String.toList_inj, String.toList_append, String.toList_ofList, String.toList_ofList, hw]
  · rintro ⟨u, v, rfl, hu, hv⟩
    exact ⟨u.toList, hu, v.toList, hv, String.toList_append.symm⟩

/-- A word of a repetition, as a string, falls apart into words of the language. -/
theorem mem_kstar_toList_iff {L : Language Char} {w : String} : w.toList ∈ L∗ ↔
    ∃ us : List String, w = String.join us ∧ ∀ u ∈ us, u.toList ∈ L := by
  rw [Language.mem_kstar]
  constructor
  · rintro ⟨us, hw, hus⟩
    refine ⟨us.map String.ofList, ?_, ?_⟩
    · rw [← String.toList_inj, hw]
      simp [String.toList_join, List.flatMap_def, Function.comp_def]
    · intro u hu
      obtain ⟨v, hv, rfl⟩ := List.mem_map.mp hu
      rw [String.toList_ofList]
      exact hus v hv
  · rintro ⟨us, rfl, hus⟩
    refine ⟨us.map String.toList, ?_, List.forall_mem_map.mpr hus⟩
    simp [String.toList_join, List.flatMap_def]

/-! ## Derivations -/

namespace Grammar

/-- One expression or another, with a bar between them. -/
def Expression.or : Expression → Expression → Expression
  | .single s, f => .bar s f
  | .bar s rest, f => .bar s (rest.or f)

/-- An expression in parentheses. -/
def Expression.grouped (e : Expression) : Item := .group e 0

/-- One expression after another, both in parentheses. -/
def Expression.andThen (e f : Expression) : Expression :=
  .single (.next e.grouped (.single f.grouped))

/-- An expression in parentheses with a star. -/
def Expression.repeated (e : Expression) : Expression := .single (.single e.grouped.starred)

namespace Expression

theorem tokens_or (e f : Expression) : (e.or f).tokens = e.tokens ++ .bar :: f.tokens := by
  match e with
  | .single s => rfl
  | .bar s rest => rw [Expression.or, tokens, tokens_or rest f, tokens, List.append_assoc,
      List.cons_append]

theorem alternatives_or (e f : Expression) :
    (e.or f).alternatives = e.alternatives ++ f.alternatives := by
  match e with
  | .single s => rfl
  | .bar s rest => rw [Expression.or, alternatives, alternatives_or rest f, alternatives,
      List.cons_append]

variable (e f : Expression)

theorem language_or : (e.or f).tree.language = e.tree.language + f.tree.language := by
  simp only [tree, Regex.language_choice, alternatives_or, Regex.languages_append, List.sum_append]

theorem language_andThen : (e.andThen f).tree.language = e.tree.language * f.tree.language := by
  change (Regex.language (.concat [e.tree, f.tree])) = _
  simp [Regex.language, Regex.languages]

theorem language_repeated : e.repeated.tree.language = e.tree.language∗ := by
  change (Regex.language (.star e.tree)) = _
  rw [Regex.language]

end Expression

end Grammar

/-! ## Texts -/

namespace Pattern

open Grammar Token

variable {s t : String} {p q : Pattern} {e f : Expression}

/-- A text that spells a derivation is a pattern that matches the language of the tree. -/
theorem exists_of_spells (h : Spells s.toList e.tokens) : ∃ p, ofString s = .ok p ∧
    ∀ w : String, p.accepts w = true ↔ w.toList ∈ e.tree.language := by
  have hread : Regex.ofString s = .ok e.tree := Expression.Derives.ofChars_eq (h 0)
  exact ⟨_, ofString_eq_ok_iff.mpr ⟨e.tree, hread, rfl⟩, fun w => Regex.accepts_toAutomaton_iff⟩

/-- A pattern other than the empty one spells a derivation, whose language it matches. -/
theorem exists_spells (hs : s ≠ "") (h : ofString s = .ok p) : ∃ e : Expression,
    Spells s.toList e.tokens ∧ ∀ w : String, p.accepts w = true ↔ w.toList ∈ e.tree.language := by
  obtain ⟨r, hr, rfl⟩ := ofString_eq_ok_iff.mp h
  rcases exists_derives hr with ⟨hempty, _⟩ | ⟨e, ⟨ts, hspelled, htokens⟩, rfl⟩
  · exact absurd (String.toList_eq_nil_iff.mp hempty) hs
  · exact ⟨e, htokens ▸ hspelled.spells, fun w => Regex.accepts_toAutomaton_iff⟩

theorem spells_grouped (h : Spells s.toList e.tokens) :
    Spells ("(" ++ s ++ ")").toList e.grouped.tokens := by
  rw [String.toList_append, String.toList_append]
  have hgroup := (Spelling.openGroup.spells.append h).append Spelling.closeGroup.spells
  simpa [Expression.grouped, Item.tokens] using hgroup

theorem spells_or (he : Spells s.toList e.tokens) (hf : Spells t.toList f.tokens) :
    Spells (s ++ "|" ++ t).toList (e.or f).tokens := by
  rw [String.toList_append, String.toList_append, List.append_assoc, Expression.tokens_or]
  exact he.append (Spelling.bar.spells.append hf)

theorem spells_andThen (he : Spells s.toList e.tokens) (hf : Spells t.toList f.tokens) :
    Spells ("(" ++ s ++ ")(" ++ t ++ ")").toList (e.andThen f).tokens := by
  have htext : "(" ++ s ++ ")(" ++ t ++ ")" = ("(" ++ s ++ ")") ++ ("(" ++ t ++ ")") := by
    rw [← String.toList_inj]
    simp
  rw [htext, String.toList_append]
  exact (spells_grouped he).append (spells_grouped hf)

theorem spells_repeated (he : Spells s.toList e.tokens) :
    Spells ("(" ++ s ++ ")*").toList e.repeated.tokens := by
  have htext : "(" ++ s ++ ")*" = ("(" ++ s ++ ")") ++ "*" := by
    rw [← String.toList_inj]
    simp
  rw [htext, String.toList_append]
  have hrepeated := (spells_grouped he).append Spelling.star.spells
  rwa [← Item.tokens_starred] at hrepeated

/-- Patterns can be put together as texts. With a bar between them they match what one of them
matches, one after the other in parentheses what falls apart into a word for each, and with a star
what falls apart into any number of words. -/
theorem accepts_composed (hs : s ≠ "") (ht : t ≠ "") (hp : ofString s = .ok p)
    (hq : ofString t = .ok q) :
    (∃ r, ofString (s ++ "|" ++ t) = .ok r ∧
      ∀ w, r.accepts w = true ↔ p.accepts w = true ∨ q.accepts w = true) ∧
    (∃ r, ofString ("(" ++ s ++ ")(" ++ t ++ ")") = .ok r ∧
      ∀ w, r.accepts w = true ↔ ∃ u v, w = u ++ v ∧ p.accepts u = true ∧ q.accepts v = true) ∧
    ∃ r, ofString ("(" ++ s ++ ")*") = .ok r ∧
      ∀ w, r.accepts w = true ↔
        ∃ us : List String, w = String.join us ∧ ∀ u ∈ us, p.accepts u = true := by
  obtain ⟨e, he, hpe⟩ := exists_spells hs hp
  obtain ⟨f, hf, hqf⟩ := exists_spells ht hq
  refine ⟨?_, ?_, ?_⟩
  · obtain ⟨r, hr, hwords⟩ := exists_of_spells (spells_or he hf)
    refine ⟨r, hr, ?_⟩
    intro w
    rw [hwords, Expression.language_or, Language.mem_add, hpe, hqf]
  · obtain ⟨r, hr, hwords⟩ := exists_of_spells (spells_andThen he hf)
    refine ⟨r, hr, ?_⟩
    intro w
    rw [hwords, Expression.language_andThen, mem_mul_toList_iff]
    simp only [hpe, hqf]
  · obtain ⟨r, hr, hwords⟩ := exists_of_spells (spells_repeated he)
    refine ⟨r, hr, ?_⟩
    intro w
    rw [hwords, Expression.language_repeated, mem_kstar_toList_iff]
    simp only [hpe]

/-- The bar and the star of one part, and the escaped parenthesis of the other, stay within it. -/
theorem accepts_composed_alternatives :
    (∃ r, ofString "a|b*|\\)" = .ok r ∧ r.accepts ")" = true) ∧
      (∃ r, ofString "(a|b*)(\\))" = .ok r ∧ r.accepts "bb)" = true) ∧
      ∃ r, ofString "(a|b*)*" = .ok r ∧ r.accepts "abba" = true := by
  obtain ⟨p, hp⟩ : ∃ p, ofString "a|b*" = .ok p := ⟨_, rfl⟩
  obtain ⟨q, hq⟩ : ∃ q, ofString "\\)" = .ok q := ⟨_, rfl⟩
  have hpa : p.accepts "a" = true ∧ p.accepts "bb" = true := by
    cases hp
    decide
  have hqa : q.accepts ")" = true := by
    cases hq
    decide
  obtain ⟨⟨r, hr, heither⟩, ⟨r', hr', hboth⟩, ⟨r'', hr'', hmany⟩⟩ :=
    accepts_composed (by decide) (by decide) hp hq
  refine ⟨⟨r, hr, (heither ")").mpr (.inr hqa)⟩,
    ⟨r', hr', (hboth "bb)").mpr ⟨"bb", ")", rfl, hpa.2, hqa⟩⟩, r'', hr'', ?_⟩
  refine (hmany "abba").mpr ⟨["a", "bb", "a"], rfl, ?_⟩
  simp [hpa]

end Pattern

end FiniteState
