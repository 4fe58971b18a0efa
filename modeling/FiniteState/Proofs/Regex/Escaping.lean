import FiniteState.Proofs.Regex.Canonical

/-! # Patterns of words

Every word has a pattern that matches just this word: the patterns of its characters one after the
other, in which operators and backslashes are escaped. It is what is written for the tree that has
the characters in sequence.
-/

namespace FiniteState

namespace Regex

/-- The tree of the characters of a word, one after the other. -/
def ofWord : List Char → Regex
  | [] => .empty
  | word => sequence (word.map .literal)

theorem operands_literals (word : List Char) :
    operands 2 (word.map .literal) = word.map escaped := by
  rw [operands_eq_map, List.map_map]
  rfl

theorem toChars_ofWord (word : List Char) : (ofWord word).toChars = word.flatMap escaped := by
  match word with
  | [] => rfl
  | [c] => exact (List.append_nil (escaped c)).symm
  | c :: d :: rest =>
    change (operands 2 ((c :: d :: rest).map .literal)).flatten = _
    rw [operands_literals, List.flatMap_def]

theorem canonical_ofWord (word : List Char) : (ofWord word).Canonical := by
  have hsolid : ∀ r ∈ word.map literal, Solid r := List.forall_mem_map.mpr fun c _ => .literal c
  match word with
  | [] => exact .inl rfl
  | [c] => exact .inr (.literal c)
  | c :: d :: rest => exact .inr (.concat (Nat.le_add_left 2 _) hsolid)

theorem languages_literals (word : List Char) :
    (languages (word.map .literal)).prod = {word} := by
  induction word with
  | nil => rfl
  | cons c rest ih =>
    rw [List.map_cons, languages, language, List.prod_cons, ih]
    exact Set.image2_singleton

theorem language_ofWord (word : List Char) : (ofWord word).language = {word} := by
  match word with
  | [] => rfl
  | [c] => rfl
  | c :: d :: rest => exact languages_literals (c :: d :: rest)

end Regex

namespace Pattern

theorem join_literals (word : String) :
    String.join (word.toList.map fun c => (Regex.literal c).text) =
      (Regex.ofWord word.toList).text := by
  rw [← String.toList_inj, String.toList_join, Regex.text, String.toList_ofList,
    Regex.toChars_ofWord, List.flatMap_map]
  exact List.flatMap_congr fun c _ => String.toList_ofList

/-- The patterns of the characters of a word, one after the other, are a pattern that matches this
word and no other. -/
theorem accepts_escaped (word : String) :
    ∃ p, ofString (String.join (word.toList.map fun c => (Regex.literal c).text)) = .ok p ∧
      ∀ v : String, p.accepts v = true ↔ v = word := by
  have hread := (Regex.canonical_ofWord word.toList).ofString_text
  rw [join_literals]
  refine ⟨_, ofString_eq_ok_iff.mpr ⟨_, hread, rfl⟩, ?_⟩
  intro v
  rw [accepts, Regex.accepts_toAutomaton_iff, Regex.language_ofWord, ← String.toList_inj]
  exact Iff.rfl

end Pattern

end FiniteState
