import FiniteState.Text

/-! # Texts that are laid out in lines and words

Lines that are written one after the other, each with a line feed, are taken apart again, and so
are words with blanks between them.
-/

namespace FiniteState.Text

/-! ## Lines -/

/-- What can be written as a line: it has no line feed and does not end in a carriage return, which
would count as part of the line's end. -/
def IsLine (cs : List Char) : Prop := '\n' ∉ cs ∧ cs.getLast? ≠ some '\r'

instance (cs : List Char) : Decidable (IsLine cs) := inferInstanceAs (Decidable (_ ∧ _))

theorem lines_cons {c : Char} {cs : List Char} (hfeed : c ≠ '\n')
    (hreturn : c = '\r' → cs.head? ≠ some '\n') :
    lines (c :: cs) =
      match lines cs with
      | [] => [[c]]
      | l :: ls => (c :: l) :: ls := by
  apply lines.eq_4
  · exact hfeed
  · intro rest hc hcs
    exact hreturn hc (by rw [hcs, List.head?_cons])

theorem lines_append_feed {line : List Char} (h : IsLine line) (rest : List Char) :
    lines (line ++ '\n' :: rest) = line :: lines rest := by
  induction line with
  | nil => rfl
  | cons c cs ih =>
    obtain ⟨hfeed, hlast⟩ := h
    rw [List.mem_cons, not_or] at hfeed
    obtain ⟨hc, hcs⟩ := hfeed
    cases cs with
    | nil =>
      rw [List.cons_append, List.nil_append, lines_cons (Ne.symm hc)]
      · rfl
      · rintro rfl
        exact absurd rfl hlast
    | cons d ds =>
      rw [List.getLast?_cons_cons] at hlast
      rw [List.cons_append, lines_cons (Ne.symm hc), ih ⟨hcs, hlast⟩]
      intro _ hhead
      cases hhead
      exact hcs List.mem_cons_self

/-- The lines of a text are those that it was written in. -/
theorem lines_flatMap_feed {ls : List (List Char)} (h : ∀ l ∈ ls, IsLine l) :
    lines (ls.flatMap (· ++ ['\n'])) = ls := by
  induction ls with
  | nil => rfl
  | cons l ls ih =>
    obtain ⟨hl, hls⟩ := List.forall_mem_cons.mp h
    rw [List.flatMap_cons, List.append_assoc, List.singleton_append, lines_append_feed hl, ih hls]

theorem feed_not_mem_of_mem_lines {cs l : List Char} (h : l ∈ lines cs) : '\n' ∉ l := by
  induction cs using lines.induct generalizing l with
  | case1 => cases h
  | case2 rest ih =>
    rcases List.mem_cons.mp h with rfl | h
    · exact List.not_mem_nil
    · exact ih h
  | case3 rest ih =>
    rcases List.mem_cons.mp h with rfl | h
    · exact List.not_mem_nil
    · exact ih h
  | case4 c rest hfeed hreturn hnil _ =>
    rw [lines.eq_4 c rest hfeed hreturn, hnil] at h
    rw [List.mem_singleton.mp h, List.mem_singleton]
    exact fun hc => hfeed hc.symm
  | case5 c rest hfeed hreturn first others hrest ih =>
    rw [lines.eq_4 c rest hfeed hreturn, hrest] at h
    rw [hrest] at ih
    rcases List.mem_cons.mp h with rfl | h
    · rw [List.mem_cons, not_or]
      exact ⟨fun hc => hfeed hc.symm, ih List.mem_cons_self⟩
    · exact ih (List.mem_cons_of_mem first h)

theorem length_lt_length_flatMap_feed {ls : List (List Char)} {l : List Char} (h : l ∈ ls) :
    l.length < (ls.flatMap (· ++ ['\n'])).length := by
  have hsublist : (l ++ ['\n']).Sublist (ls.flatMap (· ++ ['\n'])) := by
    rw [List.flatMap_def]
    exact List.sublist_flatten_of_mem (List.mem_map_of_mem h)
  have hlength := hsublist.length_le
  rwa [List.length_append, List.length_singleton] at hlength

/-! ## Pieces -/

theorem subset_of_mem_splitOnP {p : Char → Bool} {cs piece : List Char}
    (h : piece ∈ cs.splitOnP p) : piece ⊆ cs := by
  induction cs generalizing piece with
  | nil =>
    rw [List.splitOnP_nil, List.mem_singleton] at h
    exact h ▸ List.Subset.refl []
  | cons c cs ih =>
    rw [List.splitOnP_cons_eq_if_modifyHead] at h
    split at h
    next =>
      rcases List.mem_cons.mp h with rfl | h
      · exact List.nil_subset _
      · exact List.subset_cons_of_subset c (ih h)
    next =>
      -- The first piece goes on with the character, the others are as before.
      cases hpieces : cs.splitOnP p with
      | nil => exact absurd hpieces (List.splitOnP_ne_nil p cs)
      | cons first others =>
        rw [hpieces] at h ih
        rcases List.mem_cons.mp h with rfl | h
        · exact List.cons_subset_cons c (ih List.mem_cons_self)
        · exact List.subset_cons_of_subset c (ih (List.mem_cons_of_mem first h))

theorem subset_of_mem_words {cs w : List Char} (h : w ∈ words cs) : w ⊆ cs :=
  subset_of_mem_splitOnP (List.mem_filter.mp h).1

theorem trim_subset (cs : List Char) : trim cs ⊆ cs := by
  intro c hc
  rw [trim, List.mem_reverse] at hc
  exact List.dropWhile_subset _ (List.mem_reverse.mp (List.dropWhile_subset _ hc))

/-! ## Solid words -/

/-- No character of a text is blank. -/
def IsSolid (cs : List Char) : Prop := ∀ c ∈ cs, isBlank c = false

instance (cs : List Char) : Decidable (IsSolid cs) := List.decidableBAll (isBlank · = false) cs

theorem trim_of_isSolid {cs : List Char} (h : IsSolid cs) : trim cs = cs := by
  have hdrop {ds : List Char} (hds : IsSolid ds) : ds.dropWhile isBlank = ds := by
    cases ds with
    | nil => rfl
    | cons d ds => exact List.dropWhile_cons_of_neg (by simp [hds d List.mem_cons_self])
  have hreverse : IsSolid cs.reverse := fun c hc => h c (List.mem_reverse.mp hc)
  rw [trim, hdrop h, hdrop hreverse, List.reverse_reverse]

/-- No digit lies in a range of blanks. -/
theorem isBlank_of_isDigit {c : Char} (h : c.isDigit = true) : isBlank c = false := by
  obtain ⟨hlower, hupper⟩ : 48 ≤ c.toNat ∧ c.toNat ≤ 57 := Char.isDigit_iff_toNat.mp h
  have hranges : ∀ range ∈ blankRanges, range.2 < 48 ∨ 57 < range.1 := by decide
  rw [isBlank, List.any_eq_false]
  intro range hrange
  have hoff := hranges range hrange
  simp only [Bool.and_eq_true, decide_eq_true_eq, not_and, Nat.not_le]
  omega

/-- A number is written without blanks. -/
theorem isSolid_toString (n : Nat) : IsSolid (toString n).toList := by
  intro c hc
  rw [Nat.toString_eq_repr, Nat.toList_repr] at hc
  exact isBlank_of_isDigit (Nat.isDigit_of_mem_toDigits (by decide) (by decide) hc)

/-! ## Lines of words -/

/-- What is found again as a word: it is not empty and has no blank. -/
structure IsWord (w : List Char) : Prop where
  ne_nil : w ≠ []
  isSolid : IsSolid w

instance (w : List Char) : Decidable (IsWord w) :=
  decidable_of_iff (w ≠ [] ∧ IsSolid w) ⟨fun h => ⟨h.1, h.2⟩, fun h => ⟨h.ne_nil, h.isSolid⟩⟩

theorem words_of_isWord {w : List Char} (h : IsWord w) : words w = [w] := by
  rw [words, List.splitOnP_eq_singleton h.isSolid]
  simpa using h.ne_nil

theorem words_append_space {w : List Char} (h : IsWord w) (rest : List Char) :
    words (w ++ ' ' :: rest) = w :: words rest := by
  rw [words, List.splitOnP_append_cons_of_forall_mem h.isSolid ' ' (by decide)]
  exact List.filter_cons_of_pos (by simpa using h.ne_nil)

/-- Words with spaces between them are the words of the line. -/
theorem words_intercalate {ws : List (List Char)} (h : ∀ w ∈ ws, IsWord w) :
    words ([' '].intercalate ws) = ws := by
  induction ws with
  | nil => rfl
  | cons w ws ih =>
    obtain ⟨hw, hws⟩ := List.forall_mem_cons.mp h
    cases ws with
    | nil =>
      rw [List.intercalate_singleton]
      exact words_of_isWord hw
    | cons v ws =>
      rw [List.intercalate_cons_cons, List.append_assoc, List.singleton_append,
        words_append_space hw, ih hws]

theorem eq_or_mem_of_mem_intercalate {separator c : Char} {ws : List (List Char)}
    (h : c ∈ [separator].intercalate ws) : c = separator ∨ ∃ w ∈ ws, c ∈ w := by
  induction ws with
  | nil => cases h
  | cons w ws ih =>
    cases ws with
    | nil =>
      rw [List.intercalate_singleton] at h
      exact .inr ⟨w, List.mem_cons_self, h⟩
    | cons v ws =>
      rw [List.intercalate_cons_cons, List.append_assoc, List.mem_append, List.mem_append,
        List.mem_singleton] at h
      rcases h with h | h | h
      · exact .inr ⟨w, List.mem_cons_self, h⟩
      · exact .inl h
      · obtain hseparator | ⟨u, hu, hc⟩ := ih h
        · exact .inl hseparator
        · exact .inr ⟨u, List.mem_cons_of_mem w hu, hc⟩

theorem isLine_of_forall {cs : List Char} (h : ∀ c ∈ cs, c = ' ' ∨ isBlank c = false) :
    IsLine cs := by
  refine ⟨?_, ?_⟩
  · intro hfeed
    exact absurd (h _ hfeed) (by decide)
  · intro hreturn
    exact absurd (h _ (List.mem_of_getLast? hreturn)) (by decide)

theorem isLine_of_isSolid {cs : List Char} (h : IsSolid cs) : IsLine cs :=
  isLine_of_forall fun c hc => .inr (h c hc)

theorem isLine_intercalate {ws : List (List Char)} (h : ∀ w ∈ ws, IsWord w) :
    IsLine ([' '].intercalate ws) := by
  apply isLine_of_forall
  intro c hc
  rcases eq_or_mem_of_mem_intercalate hc with hspace | ⟨w, hw, hcw⟩
  · exact .inl hspace
  · exact .inr ((h w hw).isSolid c hcw)

/-- A line of words has at least a character for each. -/
theorem length_le_length_intercalate {ws : List (List Char)} (h : ∀ w ∈ ws, IsWord w) :
    ws.length ≤ ([' '].intercalate ws).length := by
  induction ws with
  | nil => exact Nat.zero_le _
  | cons w ws ih =>
    obtain ⟨hw, hws⟩ := List.forall_mem_cons.mp h
    have hpos : 0 < w.length := List.length_pos_iff.mpr hw.ne_nil
    cases ws with
    | nil =>
      rw [List.intercalate_singleton]
      exact hpos
    | cons v ws =>
      have hrest := ih hws
      rw [List.intercalate_cons_cons, List.length_append, List.length_append]
      simp only [List.length_cons] at hrest ⊢
      omega

end FiniteState.Text
