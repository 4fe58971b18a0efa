import FiniteState.Problem.Basic
import FiniteState.Proofs.Stateful
import FiniteState.Proofs.Text.Layout

/-! # Readers on lines that are written for them

What a reader comes to from a cursor, step by step. From lines that hold what it expects, with true
counts, a reader takes just these, whatever follows, and warns of nothing.
-/

namespace FiniteState.Problem.Reader

variable {α β : Type} {c : Cursor} {n : Nat} {good : α → Prop} {good' : β → Prop} {m : Reader α}
  {f : α → Reader β} {written written' : List String}

@[simp] theorem runFrom_fail (cause : Cause) :
    runFrom (fail cause : Reader α) c = (.error ⟨c.line, cause⟩, c) := by
  simp [fail]

@[simp] theorem runFrom_atLine (x : Except AutomatonError α) : runFrom (atLine n x) c =
    (x.mapError fun e => ⟨n, .automaton e⟩, c) := by
  cases x <;> rfl

@[simp] theorem runFrom_here (x : Except AutomatonError α) : runFrom (here x) c =
    (x.mapError fun e => ⟨c.line, .automaton e⟩, c) := by
  rw [here, runFrom_bind, runFrom_get]
  exact runFrom_atLine x

@[simp] theorem runFrom_nextLine? : runFrom nextLine? c =
    (.ok c.rest.head?, { c with rest := c.rest.tail, line := c.line + 1 }) := by
  simp [nextLine?, Except.map]

theorem runFrom_nextLine (role : LineRole) : runFrom (nextLine role) c =
    (match c.rest.head? with
      | some line => .ok line
      | none => .error ⟨c.line + 1, .missingLine role⟩,
      { c with rest := c.rest.tail, line := c.line + 1 }) := by
  rw [nextLine, runFrom_bind, runFrom_nextLine?]
  cases c.rest.head? <;> simp

/-! ## What is written is read -/

/-- From lines with these at their head, whatever follows, a reader takes just these, with a good
result and without a warning. -/
def Reads (m : Reader α) (written : List String) (good : α → Prop) : Prop :=
  ∀ c rest, c.rest = written.map String.toList ++ rest →
    Ensures m c (fun x d => d.rest = rest ∧ d.warnings = c.warnings ∧ good x) fun _ => False

theorem reads_pure {x : α} (h : good x) : Reads (pure x) [] good := by
  intro c rest hc
  exact ensures_pure ⟨hc, rfl, h⟩

theorem Reads.bind (hm : Reads m written good) (hf : ∀ x, good x → Reads (f x) written' good') :
    Reads (m >>= f) (written ++ written') good' := by
  intro c rest hc
  rw [List.map_append, List.append_assoc] at hc
  apply Ensures.bind (hm c _ hc)
  intro x d hd
  obtain ⟨hrest, hwarnings, hx⟩ := hd
  rw [← hwarnings]
  exact hf x hx d rest hrest

/-- A reader with a known result hands it on. -/
theorem Reads.bind_eq {x : α} (hm : Reads m written (· = x)) (hf : Reads (f x) written' good') :
    Reads (m >>= f) (written ++ written') good' :=
  hm.bind fun _ hy => hy ▸ hf

/-- The second reader may take nothing. -/
theorem Reads.bind_nil (hm : Reads m written good) (hf : ∀ x, good x → Reads (f x) [] good') :
    Reads (m >>= f) written good' := by
  rw [← List.append_nil written]
  exact hm.bind hf

/-- From a text that begins with what it reads, a reader reports what it has read. -/
theorem Reads.report_eq {x : α} (hm : Reads m written (· = x)) {text : String}
    {rest : List (List Char)} (htext : Text.lines text.toList = written.map String.toList ++ rest) :
    m.report text = ⟨.ok x, []⟩ := by
  have hread := hm (Cursor.ofText text) rest htext
  have hreport : m.report text = ⟨(runFrom m (.ofText text)).1,
      (runFrom m (.ofText text)).2.warnings⟩ := rfl
  unfold Ensures at hread
  split at hread
  next y c hrun =>
    obtain ⟨_, hwarnings, rfl⟩ := hread
    rw [hreport, hrun, hwarnings]
    rfl
  next => exact hread.elim

theorem reads_nextLine (role : LineRole) (line : String) :
    Reads (nextLine role) [line] (· = line.toList) := by
  intro c rest hc
  unfold Ensures
  rw [runFrom_nextLine, hc]
  exact ⟨rfl, rfl, rfl⟩

theorem reads_inputWord (word : String) : Reads inputWord [word] (· = word) := by
  intro c rest hc
  unfold Ensures inputWord
  rw [runFrom_bind, runFrom_nextLine?, hc]
  exact ⟨rfl, rfl, String.ofList_toList⟩

theorem reads_get : Reads get [] (fun _ => True) := by
  intro c rest hc
  exact ensures_get ⟨hc, rfl, trivial⟩

theorem reads_here {x : Except AutomatonError α} {y : α} (h : x = .ok y) :
    Reads (here x) [] (· = y) := by
  intro c rest hc
  unfold Ensures
  rw [runFrom_here, h]
  exact ⟨hc, rfl, rfl⟩

theorem reads_atLine {x : Except AutomatonError α} {y : α} (line : Nat) (h : x = .ok y) :
    Reads (atLine line x) [] (· = y) := by
  intro c rest hc
  unfold Ensures
  rw [runFrom_atLine, h]
  exact ⟨hc, rfl, rfl⟩

/-- A true count is not warned of. -/
theorem reads_compareCounts (counted : Counted) (n : Nat) :
    Reads (compareCounts counted n n) [] (fun _ => True) := by
  rw [compareCounts, if_pos rfl]
  exact reads_pure trivial

theorem reads_count (role : LineRole) {n : Nat} (hn : n < Text.countBound) :
    Reads (count role) [toString n] (· = n) := by
  apply (reads_nextLine role (toString n)).bind_eq
  have hcount : Text.count? (Text.trim (toString n).toList) = some n := by
    rw [Text.trim_of_isSolid (Text.isSolid_toString n), Nat.toString_eq_repr, Nat.toList_repr,
      Text.count?_toDigits hn]
  dsimp only
  rw [hcount]
  exact reads_pure rfl

/-- The line of words that strings are written as. -/
theorem words_toList_intercalate {names : List String}
    (h : ∀ name ∈ names, Text.IsWord name.toList) :
    Text.words (" ".intercalate names).toList = names.map String.toList := by
  rw [String.toList_intercalate]
  exact Text.words_intercalate (List.forall_mem_map.mpr h)

theorem reads_words (role : LineRole) (counted : Counted) {names : List String}
    (h : ∀ name ∈ names, Text.IsWord name.toList) :
    Reads (words role counted names.length) [" ".intercalate names] (· = names) := by
  apply (reads_nextLine role _).bind_eq
  have hfound : (Text.words (" ".intercalate names).toList).map String.ofList = names := by
    rw [words_toList_intercalate h, List.map_map]
    exact (List.map_congr_left fun name _ => String.ofList_toList).trans (List.map_id names)
  dsimp only
  rw [hfound]
  exact (reads_compareCounts counted names.length).bind_nil fun _ _ => reads_pure rfl

theorem isWord_toString {c : Char} (h : Text.isBlank c = false) :
    Text.IsWord c.toString.toList := by
  refine ⟨by simp, ?_⟩
  simpa [Text.IsSolid] using h

theorem reads_alphabet {symbols : List Char} (hsolid : Text.IsSolid symbols)
    (hmark : Label.epsilonMark ∉ symbols)
    (hsize : (Alphabet.ofSymbols symbols).size < Text.countBound) :
    Reads alphabet
      [toString (Alphabet.ofSymbols symbols).size, " ".intercalate (symbols.map Char.toString)]
      (· = .ofSymbols symbols) := by
  have hwords : Text.words (" ".intercalate (symbols.map Char.toString)).toList =
      symbols.map fun c => [c] := by
    rw [words_toList_intercalate]
    · simp
    · exact List.forall_mem_map.mpr fun c hc => isWord_toString (hsolid c hc)
  have hkept : symbols.filter (fun c => c ≠ Label.epsilonMark) = symbols := by
    apply List.filter_eq_self.mpr
    intro c hc
    exact decide_eq_true fun hcmark => hmark (hcmark ▸ hc)
  apply (reads_count .alphabetSize hsize).bind_eq
  apply (reads_nextLine .alphabet _).bind_eq
  dsimp only
  rw [hwords, ← List.flatMap_def, List.flatMap_singleton', Alphabet.ofMarks, hkept]
  exact (reads_compareCounts .symbols _).bind_nil fun _ _ => reads_pure rfl

end FiniteState.Problem.Reader
