import FiniteState.Proofs.Problem.Building
import FiniteState.Proofs.Problem.Reading

/-! # Descriptions of automata

A nondeterministic automaton can be described by lists: its states, its symbols, its accepting
states and its moves. Written down line by line with the right counts, and with a word after them,
they are read back as the automaton that they describe and the word, without any warning.
-/

namespace FiniteState.Problem

/-- A move between states that are given by their names. -/
structure Move where
  source : String
  label : Label
  target : String
deriving DecidableEq, Repr

/-- A nondeterministic automaton as lists, and a word to run it on. -/
structure Description where
  /-- The names of the states, the start first. -/
  names : List String
  symbols : List Char
  /-- The names of the accepting states. -/
  finals : List String
  moves : List Move
  word : String
deriving DecidableEq, Repr

/-! ## Writing -/

/-- A name that is found again in the lines it occurs in: it is not empty, and has no blank and no
comma. -/
structure IsName (name : String) : Prop where
  isWord : Text.IsWord name.toList
  no_comma : ',' ∉ name.toList

instance (name : String) : Decidable (IsName name) :=
  decidable_of_iff (Text.IsWord name.toList ∧ ',' ∉ name.toList)
    ⟨fun h => ⟨h.1, h.2⟩, fun h => ⟨h.isWord, h.no_comma⟩⟩

/-- The fields of the line of a move; a silent one has the epsilon mark. -/
def Move.fields (m : Move) : List String := [m.source, m.label.text, m.target]

def Move.text (m : Move) : String := ",".intercalate m.fields

namespace Description

def alphabet (d : Description) : Alphabet := .ofSymbols d.symbols

/-- The lines that describe the automaton. -/
def automatonLines (d : Description) : List String :=
  [toString d.names.length, " ".intercalate d.names,
    toString d.alphabet.size, " ".intercalate (d.symbols.map Char.toString),
    toString d.finals.length, " ".intercalate d.finals,
    toString d.moves.length] ++ d.moves.map Move.text

/-- The lines of a description, each with a line feed. -/
def text (d : Description) : String :=
  String.join ((d.automatonLines ++ [d.word]).map (· ++ "\n"))

/-- The edge of a move: states have the numbers of their names. -/
def edge (d : Description) (m : Move) : Edge :=
  ⟨d.names.idxOf m.source, m.label, d.names.idxOf m.target⟩

/-- The described automaton: its states are the named ones, numbered in order from zero, the first
is the start, and its edges are those of the moves. -/
def automaton (d : Description) : Automaton :=
  .listed d.alphabet d.names d.finals (.ofList (d.moves.map d.edge))

/-- What a description must be like to be read back: names and symbols can be told apart in the
lines, and the accepting states and the moves refer to what is declared. -/
structure Writable (d : Description) : Prop where
  names_nodup : d.names.Nodup
  isName : ∀ name ∈ d.names, IsName name
  isSolid_symbols : Text.IsSolid d.symbols
  mark_not_mem : Label.epsilonMark ∉ d.symbols
  comma_not_mem : ',' ∉ d.symbols
  finals_declared : ∀ name ∈ d.finals, name ∈ d.names
  source_declared : ∀ m ∈ d.moves, m.source ∈ d.names
  target_declared : ∀ m ∈ d.moves, m.target ∈ d.names
  label_allowed : ∀ m ∈ d.moves, d.alphabet.Allows m.label
  isLine_word : Text.IsLine d.word.toList

end Description

/-! ## Moves -/

def Transition.move (t : Transition) : Move := ⟨t.source, t.label, t.target⟩

/-- What a move must be like to be read back from its line. -/
structure Move.Writable (m : Move) : Prop where
  isName : ∀ field ∈ m.fields, IsName field
  ofToken_mark : Label.ofToken m.label.mark = m.label

variable {m : Move}

theorem Move.toList_text (m : Move) :
    m.text.toList = [','].intercalate (m.fields.map String.toList) := by
  rw [Move.text, String.toList_intercalate]
  rfl

theorem Move.Writable.isSolid_text (hm : m.Writable) : Text.IsSolid m.text.toList := by
  intro c hc
  rw [Move.toList_text] at hc
  rcases Text.eq_or_mem_of_mem_intercalate hc with rfl | ⟨field, hfield, hc⟩
  · decide
  · obtain ⟨name, hname, rfl⟩ := List.mem_map.mp hfield
    exact (hm.isName name hname).isWord.isSolid c hc

/-- The fields have no comma, so the line falls apart into them. -/
theorem Move.Writable.splitOn_text (hm : m.Writable) :
    m.text.toList.splitOn ',' = m.fields.map String.toList := by
  rw [Move.toList_text]
  apply List.splitOn_intercalate
  · exact List.forall_mem_map.mpr fun name hname => (hm.isName name hname).no_comma
  · exact List.cons_ne_nil _ _

theorem Move.Writable.transitionParts? (hm : m.Writable) :
    transitionParts? (Text.trim m.text.toList) = some (m.source, m.label, m.target) := by
  have hsource : m.source.toList ≠ [] := (hm.isName _ List.mem_cons_self).isWord.ne_nil
  have htarget : m.target.toList ≠ [] := (hm.isName _ (by simp [Move.fields])).isWord.ne_nil
  have htrim : (m.fields.map String.toList).map Text.trim = m.fields.map String.toList := by
    rw [List.map_map]
    apply List.map_congr_left
    intro name hname
    exact Text.trim_of_isSolid (hm.isName name hname).isWord.isSolid
  rw [Problem.transitionParts?, Text.trim_of_isSolid hm.isSolid_text, hm.splitOn_text, htrim]
  simp [Move.fields, Label.text, hsource, htarget, hm.ofToken_mark]

namespace Reader

theorem reads_transition {m : Move} (hm : m.Writable) :
    Reads transition [m.text] (·.move = m) := by
  apply (reads_nextLine .transition m.text).bind_eq
  dsimp only
  rw [hm.transitionParts?]
  exact reads_get.bind_nil fun c _ => reads_pure rfl

theorem reads_transitionLines {moves : List Move} (h : ∀ m ∈ moves, m.Writable) :
    Reads (transitionLines moves.length) (moves.map Move.text)
      (fun ts => ts.map Transition.move = moves) := by
  induction moves with
  | nil => exact reads_pure rfl
  | cons m moves ih =>
    obtain ⟨hm, hmoves⟩ := List.forall_mem_cons.mp h
    apply (reads_transition hm).bind
    intro t ht
    apply (ih hmoves).bind_nil
    intro ts hts
    exact reads_pure (by rw [List.map_cons, ht, hts])

theorem reads_transitions {moves : List Move} (h : ∀ m ∈ moves, m.Writable)
    (hlength : moves.length < Text.countBound) :
    Reads transitions (toString moves.length :: moves.map Move.text)
      (fun ts => ts.map Transition.move = moves) := by
  apply (reads_count .transitionCount hlength).bind_eq
  exact reads_transitionLines h

end Reader

/-! ## The automaton -/

namespace Description

variable {d : Description}

theorem Writable.fits (hd : d.Writable) {t : Transition} (ht : t.move ∈ d.moves) :
    t.Fits d.alphabet d.names :=
  ⟨hd.label_allowed _ ht, hd.source_declared _ ht, hd.target_declared _ ht⟩

theorem Writable.addTo_listed (hd : d.Writable) {t : Transition} (ht : t.move ∈ d.moves)
    (finals : List String) (edges : OrderedSet Edge) :
    t.addTo (.listed d.alphabet d.names finals edges) =
      .ok (.listed d.alphabet d.names finals (edges.insert (d.edge t.move))) :=
  (Transition.addTo_listed_eq_ok_iff hd.names_nodup).mpr ⟨hd.fits ht, rfl⟩

theorem Writable.reads_applyTransitions (hd : d.Writable) {ts : List Transition}
    (h : ∀ t ∈ ts, t.move ∈ d.moves) (finals : List String) (edges : OrderedSet Edge) :
    Reader.Reads
      (Reader.applyTransitions Transition.addTo (.listed d.alphabet d.names finals edges) ts) []
      (· = .listed d.alphabet d.names finals
        ((ts.map fun t => d.edge t.move).foldl (fun s e => s.insert e) edges)) := by
  induction ts generalizing edges with
  | nil => exact Reader.reads_pure rfl
  | cons t ts ih =>
    obtain ⟨ht, hts⟩ := List.forall_mem_cons.mp h
    rw [Reader.applyTransitions, List.foldlM_cons]
    apply (Reader.reads_atLine _ (hd.addTo_listed ht _ _)).bind_eq
    exact ih hts _

theorem toList_text (d : Description) : d.text.toList =
    ((d.automatonLines ++ [d.word]).map String.toList).flatMap (· ++ ['\n']) := by
  simp [text, List.flatMap_map]

theorem length_lt_length_text {line : String} (h : line ∈ d.automatonLines) :
    line.toList.length < d.text.length := by
  rw [← String.length_toList, toList_text]
  exact Text.length_lt_length_flatMap_feed
    (List.mem_map_of_mem (List.mem_append_left _ h))

/-- Words that are written in a line are not more than the characters of the text. -/
theorem length_names_lt {names : List String} (h : ∀ name ∈ names, Text.IsWord name.toList)
    (hline : " ".intercalate names ∈ d.automatonLines) : names.length < d.text.length := by
  refine Nat.lt_of_le_of_lt ?_ (length_lt_length_text hline)
  rw [String.toList_intercalate, ← List.length_map String.toList]
  exact Text.length_le_length_intercalate (List.forall_mem_map.mpr h)

theorem length_moves_le (d : Description) : d.moves.length ≤ d.text.length := by
  rw [← String.length_toList, toList_text]
  refine Nat.le_trans ?_ (length_le_length_flatMap fun l _ => by simp)
  simp [automatonLines]
  omega

theorem size_ofSymbols_le (symbols : List Char) :
    (Alphabet.ofSymbols symbols).size ≤ symbols.length :=
  (OrderedSet.nodup _).length_le_of_subset fun _ hc => OrderedSet.mem_ofList.mp hc

theorem Writable.isWord_name (hd : d.Writable) :
    ∀ name ∈ d.names, Text.IsWord name.toList := fun name h => (hd.isName name h).isWord

theorem Writable.isWord_final (hd : d.Writable) :
    ∀ name ∈ d.finals, Text.IsWord name.toList := fun name h =>
  hd.isWord_name name (hd.finals_declared name h)

theorem Writable.isWord_symbol (hd : d.Writable) :
    ∀ name ∈ d.symbols.map Char.toString, Text.IsWord name.toList :=
  List.forall_mem_map.mpr fun c hc => Reader.isWord_toString (hd.isSolid_symbols c hc)

theorem Writable.move (hd : d.Writable) {m : Move} (hm : m ∈ d.moves) : m.Writable := by
  have hallowed := hd.label_allowed m hm
  have hlabel : IsName m.label.text ∧ Label.ofToken m.label.mark = m.label := by
    cases hl : m.label with
    | symbol c =>
      rw [hl] at hallowed
      have hc : c ∈ d.symbols := Alphabet.mem_ofSymbols.mp hallowed
      have hcomma : ',' ≠ c := fun h => hd.comma_not_mem (h ▸ hc)
      have hmark : c ≠ Label.epsilonMark := fun h => hd.mark_not_mem (h ▸ hc)
      refine ⟨⟨hd.isWord_symbol _ (List.mem_map_of_mem hc), ?_⟩, if_neg hmark⟩
      simpa [Label.text, Label.mark] using hcomma
    | epsilon => exact ⟨by decide, rfl⟩
  refine ⟨?_, hlabel.2⟩
  simp only [Move.fields, List.forall_mem_cons]
  exact ⟨hd.isName _ (hd.source_declared m hm), hlabel.1, hd.isName _ (hd.target_declared m hm),
    List.forall_mem_nil _⟩

/-- The lines of an automaton are read as the automaton that they describe. -/
theorem Writable.reads_nondeterministic (hd : d.Writable)
    (hsize : d.text.length < Text.countBound) :
    Reader.Reads Reader.nondeterministic d.automatonLines (· = d.automaton) := by
  have hnames : d.names.length < Text.countBound :=
    (length_names_lt hd.isWord_name (by simp [automatonLines])).trans hsize
  have hfinals : d.finals.length < Text.countBound :=
    (length_names_lt hd.isWord_final (by simp [automatonLines])).trans hsize
  have hsymbols : d.alphabet.size < Text.countBound := by
    have hmarks : (d.symbols.map Char.toString).length < d.text.length :=
      length_names_lt hd.isWord_symbol (by simp [automatonLines])
    rw [List.length_map] at hmarks
    exact (Nat.lt_of_le_of_lt (size_ofSymbols_le d.symbols) hmarks).trans hsize
  have hmoves : d.moves.length < Text.countBound :=
    Nat.lt_of_le_of_lt d.length_moves_le hsize
  have hdeclared : declareStates (.new d.alphabet) d.names =
      .ok (.listed d.alphabet d.names [] ∅) :=
    declareStates_new_eq_ok_iff.mpr ⟨hd.names_nodup, rfl⟩
  have hmarked : acceptDeclared (.listed d.alphabet d.names [] ∅) d.finals =
      .ok (.listed d.alphabet d.names d.finals ∅) :=
    (acceptDeclared_listed_eq_ok_iff hd.names_nodup).mpr ⟨hd.finals_declared, rfl⟩
  apply (Reader.reads_count .stateCount hnames).bind_eq
  apply (Reader.reads_words .states .states hd.isWord_name).bind_eq
  apply (Reader.reads_alphabet hd.isSolid_symbols hd.mark_not_mem hsymbols).bind_eq
  apply (Reader.reads_here hdeclared).bind_eq
  apply (Reader.reads_count .finalStateCount hfinals).bind_eq
  apply (Reader.reads_words .finalStates .finalStates hd.isWord_final).bind_eq
  apply (Reader.reads_here hmarked).bind_eq
  apply (Reader.reads_transitions (fun m => hd.move) hmoves).bind_nil
  intro ts hts
  have hdeclared : ∀ t ∈ ts, t.move ∈ d.moves := fun t ht => hts ▸ List.mem_map_of_mem ht
  have hedges : d.automaton = .listed d.alphabet d.names d.finals
      ((ts.map fun t => d.edge t.move).foldl (fun s e => s.insert e) ∅) := by
    rw [automaton, ← hts, List.map_map]
    rfl
  rw [hedges]
  exact hd.reads_applyTransitions hdeclared d.finals ∅

theorem isLine_intercalate {names : List String}
    (h : ∀ name ∈ names, Text.IsWord name.toList) : Text.IsLine (" ".intercalate names).toList := by
  rw [String.toList_intercalate]
  exact Text.isLine_intercalate (List.forall_mem_map.mpr h)

/-- Everything that a description is written in is a line. -/
theorem Writable.isLine (hd : d.Writable) {line : String}
    (h : line ∈ d.automatonLines ++ [d.word]) : Text.IsLine line.toList := by
  have hcount (n : Nat) : Text.IsLine (toString n).toList :=
    Text.isLine_of_isSolid (Text.isSolid_toString n)
  simp only [automatonLines, List.mem_append, List.mem_cons, List.not_mem_nil, or_false,
    List.mem_map, or_assoc] at h
  rcases h with rfl | rfl | rfl | rfl | rfl | rfl | rfl | ⟨m, hm, rfl⟩ | rfl
  · exact hcount _
  · exact isLine_intercalate hd.isWord_name
  · exact hcount _
  · exact isLine_intercalate hd.isWord_symbol
  · exact hcount _
  · exact isLine_intercalate hd.isWord_final
  · exact hcount _
  · exact Text.isLine_of_isSolid (hd.move hm).isSolid_text
  · exact hd.isLine_word

theorem Writable.lines_text (hd : d.Writable) : Text.lines d.text.toList =
    (d.automatonLines ++ [d.word]).map String.toList := by
  rw [toList_text]
  apply Text.lines_flatMap_feed
  intro l hl
  obtain ⟨line, hline, rfl⟩ := List.mem_map.mp hl
  exact hd.isLine hline

/-- Reading undoes writing. The text of a description is read as the automaton that it describes
and its word, without a warning. Its length is below the bound of counts, as that of every text in
a memory with 64 bit addresses is, so that all counts fit. -/
theorem read_text (hd : d.Writable) (hsize : d.text.length < Text.countBound) :
    Acceptance.read d.text = ⟨.ok ⟨d.automaton, d.word⟩, []⟩ ∧
      Determinization.read d.text = ⟨.ok ⟨d.automaton⟩, []⟩ := by
  have hautomaton := hd.reads_nondeterministic hsize
  have hlines := hd.lines_text
  refine ⟨?_, ?_⟩
  · have hreads : Reader.Reads Acceptance.reader (d.automatonLines ++ [d.word])
        (· = ⟨d.automaton, d.word⟩) := by
      apply hautomaton.bind_eq
      apply (Reader.reads_inputWord d.word).bind_nil
      intro word hword
      exact Reader.reads_pure (by rw [hword])
    exact hreads.report_eq (by rw [hlines, List.append_nil])
  · have hreads : Reader.Reads Determinization.reader d.automatonLines (· = ⟨d.automaton⟩) := by
      apply hautomaton.bind_nil
      intro nfa hnfa
      exact Reader.reads_pure (by rw [hnfa])
    exact hreads.report_eq (by rw [hlines, List.map_append])

/-- Two states, an edge back without a symbol, and symbols that are not in order. -/
def loop : Description where
  names := ["p", "q"]
  symbols := ['b', 'a']
  finals := ["q"]
  moves := [⟨"p", .symbol 'a', "q"⟩, ⟨"q", .epsilon, "p"⟩, ⟨"p", .symbol 'b', "p"⟩]
  word := "b a"

theorem read_text_loop :
    loop.text = "2\np q\n2\nb a\n1\nq\n3\np,a,q\nq,$,p\np,b,p\nb a\n" ∧
      Acceptance.read loop.text = ⟨.ok ⟨loop.automaton, "b a"⟩, []⟩ ∧
      Determinization.read loop.text = ⟨.ok ⟨loop.automaton⟩, []⟩ := by
  have htext : loop.text = "2\np q\n2\nb a\n1\nq\n3\np,a,q\nq,$,p\np,b,p\nb a\n" := by decide
  have hloop : loop.Writable := by constructor <;> decide
  have hsize : loop.text.length < Text.countBound := by
    rw [htext]
    decide
  exact ⟨htext, read_text hloop hsize⟩

end Description

end FiniteState.Problem
