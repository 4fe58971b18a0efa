import FiniteState.Proofs.Partition.QuotientLanguage
import FiniteState.Proofs.Partition.Subclass

/-! # Quotients built by edits

A quotient can be built step by step: first a state for every class, then the moves of every class,
and at last the start. Each step can fail, since an edit may be refused and a class may have no
number or no first member. None does, whatever the partition is, and the automaton that is built is
the quotient.
-/

namespace FiniteState.Partition

section Steps

variable (a : Automaton) (p : Partition)

/-- Adds the state of a class, under the joint name of its members with as many marks as make it
unused. The ids of the states are listed in the order of the classes. -/
def addClass (built : Automaton × List StateId) (b : Block) :
    Option (Automaton × List StateId) := do
  let name := Naming.unused built.1.names (Naming.joint (a.namesOf b.toList))
  let quotient ← (built.1.addState name (b.toList.any a.isAccepting)).toOption
  return (quotient, built.2 ++ [built.1.nextId])

/-- Adds the move of a state on a symbol, if the member that stands for its class has one. -/
def addMove (ids : List StateId) (member source : StateId) (built : Automaton) (c : Char) :
    Option Automaton :=
  match a.successor? member c >>= p.lastClass? with
  | none => some built
  | some i => do
    let target ← ids[i]?
    (built.replaceEdges source c target).toOption

/-- Adds the moves of a class, which are those of its first member. -/
def addMoves (ids : List StateId) (built : Automaton) (numbered : Block × StateId) :
    Option Automaton := do
  let member ← numbered.1.toList[0]?
  a.alphabet.toList.foldlM (p.addMove a ids member numbered.2) built

/-- Moves the start to the class of the start. -/
def addStart (ids : List StateId) (built : Automaton) : Option Automaton :=
  match a.start >>= p.lastClass? with
  | none => some built
  | some i => do
    let start ← ids[i]?
    (built.startAt start).toOption

/-- The quotient built step by step. -/
def assemble : Option Automaton := do
  let (built, ids) ← p.blocks.foldlM (addClass a) (.new a.alphabet, [])
  let built ← (p.blocks.zip ids).foldlM (p.addMoves a ids) built
  p.addStart a ids built

/-- A quotient of which only the states and some edges have been built. -/
def unfinished (edges : List Edge) : Automaton where
  alphabet := a.alphabet
  states := p.quotientStates a
  edges := .ofList edges
  start := if p.blocks = [] then none else some 0
  nextId := p.size

end Steps

variable {a : Automaton} {p : Partition} {edges : List Edge} {b : Block} {c : Char}
  {i j : Nat}

/-! ## States -/

theorem names_unfinished (a : Automaton) (p : Partition) (edges : List Edge) :
    (p.unfinished a edges).names =
      Naming.distinct (p.blocks.map fun b => Naming.joint (a.namesOf b.toList)) := by
  change (p.quotientStates a).map (·.name) = _
  rw [quotientStates_eq, names_numberedStates (by simp)]

theorem mem_unfinished_iff : i ∈ p.unfinished a edges ↔ i < p.size :=
  mem_quotient_iff (a := a)

/-- The state of one more class is the next one. -/
theorem addClass_unfinished (a : Automaton) (blocks : List Block) (b : Block) :
    addClass a (unfinished a ⟨blocks⟩ [], List.range blocks.length) b =
      some (unfinished a ⟨blocks ++ [b]⟩ [], List.range (blocks ++ [b]).length) := by
  have hunused := Naming.unused_not_mem (unfinished a ⟨blocks⟩ []).names
    (Naming.joint (a.namesOf b.toList))
  have hstates : (⟨blocks ++ [b]⟩ : Partition).quotientStates a =
      (⟨blocks⟩ : Partition).quotientStates a ++
        [⟨blocks.length, Naming.unused (unfinished a ⟨blocks⟩ []).names
          (Naming.joint (a.namesOf b.toList)), b.toList.any a.isAccepting⟩] := by
    rw [quotientStates_eq, quotientStates_eq, List.map_append, List.map_singleton,
      Naming.distinct_concat, numberedStates_concat (by simp), names_unfinished]
  have hstart : (if blocks = [] then none else some 0).or (some blocks.length) = some 0 := by
    cases blocks <;> rfl
  rw [addClass, Automaton.addState, if_neg hunused, List.length_append, List.length_singleton,
    List.range_succ]
  simp [Automaton.insertState, unfinished, hstates, hstart, Except.toOption, size]

theorem foldlM_addClass (a : Automaton) (p : Partition) :
    p.blocks.foldlM (addClass a) (.new a.alphabet, []) =
      some (p.unfinished a [], List.range p.size) := by
  have hfold := foldlM_eq_some (f := addClass a)
    (fun blocks => (unfinished a ⟨blocks⟩ [], List.range blocks.length))
    (fun blocks b => blocks ++ [b]) (P := fun _ => True) p.blocks (c := [])
    (fun blocks _ b _ => ⟨addClass_unfinished a blocks b, trivial⟩) trivial
  rw [List.foldl_append_eq_append, ← List.flatMap_def, List.flatMap_singleton',
    List.nil_append] at hfold
  exact hfold.1

/-! ## Moves -/

theorem quotientEdge?_eq (a : Automaton) (p : Partition) (i : Nat) (b : Block) (c : Char) :
    p.quotientEdge? a i b c =
      (a.successor? b.representative c >>= p.lastClass?).map fun j => ⟨i, .symbol c, j⟩ := by
  simp [quotientEdge?, Option.map_eq_bind, Option.bind_assoc]

/-- Where the edges are among those of the quotient, replacing by one of these is adding it. -/
theorem relink_unfinished {e : Edge} (he : e ∈ (p.quotient a).edges)
    (hedges : ∀ f ∈ edges, f ∈ (p.quotient a).edges) :
    (p.unfinished a edges).relink e = p.unfinished a (edges ++ [e]) :=
  Automaton.relink_withEdges (a := p.unfinished a []) fun f hf =>
    (deterministic_quotient a p).eq_of_source_label (hedges f hf) he

/-- A move adds the edge that the quotient has. -/
theorem addMove_unfinished (hb : p.blocks[i]? = some b) (hc : c ∈ a.alphabet)
    (hedges : ∀ e ∈ edges, e ∈ (p.quotient a).edges) :
    p.addMove a (List.range p.size) b.representative i (p.unfinished a edges) c =
        some (p.unfinished a (edges ++ (p.quotientEdge? a i b c).toList)) ∧
      ∀ e ∈ edges ++ (p.quotientEdge? a i b c).toList, e ∈ (p.quotient a).edges := by
  rw [addMove, quotientEdge?_eq]
  cases htarget : a.successor? b.representative c >>= p.lastClass? with
  | none => simpa using hedges
  | some j =>
    have he : ⟨i, .symbol c, j⟩ ∈ (p.quotient a).edges :=
      mem_edges_quotient_iff.mpr ⟨b, c, rfl, hb, hc, htarget⟩
    have hfits := (wellFormed_quotient a p).edges_fit _ he
    have hj : j < p.size := mem_quotient_iff.mp hfits.target_mem
    have hreplace : (p.unfinished a edges).replaceEdges i c j =
        .ok (p.unfinished a (edges ++ [⟨i, .symbol c, j⟩])) :=
      Automaton.replaceEdges_eq_ok_iff.mpr ⟨⟨hfits.allowed, hfits.source_mem, hfits.target_mem⟩,
        relink_unfinished he hedges⟩
    constructor
    · simp [hj, hreplace, Except.toOption]
    · simpa [or_imp, forall_and] using ⟨hedges, he⟩

theorem addMoves_unfinished (hb : p.blocks[i]? = some b)
    (hedges : ∀ e ∈ edges, e ∈ (p.quotient a).edges) :
    p.addMoves a (List.range p.size) (p.unfinished a edges) (b, i) =
        some (p.unfinished a (edges ++ a.alphabet.toList.filterMap (p.quotientEdge? a i b))) ∧
      ∀ e ∈ edges ++ a.alphabet.toList.filterMap (p.quotientEdge? a i b),
        e ∈ (p.quotient a).edges := by
  have hfold := foldlM_eq_some (p.unfinished a)
    (fun edges c => edges ++ (p.quotientEdge? a i b c).toList) a.alphabet.toList
    (fun _ hedges _ hc => addMove_unfinished hb (Alphabet.mem_toList.mp hc) hedges) hedges
  rw [List.foldl_append_eq_append, ← List.flatMap_def,
    ← List.filterMap_eq_flatMap_toList] at hfold
  exact hfold

theorem foldlM_addMoves (a : Automaton) (p : Partition) :
    (p.blocks.zip (List.range p.size)).foldlM (p.addMoves a (List.range p.size))
      (p.unfinished a []) = some (p.unfinished a (p.quotientEdges a)) := by
  have hzip : p.blocks.zip (List.range p.size) = p.blocks.zipIdx := by
    rw [List.zipIdx_eq_zip_range', List.range_eq_range']
    rfl
  have hfold := foldlM_eq_some (f := p.addMoves a (List.range p.size)) (p.unfinished a)
    (fun edges (b, i) => edges ++ a.alphabet.toList.filterMap (p.quotientEdge? a i b))
    (P := fun edges => ∀ e ∈ edges, e ∈ (p.quotient a).edges) p.blocks.zipIdx (c := [])
    (fun _ hedges _ hx => addMoves_unfinished (List.mk_mem_zipIdx_iff_getElem?.mp hx) hedges)
    nofun
  rw [List.foldl_append_eq_append, ← List.flatMap_def, List.nil_append] at hfold
  rw [hzip]
  exact hfold.1

/-! ## The start -/

theorem addStart_unfinished (a : Automaton) (p : Partition) :
    p.addStart a (List.range p.size) (p.unfinished a (p.quotientEdges a)) =
      some (p.quotient a) := by
  rw [addStart]
  cases hstart : a.start >>= p.lastClass? with
  | none =>
    have hquotient : p.quotientStart a = if p.blocks = [] then none else some 0 := by
      rw [quotientStart, hstart]
      simp only [isEmpty, List.isEmpty_iff, Option.getD_none]
    rw [quotient, hquotient]
    rfl
  | some i =>
    obtain ⟨q, _, hi⟩ := Option.bind_eq_some_iff.mp hstart
    have hlt := lt_size_of_lastClass? hi
    have hquotient : p.quotientStart a = some i := by
      rw [quotientStart, if_neg (not_isEmpty_of_lt hlt), hstart, Option.getD_some]
    have hok : (p.unfinished a (p.quotientEdges a)).startAt i = .ok (p.quotient a) := by
      refine Automaton.startAt_eq_ok_iff.mpr ⟨mem_unfinished_iff.mpr hlt, ?_⟩
      rw [quotient, hquotient]
      rfl
    simp [hlt, hok, Except.toOption]

/-- No step fails, and what is built is the quotient. -/
theorem assemble_eq (a : Automaton) (p : Partition) : p.assemble a = some (p.quotient a) := by
  simp only [assemble, foldlM_addClass, foldlM_addMoves, addStart_unfinished, Option.bind_eq_bind,
    Option.bind_some]

/-! ## What is built -/

theorem name?_quotient_of_block (hb : p.blocks[i]? = some b) :
    (p.quotient a).name? i = some (Naming.unused ((p.quotient a).names.take i)
      (Naming.joint (a.namesOf b.toList))) := by
  have hnames : (p.quotient a).names = _ := names_unfinished a p []
  rw [hnames]
  refine (wellFormed_quotient a p).name?_numbered (states_quotient a p) hb ?_
  exact Naming.getElem?_distinct (by rw [List.getElem?_map, hb, Option.map_some])

theorem start_quotient_eq_some_iff : (p.quotient a).start = some i ↔
    (∃ q, a.start = some q ∧ p.IsLastClass q i) ∨
      (i = 0 ∧ 0 < p.size ∧ ∀ q, a.start = some q → q ∉ p.entries) := by
  have hsome : (∃ q, a.start = some q ∧ p.IsLastClass q i) ↔
      (a.start >>= p.lastClass?) = some i := by
    simp only [Option.bind_eq_bind, Option.bind_eq_some_iff, lastClass?_eq_some_iff_isLastClass]
  have hnone : (∀ q, a.start = some q → q ∉ p.entries) ↔ (a.start >>= p.lastClass?) = none := by
    simp only [Option.bind_eq_bind, Option.bind_eq_none_iff, lastClass?_eq_none_iff]
  rw [hsome, hnone]
  change p.quotientStart a = some i ↔ _
  unfold quotientStart
  cases hclass : a.start >>= p.lastClass? with
  | none =>
    by_cases hempty : p.isEmpty = true
    · have hsize : p.size = 0 := List.length_eq_zero_iff.mpr (List.isEmpty_iff.mp hempty)
      simp [hempty, hsize]
    · have hsize : 0 < p.size := List.length_pos_iff.mpr (mt List.isEmpty_iff.mpr hempty)
      simp [hempty, hsize, eq_comm]
  | some j =>
    obtain ⟨q, _, hj⟩ := Option.bind_eq_some_iff.mp hclass
    simp [not_isEmpty_of_lt (lt_size_of_lastClass? hj)]

/-- A quotient can be built for every automaton and every partition: no edit is refused and no
number is out of range. It has the states 0, 1 and so on for the classes in order, whose names are
the joint names of the members with the fewest marks that tell them from those before. It is
deterministic and well-formed, and begins with the last class that holds the start, or else with the
first class. -/
theorem quotient_assembled (a : Automaton) (p : Partition) :
    p.assemble a = some (p.quotient a) ∧ (p.quotient a).alphabet = a.alphabet ∧
      (p.quotient a).ids = List.range p.size ∧ (p.quotient a).names.Nodup ∧
      (∀ i b, p.blocks[i]? = some b → ∃ marks,
        let wanted := Naming.joint (a.namesOf b.toList)
        (p.quotient a).name? i = some (Naming.marked wanted marks) ∧
          Naming.marked wanted marks ∉ (p.quotient a).names.take i ∧
          ∀ m < marks, Naming.marked wanted m ∈ (p.quotient a).names.take i) ∧
      (p.quotient a).isDeterministic = true ∧ (p.quotient a).WellFormed ∧
      (∀ e ∈ (p.quotient a).edges, e.source ∈ p.quotient a ∧ e.target ∈ p.quotient a ∧
        ∃ c ∈ a.alphabet, e.label = .symbol c) ∧
      ∀ i, (p.quotient a).start = some i ↔
        (∃ q, a.start = some q ∧ p.IsLastClass q i) ∨
          (i = 0 ∧ 0 < p.size ∧ ∀ q, a.start = some q → q ∉ p.entries) := by
  have hq : (p.quotient a).WellFormed := wellFormed_quotient a p
  refine ⟨assemble_eq a p, rfl, ids_quotient a p, hq.names_nodup, ?_,
    hq.isDeterministic_iff.mpr (deterministic_quotient a p), hq, ?_,
    fun i => start_quotient_eq_some_iff⟩
  · intro i b hb
    exact ⟨_, name?_quotient_of_block hb, Naming.unused_not_mem _ _,
      fun m hm => Naming.marked_mem_of_lt hm⟩
  · intro e he
    obtain ⟨b, c, hlabel, _, hc, _⟩ := mem_edges_quotient_iff.mp he
    have hfits := hq.edges_fit e he
    exact ⟨hfits.source_mem, hfits.target_mem, c, hc, hlabel⟩

/-- Two states whose joint name is the name of a third one. -/
def hyphened : Automaton := .ofEdits (.ofSymbols ['x'])
  [.addState "a" false, .addState "b" false, .addState "a-b" true, .addEdge 0 (.symbol 'x') 2,
    .addEdge 1 (.symbol 'x') 2, .addEdge 2 (.symbol 'x') 2]

/-- Classes with a repeated state, a state of another class and unknown states. -/
def handmade : Partition := ⟨[⟨9, []⟩, ⟨0, [1]⟩, ⟨2, [2]⟩, ⟨8, []⟩, ⟨2, [0]⟩]⟩

theorem quotient_assembled_hyphened :
    handmade.assemble hyphened = some (handmade.quotient hyphened) ∧
      (handmade.quotient hyphened).names = ["", "a-b", "a-b'", "'", "a-a-b"] ∧
      (∃ marks, (handmade.quotient hyphened).name? 3 = some (Naming.marked "" marks) ∧
        ∀ m < marks, Naming.marked "" m ∈ ["", "a-b", "a-b'"]) ∧
      (handmade.quotient hyphened).start = some 4 := by
  obtain ⟨hassemble, _, _, _, hmarks, _, _, _, hstart⟩ := quotient_assembled hyphened handmade
  have hnames : (handmade.quotient hyphened).names = ["", "a-b", "a-b'", "'", "a-a-b"] := by decide
  have hlast : handmade.IsLastClass 0 4 := lastClass?_eq_some_iff_isLastClass.mp (by decide)
  obtain ⟨marks, hname, _, hfewer⟩ := hmarks 3 ⟨8, []⟩ rfl
  rw [hnames] at hfewer
  exact ⟨hassemble, hnames, ⟨marks, hname, hfewer⟩, (hstart 4).mpr (.inl ⟨0, rfl, hlast⟩)⟩

end FiniteState.Partition
