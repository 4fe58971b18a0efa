import FiniteState.Proofs.Automaton.Change
import FiniteState.Proofs.Regex.Trim

/-! # Automata of trees built by edits

The automaton of a tree can be built step by step: each step adds a state or an edge, and the parts
of a tree add theirs one after the other to the same automaton. A step can fail, since an edge may
be refused and a sequence may have no first part. For a tree that the reader gives none does, and
the automaton that is built is the automaton of the tree. The order in which edges are added does
not matter; the order of the states gives them their ids and their names.
-/

namespace FiniteState

/-- Steps that change an automaton and fail if an edit is refused. -/
abbrev Build := StateT Automaton Option

/-- Where runs through a part that has been built begin and end. -/
structure Ends where
  entry : StateId
  exit : StateId

namespace Build

/-- Adds a state, whose name is generated. -/
def addState : Build StateId := fun a => some (a.nextId, a.addNumbered false)

def connect (source : StateId) (label : Label) (target : StateId) : Build Unit :=
  fun a => (a.addEdge source label target).toOption.map fun b => ((), b)

/-- Joins parts from left to right. The answer is the exit of the last one. -/
def joinFrom (exit : StateId) : List Ends → Build StateId
  | [] => pure exit
  | part :: rest => do
    connect exit .epsilon part.entry
    joinFrom part.exit rest

def join : List Ends → Build Ends
  | [] => failure
  | first :: rest => do
    let exit ← joinFrom first.exit rest
    return ⟨first.entry, exit⟩

mutual

/-- Builds a tree. The two states of a choice come before those of its alternatives, the two
states of a repetition after those of what is repeated. -/
def tree : Regex → Build Ends
  | .empty => do
    let state ← addState
    return ⟨state, state⟩
  | .literal c => do
    let entry ← addState
    let exit ← addState
    connect entry (.symbol c) exit
    return ⟨entry, exit⟩
  | .concat rs => do
    let parts ← trees rs
    join parts
  | .alternation rs => do
    let entry ← addState
    let exit ← addState
    branches entry exit rs
    return ⟨entry, exit⟩
  | .star r => do
    let inner ← tree r
    let entry ← addState
    let exit ← addState
    connect entry .epsilon inner.entry
    connect inner.exit .epsilon inner.entry
    connect inner.exit .epsilon exit
    connect entry .epsilon exit
    return ⟨entry, exit⟩

def trees : List Regex → Build (List Ends)
  | [] => pure []
  | r :: rs => do
    let part ← tree r
    let rest ← trees rs
    return part :: rest

/-- Builds the alternatives of a choice, each between the two states of the choice. -/
def branches (entry exit : StateId) : List Regex → Build Unit
  | [] => pure ()
  | r :: rs => do
    let part ← tree r
    connect entry .epsilon part.entry
    connect part.exit .epsilon exit
    branches entry exit rs

end

end Build

/-- The automaton of a tree, built step by step. -/
def Regex.assemble (r : Regex) : Option Automaton := do
  let (ends, built) ← (Build.tree r).run (.new r.alphabet)
  let built ← (built.startAt ends.entry).toOption
  (built.setAccepting ends.exit true).toOption

def Fragment.ends (f : Fragment) : Ends := ⟨f.entry, f.exit⟩

namespace Automaton

/-! ## Automata under construction -/

variable {alphabet : Alphabet} {n q s t : StateId} {label : Label} {edges added : List Edge}

/-- An automaton to which so many states and these edges have been added. -/
def underway (alphabet : Alphabet) (n : StateId) (edges : List Edge) : Automaton where
  alphabet
  states := (List.range n).map fun q => ⟨q, toString (q + 1), false⟩
  edges := .ofList edges
  start := if n = 0 then none else some 0
  nextId := n

theorem underway_congr (h : ∀ e, e ∈ edges ↔ e ∈ added) :
    underway alphabet n edges = underway alphabet n added := by
  have hedges : OrderedSet.ofList edges = .ofList added :=
    OrderedSet.ext fun e => by simpa using h e
  rw [underway, hedges, underway]

theorem mem_underway_iff : q ∈ underway alphabet n edges ↔ q < n :=
  mem_iff_lt_of_ids (by simp [ids, underway, Function.comp_def])

/-- The number of the next state is not a name yet, so it needs no marks. -/
theorem numberedName_underway :
    (underway alphabet n edges).numberedName = toString (n + 1) := by
  refine Naming.unused_eq_self fun hmem => ?_
  simp only [names, underway, List.map_map, List.mem_map, List.mem_range, Function.comp_apply]
    at hmem
  obtain ⟨q, hq, hname⟩ := hmem
  exact hq.ne (Nat.succ.inj (Nat.repr_injective hname))

theorem addNumbered_underway (alphabet : Alphabet) (n : StateId) (edges : List Edge) :
    (underway alphabet n edges).addNumbered false = underway alphabet (n + 1) edges := by
  have hstart : (if n = 0 then none else some 0).or (some n) = some 0 := by
    split
    next hn => rw [hn, Option.none_or]
    next => rfl
  rw [addNumbered, numberedName_underway]
  simp [insertState, underway, List.range_succ, hstart]

theorem addEdge_underway (hlabel : alphabet.Allows label) (hs : s < n) (ht : t < n) :
    (underway alphabet n edges).addEdge s label t =
      .ok (underway alphabet n (edges ++ [⟨s, label, t⟩])) := by
  refine addEdge_eq_ok_iff.mpr ⟨⟨hlabel, mem_underway_iff.mpr hs, mem_underway_iff.mpr ht⟩, ?_⟩
  have hinsert : (OrderedSet.ofList edges).insert ⟨s, label, t⟩ =
      .ofList (edges ++ [⟨s, label, t⟩]) := by
    refine OrderedSet.ext fun e => ?_
    simp [or_comm]
  exact congrArg (fun edges => { underway alphabet n [] with edges }) hinsert

theorem startAt_underway (hq : q < n) : (underway alphabet n edges).startAt q =
    .ok { underway alphabet n edges with start := some q } :=
  startAt_eq_ok_iff.mpr ⟨mem_underway_iff.mpr hq, rfl⟩

theorem setAccepting_underway {start : Option StateId} (hq : q < n) :
    { underway alphabet n edges with start }.setAccepting q true =
      .ok { underway alphabet n edges with
        states := (List.range n).map fun p => ⟨p, toString (p + 1), p = q⟩, start } := by
  have hmem : q ∈ underway alphabet n edges := mem_underway_iff.mpr hq
  have hstate (p : StateId) : (if p = q then ⟨p, toString (p + 1), true⟩
      else ⟨p, toString (p + 1), false⟩ : State) = ⟨p, toString (p + 1), p = q⟩ := by
    split
    next h => rw [decide_eq_true h]
    next h => rw [decide_eq_false h]
  refine setAccepting_eq_ok_iff.mpr ⟨hmem, ?_⟩
  simp only [markAccepting, underway, List.map_map, Function.comp_def, hstate]

end Automaton

/-! ## What steps build -/

/-- To an automaton under construction with the states up to `n`, the step adds the states up to
`m` and the listed edges, and it answers with a value. -/
def Builds (alphabet : Alphabet) (n : StateId) {α : Type} (x : Build α) (v : α) (m : StateId)
    (added : List Edge) : Prop :=
  ∀ edges, x.run (.underway alphabet n edges) = some (v, .underway alphabet m (edges ++ added))

namespace Builds

variable {alphabet : Alphabet} {n m k s t : StateId} {label : Label} {α β : Type} {x : Build α}
  {f : α → Build β} {v : α} {w : β} {first second : List Edge}

theorem pure (alphabet : Alphabet) (n : StateId) (v : α) :
    Builds alphabet n (pure v : Build α) v n [] := by
  intro edges
  rw [List.append_nil]
  rfl

theorem bind (hx : Builds alphabet n x v m first) (hf : Builds alphabet m (f v) w k second) :
    Builds alphabet n (x >>= f) w k (first ++ second) := by
  intro edges
  rw [StateT.run_bind, hx edges, ← List.append_assoc]
  exact hf (edges ++ first)

/-- A last step that only changes the answer. -/
theorem answer (hx : Builds alphabet n x v m first) (hf : f v = Pure.pure w) :
    Builds alphabet n (x >>= f) w m first := by
  have hpure := Builds.pure alphabet m w
  rw [← hf] at hpure
  simpa using hx.bind hpure

theorem congr (hx : Builds alphabet n x v m first) (h : ∀ e, e ∈ first ↔ e ∈ second) :
    Builds alphabet n x v m second := by
  intro edges
  rw [hx edges]
  have hedges : ∀ e, e ∈ edges ++ first ↔ e ∈ edges ++ second := by
    intro e
    rw [List.mem_append, List.mem_append, h e]
  rw [Automaton.underway_congr hedges]

theorem addState (alphabet : Alphabet) (n : StateId) :
    Builds alphabet n Build.addState n (n + 1) [] := by
  intro edges
  rw [List.append_nil, ← Automaton.addNumbered_underway]
  rfl

theorem connect (hlabel : alphabet.Allows label) (hs : s < n) (ht : t < n) :
    Builds alphabet n (Build.connect s label t) () n [⟨s, label, t⟩] := by
  intro edges
  change ((Automaton.underway alphabet n edges).addEdge s label t).toOption.map _ = _
  rw [Automaton.addEdge_underway hlabel hs ht]
  rfl

/-- A silent edge needs only its two states. -/
theorem silent (hs : s < n) (ht : t < n) :
    Builds alphabet n (Build.connect s .epsilon t) () n [Fragment.silent s t] :=
  connect trivial hs ht

end Builds

/-! ## Parts -/

namespace Fragment

variable {alphabet : Alphabet} {n m : StateId} {f : Fragment} {fs : List Fragment} {c : Char}

/-- The silent edges between parts one after the other. -/
def joints (exit : StateId) : List Fragment → List Edge
  | [] => []
  | f :: fs => silent exit f.entry :: joints f.exit fs

theorem mem_foldl_append_edges {e : Edge} : e ∈ (fs.foldl append f).edges ↔
    e ∈ f.edges ++ fs.flatMap (·.edges) ++ joints f.exit fs := by
  induction fs generalizing f with
  | nil => simp [joints]
  | cons g fs ih =>
    rw [List.foldl_cons, ih]
    simp only [List.mem_append, mem_append_edges, List.flatMap_cons, joints, List.mem_cons]
    -- The exit of two parts is that of the second one.
    change _ ∨ e ∈ joints g.exit fs ↔ _
    tauto

theorem entry_foldl_append : (fs.foldl append f).entry = f.entry := by
  induction fs generalizing f with
  | nil => rfl
  | cons g fs ih => exact ih

theorem builds_joinFrom (hf : f.exit < m) (hfs : ∀ g ∈ fs, g.entry < m ∧ g.exit < m) :
    Builds alphabet m (Build.joinFrom f.exit (fs.map ends)) (fs.foldl append f).exit m
      (joints f.exit fs) := by
  induction fs generalizing f with
  | nil => exact .pure alphabet m f.exit
  | cons g fs ih =>
    obtain ⟨⟨hentry, hexit⟩, hrest⟩ := List.forall_mem_cons.mp hfs
    have hnext : Builds alphabet m (Build.joinFrom g.exit (fs.map ends))
        (fs.foldl append (f.append g)).exit m (joints g.exit fs) := ih (f := f.append g) hexit hrest
    exact (Builds.silent hf hentry).bind hnext

theorem RealizeInTurn.ends_lt {Ls : List (Language Char)} (hfs : RealizeInTurn alphabet n fs Ls) :
    ∀ f ∈ fs, f.entry < lastNext n fs ∧ f.exit < lastNext n fs := by
  induction hfs with
  | nil => exact fun f hf => absurd hf List.not_mem_nil
  | @cons n f L fs Ls hf hfs ih =>
    rw [lastNext_cons]
    refine List.forall_mem_cons.mpr ⟨⟨?_, ?_⟩, ih⟩
    · exact hf.entry_mem.2.trans_le hfs.le_lastNext
    · exact hf.exit_mem.2.trans_le hfs.le_lastNext

/-- Joining the parts adds what the chain of the parts has besides their own edges. -/
theorem builds_join {Ls : List (Language Char)} (hfs : RealizeInTurn alphabet n fs Ls)
    (hne : fs ≠ []) : ∃ added,
      Builds alphabet (lastNext n fs) (Build.join (fs.map ends)) (chain n fs).ends (lastNext n fs)
        added ∧ ∀ e, e ∈ (chain n fs).edges ↔ e ∈ fs.flatMap (·.edges) ++ added := by
  cases fs with
  | nil => exact absurd rfl hne
  | cons f fs =>
    obtain ⟨⟨_, hexit⟩, hrest⟩ := List.forall_mem_cons.mp hfs.ends_lt
    refine ⟨joints f.exit fs, ?_, fun e => mem_foldl_append_edges⟩
    have hends : (⟨f.entry, (fs.foldl append f).exit⟩ : Ends) = (chain n (f :: fs)).ends := by
      rw [chain, ends, entry_foldl_append]
    exact (builds_joinFrom hexit hrest).answer (congrArg _ hends)

/-! ## Trees -/

/-- The steps of a tree build its fragment, whatever the first id is. -/
def Buildable (alphabet : Alphabet) (r : Regex) : Prop :=
  ∀ n, Builds alphabet n (Build.tree r) (ofRegex n r).ends (ofRegex n r).next (ofRegex n r).edges

variable {r : Regex} {rs : List Regex}

theorem buildable_empty (alphabet : Alphabet) : Buildable alphabet .empty := by
  intro n
  rw [Build.tree]
  exact (Builds.addState alphabet n).answer rfl

theorem buildable_literal (hc : c ∈ alphabet) : Buildable alphabet (.literal c) := by
  intro n
  have hallows : alphabet.Allows (.symbol c) := hc
  have hentry : n < n + 2 := Nat.lt_add_of_pos_right Nat.two_pos
  rw [Build.tree]
  refine (Builds.addState alphabet n).bind ((Builds.addState alphabet (n + 1)).bind ?_)
  exact (Builds.connect hallows hentry (Nat.lt_succ_self (n + 1))).answer rfl

theorem builds_trees (h : ∀ r ∈ rs, Buildable alphabet r) (n : StateId) :
    Builds alphabet n (Build.trees rs) ((ofList n rs).map ends) (lastNext n (ofList n rs))
      ((ofList n rs).flatMap (·.edges)) := by
  induction rs generalizing n with
  | nil =>
    rw [Build.trees]
    exact .pure alphabet n []
  | cons r rs ih =>
    obtain ⟨hr, hrs⟩ := List.forall_mem_cons.mp h
    rw [Build.trees, ofList, List.map_cons, lastNext_cons, List.flatMap_cons]
    exact (hr n).bind ((ih hrs _).answer rfl)

theorem buildable_concat (h : ∀ r ∈ rs, Buildable alphabet r)
    (hliterals : ∀ c ∈ Regex.literalsOf rs, c ∈ alphabet) (hne : rs ≠ []) :
    Buildable alphabet (.concat rs) := by
  intro n
  have hfs : ofList n rs ≠ [] := mt ofList_eq_nil_iff.mp hne
  obtain ⟨added, hjoin, hadded⟩ := builds_join (realizeInTurn_ofList n rs hliterals) hfs
  rw [Build.tree, ofRegex, next_chain hfs]
  -- The steps join the parts after all of them, the chain joins each part to those before it.
  exact ((builds_trees h n).bind hjoin).congr fun e => (hadded e).symm

/-- The alternatives follow the two states of the choice. -/
theorem builds_branches (h : ∀ r ∈ rs, Buildable alphabet r)
    (hliterals : ∀ c ∈ Regex.literalsOf rs, c ∈ alphabet) (hm : n + 2 ≤ m) :
    Builds alphabet m (Build.branches n (n + 1) rs) () (lastNext m (ofList m rs))
      (branchEdges n (ofList m rs)) := by
  induction rs generalizing m with
  | nil =>
    rw [Build.branches]
    exact .pure alphabet m ()
  | cons r rs ih =>
    obtain ⟨hr, hrs⟩ := List.forall_mem_cons.mp h
    rw [Regex.literalsOf, List.forall_mem_append] at hliterals
    have hf := realizes_ofRegex m r hliterals.1
    have hnext : n + 1 < (ofRegex m r).next := (Nat.lt_of_succ_le hm).trans_le hf.le_next
    have hrest := ih hrs hliterals.2 (hm.trans hf.le_next)
    rw [Build.branches, ofList, lastNext_cons]
    refine Builds.congr ((hr m).bind ((Builds.silent (Nat.lt_of_succ_lt hnext) hf.entry_mem.2).bind
      ((Builds.silent hf.exit_mem.2 hnext).bind hrest))) fun e => ?_
    simp only [mem_branchEdges_cons, List.mem_append, List.mem_singleton, or_assoc]

theorem buildable_alternation (h : ∀ r ∈ rs, Buildable alphabet r)
    (hliterals : ∀ c ∈ Regex.literalsOf rs, c ∈ alphabet) :
    Buildable alphabet (.alternation rs) := by
  intro n
  rw [Build.tree, ofRegex]
  refine (Builds.addState alphabet n).bind ((Builds.addState alphabet (n + 1)).bind ?_)
  exact (builds_branches h hliterals (Nat.le_refl _)).answer rfl

theorem buildable_star (h : Buildable alphabet r) (hliterals : ∀ c ∈ r.literals, c ∈ alphabet) :
    Buildable alphabet (.star r) := by
  intro n
  have hf := realizes_ofRegex n r hliterals
  have hlt {q : StateId} (hq : q < (ofRegex n r).next) : q < (ofRegex n r).next + 2 :=
    Nat.lt_add_right 2 hq
  have hentry : (ofRegex n r).next < (ofRegex n r).next + 2 := Nat.lt_add_of_pos_right Nat.two_pos
  have hexit : (ofRegex n r).next + 1 < (ofRegex n r).next + 2 := Nat.lt_succ_self _
  rw [Build.tree, ofRegex]
  refine (h n).bind ((Builds.addState alphabet _).bind ((Builds.addState alphabet _).bind ?_))
  refine (Builds.silent hentry (hlt hf.entry_mem.2)).bind ?_
  refine (Builds.silent (hlt hf.exit_mem.2) (hlt hf.entry_mem.2)).bind ?_
  refine (Builds.silent (hlt hf.exit_mem.2) hexit).bind ?_
  exact (Builds.silent hentry hexit).answer rfl

/-- Every tree whose sequences have a first part can be built. -/
theorem buildable_of_proper (hr : r.Proper) (h : ∀ c ∈ r.literals, c ∈ alphabet) :
    Buildable alphabet r := by
  induction hr with
  | empty => exact buildable_empty alphabet
  | literal c => exact buildable_literal (h c (List.mem_singleton_self c))
  | concat hne _ ih =>
    have hparts := forall_literals_of_literalsOf h
    exact buildable_concat (fun r hr => ih r hr (hparts r hr)) h hne
  | alternation _ ih =>
    have hparts := forall_literals_of_literalsOf h
    exact buildable_alternation (fun r hr => ih r hr (hparts r hr)) h
  | star _ ih => exact buildable_star (ih h) h

end Fragment

namespace Regex

variable {r : Regex}

/-- No step fails, and what is built is the automaton of the tree. -/
theorem assemble_eq (hr : r.Proper) : r.assemble = some r.toAutomaton := by
  have hf := realizes r
  have hliterals : ∀ c ∈ r.literals, c ∈ r.alphabet := fun _ hc => Alphabet.mem_ofSymbols.mpr hc
  have hbuild := Fragment.buildable_of_proper hr hliterals 0 []
  have hnew : Automaton.new r.alphabet = .underway r.alphabet 0 [] := rfl
  rw [assemble, hnew, hbuild, List.nil_append]
  simp only [Option.bind_eq_bind, Option.bind_some, Fragment.ends,
    Automaton.startAt_underway hf.entry_mem.2, Automaton.setAccepting_underway hf.exit_mem.2,
    Except.toOption]
  rfl

/-- For every tree that the reader gives the automaton can be built, and it has no useless states.
Apart from the empty tree, which takes one state, each literal, choice and repetition takes two.
States have their ids and names in the order in which they are added. No edge enters the start, none
leaves the only accepting state, and every state lies on a path between these two. Every symbol of
the alphabet labels an edge. -/
theorem toAutomaton_assembled {pattern : String} (h : ofString pattern = .ok r) :
    r.assemble = some r.toAutomaton ∧
      r.toAutomaton.size = (if r = .empty then 1 else 2 * r.gadgets) ∧
      r.toAutomaton.ids = List.range r.toAutomaton.size ∧
      r.toAutomaton.names = (List.range r.toAutomaton.size).map (fun q => toString (q + 1)) ∧
      (∃ start final, r.toAutomaton.start = some start ∧ r.toAutomaton.acceptingIds = [final] ∧
        (∀ e ∈ r.toAutomaton.edges, e.target ≠ start ∧ e.source ≠ final) ∧
        ∀ q ∈ r.toAutomaton, (∃ w, Path r.toAutomaton.edgeSet start w q) ∧
          ∃ w, Path r.toAutomaton.edgeSet q w final) ∧
      ∀ c ∈ r.toAutomaton.alphabet, ∃ e ∈ r.toAutomaton.edges, e.label = .symbol c := by
  have hcanonical := canonical_of_ofString h
  have htrim := trimBetween_toAutomaton hcanonical
  refine ⟨assemble_eq (proper_of_ofString h), size_toAutomaton hcanonical, ?_, ?_,
    ⟨_, _, rfl, acceptingIds_toAutomaton r, ?_, ?_⟩, ?_⟩
  · simp [Automaton.ids, Automaton.size, toAutomaton, Function.comp_def]
  · simp [Automaton.names, Automaton.size, toAutomaton, Function.comp_def]
  · exact fun e he => ⟨htrim.target_ne_entry e he, htrim.source_ne_exit e he⟩
  · exact fun q hq => ⟨htrim.from_entry q hq, htrim.to_exit q hq⟩
  · intro c hc
    obtain ⟨e, he, hlabel⟩ :=
      Fragment.exists_edge_of_mem_literals 0 r (Alphabet.mem_ofSymbols.mp hc)
    exact ⟨e, OrderedSet.mem_ofList.mpr he, hlabel⟩

theorem toAutomaton_assembled_nested :
    ∃ r : Regex, ofString "(a|b*)*c" = .ok r ∧ r.assemble = some r.toAutomaton ∧
      r.toAutomaton.size = 12 ∧ r.toAutomaton.acceptingIds = [11] ∧
      ∀ q < 12, (∃ w, Path r.toAutomaton.edgeSet 8 w q) ∧
        ∃ w, Path r.toAutomaton.edgeSet q w 11 := by
  have hread : ofString "(a|b*)*c" = .ok (.concat [.star (.alternation [.literal 'a',
      .star (.literal 'b')]), .literal 'c']) := rfl
  obtain ⟨hassemble, hsize, _, _, ⟨start, final, hstart, hfinal, _, hbetween⟩, _⟩ :=
    toAutomaton_assembled hread
  cases hstart
  cases hfinal
  exact ⟨_, hread, hassemble, hsize, rfl, fun q hq => hbetween q (mem_toAutomaton_iff.mpr hq)⟩

end Regex

end FiniteState
