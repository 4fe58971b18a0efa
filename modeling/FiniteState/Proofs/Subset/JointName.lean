import FiniteState.Proofs.Automaton.ByName
import FiniteState.Proofs.Subset.Meaning

/-! # Joint names

A joint name depends only on the set of the names that it is made of. If none of these is empty or
has a hyphen, it can be taken apart at its hyphens, so joint names of different sets differ. The
sets of the subset construction then have their joint names without marks.
-/

namespace FiniteState

namespace Naming

variable {names first second : List String}

/-- A name that can be found again in a joint name. -/
def IsPlain (name : String) : Prop := name ≠ "" ∧ '-' ∉ name.toList

instance (name : String) : Decidable (IsPlain name) := inferInstanceAs (Decidable (_ ∧ _))

theorem toList_joint (names : List String) : (joint names).toList =
    ['-'].intercalate ((OrderedSet.ofList names).toList.map String.toList) :=
  String.toList_intercalate

/-- What hyphens separate in a joint name, the empty name of no names apart, are the names. -/
theorem splitOn_joint (h : ∀ name ∈ names, IsPlain name) :
    ((joint names).toList.splitOn '-').filter (· ≠ []) =
      (OrderedSet.ofList names).toList.map String.toList := by
  have hplain : ∀ part ∈ (OrderedSet.ofList names).toList.map String.toList,
      part ≠ [] ∧ '-' ∉ part := by
    rw [List.forall_mem_map]
    intro name hname
    obtain ⟨hne, hhyphen⟩ := h name (OrderedSet.mem_ofList.mp hname)
    exact ⟨mt String.toList_eq_nil_iff.mp hne, hhyphen⟩
  rw [toList_joint]
  generalize (OrderedSet.ofList names).toList.map String.toList = parts at hplain
  cases parts with
  | nil => rfl
  | cons part parts =>
    rw [List.splitOn_intercalate '-' (fun l hl => (hplain l hl).2) (List.cons_ne_nil _ _),
      List.filter_eq_self]
    exact fun l hl => decide_eq_true (hplain l hl).1

/-- Plain names that have the same joint name are the same names. -/
theorem mem_iff_of_joint_eq (hfirst : ∀ name ∈ first, IsPlain name)
    (hsecond : ∀ name ∈ second, IsPlain name) (h : joint first = joint second) (name : String) :
    name ∈ first ↔ name ∈ second := by
  have hparts : (OrderedSet.ofList first).toList.map String.toList =
      (OrderedSet.ofList second).toList.map String.toList := by
    rw [← splitOn_joint hfirst, h, splitOn_joint hsecond]
  have hlists : (OrderedSet.ofList first).toList = (OrderedSet.ofList second).toList :=
    List.map_injective_iff.mpr (fun _ _ => String.toList_inj.mp) hparts
  have hmem (names : List String) : name ∈ (OrderedSet.ofList names).toList ↔ name ∈ names :=
    OrderedSet.mem_ofList
  rw [← hmem first, hlists, hmem]

end Naming

variable {nfa : Automaton} {q : StateId} {s t : StateSet} {i : StateId}

/-- Sets of states whose names are plain have different joint names. -/
theorem StateSet.eq_of_name_eq (hn : nfa.WellFormed) (hplain : ∀ n ∈ nfa.names, Naming.IsPlain n)
    (hs : ∀ q ∈ s, q ∈ nfa) (ht : ∀ q ∈ t, q ∈ nfa) (h : s.name nfa = t.name nfa) : s = t := by
  have hnames (u : StateSet) : ∀ n ∈ nfa.namesOf u.toList, Naming.IsPlain n := by
    intro n hn'
    obtain ⟨q, _, hq⟩ := List.mem_filterMap.mp hn'
    exact hplain n (hn.mem_names_iff.mpr ⟨q, hq⟩)
  have hsame := Naming.mem_iff_of_joint_eq (hnames s) (hnames t) h
  -- A member of either set is the only state with its name.
  have hsubset {u v : StateSet} (hu : ∀ q ∈ u, q ∈ nfa)
      (huv : ∀ n, n ∈ nfa.namesOf u.toList → n ∈ nfa.namesOf v.toList) : ∀ q ∈ u, q ∈ v := by
    intro q hq
    obtain ⟨n, hqn⟩ := hn.exists_name?_eq (hu q hq)
    obtain ⟨r, hr, hrn⟩ := List.mem_filterMap.mp (huv n (List.mem_filterMap.mpr ⟨q, hq, hqn⟩))
    exact hn.eq_of_name?_eq hrn hqn ▸ hr
  ext q
  exact ⟨hsubset hs (fun n => (hsame n).mp) q, hsubset ht (fun n => (hsame n).mpr) q⟩

namespace SubsetAutomaton

variable {symbols : List Char}

/-- Where states have plain names, every set has its joint name. -/
theorem name?_of_subset (hn : nfa.WellFormed) (hplain : ∀ n ∈ nfa.names, Naming.IsPlain n)
    (hq : nfa.start = some q) (hsymbols : ∀ c ∈ symbols, c ∈ nfa.alphabet)
    (hs : (inOrder nfa symbols).subsets[i]? = some s) :
    (inOrder nfa symbols).dfa.name? i = some (s.name nfa) := by
  have hnodup : ((inOrder nfa symbols).subsets.map (·.name nfa)).Nodup :=
    (nodup_subsets hq).map_on fun s hs t ht => StateSet.eq_of_name_eq hn hplain
      (mem_of_mem_subsets hn hq hs) (mem_of_mem_subsets hn hq ht)
  obtain ⟨trap, -, hstates, -⟩ := exists_trap_inOrder symbols hq
  rw [subsetStates_eq, Naming.distinct_eq_self hnodup] at hstates
  refine (wellFormed_inOrder hn hsymbols).name?_numbered hstates hs ?_
  rw [List.getElem?_map, hs, Option.map_some]

/-- Names in any order, with any repetitions, have the same joint name as others if they are the
same names, and plain names only then. The states of the subset construction, the trap apart, have
the joint names of their sets if all states have plain names. -/
theorem named_jointly :
    (∀ first second : List String, (∀ n, n ∈ first ↔ n ∈ second) →
      Naming.joint first = Naming.joint second) ∧
    (∀ first second : List String, (∀ n ∈ first, Naming.IsPlain n) →
      (∀ n ∈ second, Naming.IsPlain n) → Naming.joint first = Naming.joint second →
        ∀ n, n ∈ first ↔ n ∈ second) ∧
    ∀ nfa : Automaton, nfa.Built → (∀ n ∈ nfa.names, Naming.IsPlain n) →
      ∀ i ∈ (ofNfa nfa).dfa, (ofNfa nfa).trap ≠ some i →
        ∃ s, (∀ t, (i, t) ∈ (ofNfa nfa).numberedSubsets ↔ t = s) ∧
          (ofNfa nfa).dfa.name? i = some (s.name nfa) := by
  refine ⟨fun _ _ => Naming.joint_congr, fun _ _ => Naming.mem_iff_of_joint_eq, ?_⟩
  intro nfa hn hplain i hi htrap
  cases hq : nfa.start with
  | none =>
    rw [ofNfa, inOrder_of_start_eq_none hq] at hi
    exact absurd hi List.not_mem_nil
  | some q =>
    obtain ⟨s, hs⟩ := (exists_subset_inOrder_iff hq).mpr ⟨hi, htrap⟩
    refine ⟨s, ?_, name?_of_subset hn.wellFormed hplain hq (fun _ => Alphabet.mem_toList.mp) hs⟩
    intro t
    rw [mem_numberedSubsets_iff, ofNfa, hs, Option.some.injEq, eq_comm]

/-- A state with the name that the trap would get leads to one that cannot go on. -/
def trapNamed : Automaton := .ofEdits (.ofSymbols ['a'])
  [.addState "trap" false, .addState "p'" true, .addEdge 0 (.symbol 'a') 0,
    .addEdge 0 (.symbol 'a') 1]

theorem named_jointly_trapNamed :
    Naming.joint ["trap", "p'", "trap"] = Naming.joint ["p'", "trap"] ∧
      Naming.joint ["p'"] ≠ Naming.joint ["p'", "trap"] ∧
      (ofNfa trapNamed).dfa.name? 0 = some "trap" ∧ (ofNfa trapNamed).dfa.name? 1 = some "p'-trap" ∧
      (ofNfa trapNamed).dfa.name? 2 = some "trap'" := by
  obtain ⟨hsame, hinjective, hnamed⟩ := named_jointly
  have hbuilt : trapNamed.Built := Automaton.built_ofEdits _ _
  have hname (i : StateId) (s : StateSet) (hi : i ∈ (ofNfa trapNamed).dfa)
      (htrap : (ofNfa trapNamed).trap ≠ some i) (hs : (i, s) ∈ (ofNfa trapNamed).numberedSubsets) :
      (ofNfa trapNamed).dfa.name? i = some (s.name trapNamed) := by
    obtain ⟨t, ht, hname⟩ := hnamed trapNamed hbuilt (by decide) i hi htrap
    rwa [(ht s).mp hs]
  refine ⟨hsame _ _ (by simp), ?_, ?_, ?_, by decide⟩
  · intro h
    have htrap := (hinjective _ _ (by decide) (by decide) h "trap").mpr (by decide)
    exact absurd htrap (by decide)
  · exact hname 0 (.ofList [0]) (by decide) (by decide) (by decide)
  · exact hname 1 (.ofList [0, 1]) (by decide) (by decide) (by decide)

end SubsetAutomaton

end FiniteState
