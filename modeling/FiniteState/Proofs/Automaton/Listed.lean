import FiniteState.Proofs.Automaton.Numbered

/-! # Automata given by lists

The states of such an automaton are the listed names in order, numbered from zero, and the first
one is the start. Adding a state, marking one and adding an edge each make one list longer.
-/

namespace FiniteState

section EraseDups

variable {α : Type} [DecidableEq α] {xs : List α} {x : α}

theorem eraseDups_concat :
    (xs ++ [x]).eraseDups = if x ∈ xs.eraseDups then xs.eraseDups else xs.eraseDups ++ [x] := by
  rw [List.eraseDups_append, List.cons_removeAll, List.nil_removeAll]
  by_cases hx : x ∈ xs <;> simp [hx, List.eraseDups_cons]

theorem nodup_eraseDups (xs : List α) : xs.eraseDups.Nodup := by
  induction xs using List.reverseRecOn with
  | nil => exact .nil
  | append_singleton xs x ih =>
    rw [eraseDups_concat]
    split
    next => exact ih
    next hx =>
      rw [← List.concat_eq_append]
      exact ih.concat hx

end EraseDups

namespace Automaton

/-- The automaton of the listed names, of which some are listed again as accepting. -/
def listed (alphabet : Alphabet) (names finals : List String) (edges : OrderedSet Edge) :
    Automaton where
  alphabet := alphabet
  states := names.mapIdx fun i name => ⟨i, name, name ∈ finals⟩
  edges := edges
  start := if names = [] then none else some 0
  nextId := names.length

variable {alphabet : Alphabet} {names finals : List String} {edges : OrderedSet Edge}
  {name : String} {q : StateId}

theorem listed_nil (alphabet : Alphabet) : listed alphabet [] [] ∅ = new alphabet := rfl

@[simp] theorem names_listed : (listed alphabet names finals edges).names = names := by
  refine List.ext_getElem (by simp [Automaton.names, listed]) ?_
  intro i hi _
  simp [Automaton.names, listed]

@[simp] theorem ids_listed :
    (listed alphabet names finals edges).ids = List.range names.length := by
  refine List.ext_getElem (by simp [ids, listed]) ?_
  intro i hi _
  simp [ids, listed]

theorem mem_listed : q ∈ listed alphabet names finals edges ↔ q < names.length :=
  mem_iff_lt_of_ids ids_listed

theorem state?_listed : (listed alphabet names finals edges).state? q =
    names[q]?.map fun name => ⟨q, name, name ∈ finals⟩ := by
  have hids : ((listed alphabet names finals edges).states.map (·.id)).Nodup := by
    rw [← ids, ids_listed]
    exact List.nodup_range
  refine Option.ext fun s => ?_
  rw [state?, find?_key_eq_some_iff hids, listed, List.mem_mapIdx, Option.map_eq_some_iff]
  constructor
  · rintro ⟨⟨i, hi, rfl⟩, rfl⟩
    exact ⟨names[i], List.getElem?_eq_getElem hi, rfl⟩
  · rintro ⟨name, hname, rfl⟩
    obtain ⟨hq, rfl⟩ := List.getElem?_eq_some_iff.mp hname
    exact ⟨⟨q, hq, rfl⟩, rfl⟩

@[simp] theorem name?_listed : (listed alphabet names finals edges).name? q = names[q]? := by
  simp [name?, state?_listed, Function.comp_def]

theorem isAccepting_listed : (listed alphabet names finals edges).isAccepting q = true ↔
    ∃ name ∈ finals, names[q]? = some name := by
  simp [isAccepting, state?_listed, Option.any_eq_true, and_comm]

/-- The id of a state is where its name is listed. -/
theorem resolve_listed (hnames : names.Nodup) (h : name ∈ names) :
    (listed alphabet names finals edges).resolve name = .ok (names.idxOf name) := by
  have hlt : names.idxOf name < names.length := List.idxOf_lt_length_iff.mpr h
  have hmem : ⟨names.idxOf name, name, decide (name ∈ finals)⟩ ∈
      (listed alphabet names finals edges).states :=
    List.mem_mapIdx.mpr ⟨names.idxOf name, hlt, by rw [List.getElem_idxOf]⟩
  have hnodup : ((listed alphabet names finals edges).states.map (·.name)).Nodup := by
    rw [← Automaton.names, names_listed]
    exact hnames
  rw [resolve, idOf?, (find?_key_eq_some_iff hnodup).mpr ⟨hmem, rfl⟩]
  rfl

theorem resolve_listed_eq_ok_iff (hnames : names.Nodup) :
    (listed alphabet names finals edges).resolve name = .ok q ↔
      name ∈ names ∧ names.idxOf name = q := by
  by_cases hname : name ∈ names
  · rw [resolve_listed hnames hname]
    simp [hname]
  · have hnone : (listed alphabet names finals edges).idOf? name = none := by
      rw [idOf?_eq_none_iff, names_listed]
      exact hname
    simp [resolve, hnone, hname]

theorem wellFormed_listed (hnames : names.Nodup)
    (hedges : ∀ e ∈ edges, (listed alphabet names finals edges).Fits e) :
    (listed alphabet names finals edges).WellFormed where
  ids_ascending := ids_ascending_of_ids ids_listed
  lt_nextId q hq := mem_listed.mp hq
  names_nodup := by rwa [names_listed]
  edges_fit := hedges
  start_mem q hq := by
    cases names with
    | nil => cases hq
    | cons name rest =>
      cases hq
      exact mem_listed.mpr (Nat.zero_lt_succ _)
  states_eq_nil h := by
    cases names with
    | nil => rfl
    | cons name rest => cases h

/-! ## Longer lists -/

theorem insertState_listed (h : name ∉ finals) :
    (listed alphabet names finals edges).insertState name false =
      listed alphabet (names ++ [name]) finals edges := by
  cases names <;> simp [listed, insertState, List.mapIdx_append, h]

/-- Adding states unless they are there lists every name once, where it occurs first. -/
theorem addUnlessNamed_listed {seen : List String} (h : ∀ name ∈ finals, name ∈ seen) :
    (listed alphabet seen.eraseDups finals edges).addUnlessNamed name =
      listed alphabet (seen ++ [name]).eraseDups finals edges := by
  rw [addUnlessNamed, names_listed, eraseDups_concat]
  split
  next => rfl
  next hname =>
    exact insertState_listed fun hfinal => hname (List.mem_eraseDups.mpr (h name hfinal))

theorem addState_listed (h : name ∉ names) :
    (listed alphabet names [] edges).addState name false =
      .ok (listed alphabet (names ++ [name]) [] edges) := by
  rw [← insertState_listed List.not_mem_nil]
  exact addState_eq_ok_iff.mpr ⟨by rwa [names_listed], rfl⟩

theorem setAccepting_listed (hnames : names.Nodup) (h : name ∈ names) :
    (listed alphabet names finals edges).setAccepting (names.idxOf name) true =
      .ok (listed alphabet names (finals ++ [name]) edges) := by
  have hlt : names.idxOf name < names.length := List.idxOf_lt_length_iff.mpr h
  have hstates :
      ((listed alphabet names finals edges).markAccepting (names.idxOf name) true).states =
        (listed alphabet names (finals ++ [name]) edges).states := by
    refine List.ext_getElem (by simp [listed, markAccepting]) ?_
    intro i _ hstate
    have hi : i < names.length := by simpa [listed] using hstate
    have hindex : i = names.idxOf name ↔ names[i] = name := by
      constructor
      · rintro rfl
        exact List.getElem_idxOf hlt
      · intro hname
        rw [← hname, hnames.idxOf_getElem i hi]
    by_cases hname : names[i] = name
    · simp [listed, markAccepting, hindex, hname]
    · simp [listed, markAccepting, hindex, hname]
  refine setAccepting_eq_ok_iff.mpr ⟨mem_listed.mpr hlt, ?_⟩
  exact congrArg (fun states => { listed alphabet names finals edges with states }) hstates

end Automaton

end FiniteState
