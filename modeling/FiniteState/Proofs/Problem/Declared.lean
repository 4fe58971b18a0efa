import FiniteState.Proofs.Automaton.ByName
import FiniteState.Proofs.Problem.Building
import FiniteState.Proofs.Problem.Sheet

/-! # What the formats make of a sheet

Either format makes of a sheet an automaton that is given by lists, if these have all that the
transitions need. The states of the nondeterministic format are those of their line. Those of the
deterministic one are the start, the final states and the targets of transitions, and a later
transition replaces an earlier one.
-/

namespace FiniteState.Problem.Sheet

/-- The listed names differ, and the final states and the ends of transitions are among them. -/
structure Declared (s : Sheet) (names : List String) : Prop where
  names_nodup : names.Nodup
  finals_mem : ∀ name ∈ s.finals, name ∈ names
  transitions_fit : ∀ t ∈ s.transitions, t.Fits s.alphabet names

/-- The automaton that has the listed names and an edge for every transition. -/
def automaton (s : Sheet) (names : List String) : Automaton :=
  .listed s.alphabet names s.finals (.ofList (s.transitions.map (·.edge names)))

/-- The names that the deterministic format declares, each where it occurs first. -/
def namesFrom (s : Sheet) (start : String) : List String :=
  (start :: (s.finals ++ s.transitions.map (·.target))).eraseDups

variable {s : Sheet} {start name : String} {names : List String} {a : Automaton}

theorem nondeterministic_eq_ok_iff :
    s.nondeterministic = .ok a ↔ s.Declared s.names ∧ s.automaton s.names = a := by
  rw [nondeterministic_eq_ok_iff_steps]
  constructor
  · rintro ⟨_, hdeclared, _, hmarked, hadded⟩
    obtain ⟨hnames, rfl⟩ := declareStates_new_eq_ok_iff.mp hdeclared
    obtain ⟨hfinals, rfl⟩ := (acceptDeclared_listed_eq_ok_iff hnames).mp hmarked
    obtain ⟨hfits, rfl⟩ := (foldlM_addTo_listed_eq_ok_iff hnames).mp hadded
    exact ⟨⟨hnames, hfinals, hfits⟩, rfl⟩
  · rintro ⟨hs, rfl⟩
    exact ⟨_, declareStates_new_eq_ok_iff.mpr ⟨hs.names_nodup, rfl⟩, _,
      (acceptDeclared_listed_eq_ok_iff hs.names_nodup).mpr ⟨hs.finals_mem, rfl⟩,
      (foldlM_addTo_listed_eq_ok_iff hs.names_nodup).mpr ⟨hs.transitions_fit, rfl⟩⟩

theorem mem_namesFrom : name ∈ s.namesFrom start ↔
    name = start ∨ name ∈ s.finals ∨ ∃ t ∈ s.transitions, t.target = name := by
  simp [namesFrom]

theorem head?_namesFrom : (s.namesFrom start).head? = some start := by
  rw [namesFrom, List.eraseDups_cons, List.head?_cons]

/-- In the deterministic format only sources can be undeclared. -/
theorem deterministic_eq_ok_iff :
    s.deterministic start = .ok a ↔ s.Declared (s.namesFrom start) ∧
      .listed s.alphabet (s.namesFrom start) s.finals
        (s.transitions.foldl (fun edges t => t.replace (s.namesFrom start) edges) ∅) = a := by
  have hstart : (Automaton.new s.alphabet).addState start false =
      .ok (.listed s.alphabet [start].eraseDups [] ∅) := rfl
  have hmarked : acceptNamed (.listed s.alphabet [start].eraseDups [] ∅) s.finals =
      .ok (.listed s.alphabet ([start] ++ s.finals).eraseDups s.finals ∅) :=
    acceptNamed_listed (List.forall_mem_nil _)
  have hensured : ensureTargets
      (.listed s.alphabet ([start] ++ s.finals).eraseDups s.finals ∅) s.transitions =
      .listed s.alphabet (s.namesFrom start) s.finals ∅ := by
    rw [ensureTargets_listed fun name hname => List.mem_append_right _ hname, List.append_assoc]
    rfl
  have hnames : (s.namesFrom start).Nodup := nodup_eraseDups _
  have hfinals : ∀ name ∈ s.finals, name ∈ s.namesFrom start :=
    fun name hname => mem_namesFrom.mpr (.inr (.inl hname))
  simp only [deterministic_eq_ok_iff_steps, hstart, Except.ok.injEq, exists_eq_left', hmarked,
    hensured, foldlM_replaceIn_listed_eq_ok_iff hnames]
  exact and_congr_left fun _ => ⟨fun hfits => ⟨hnames, hfinals, hfits⟩, (·.transitions_fit)⟩

/-! ## Seen by names -/

namespace Declared

variable (hs : s.Declared names)
include hs

theorem wellFormed : (s.automaton names).WellFormed := by
  apply Automaton.wellFormed_listed hs.names_nodup
  intro e he
  obtain ⟨t, ht, rfl⟩ := List.mem_map.mp (OrderedSet.mem_ofList.mp he)
  exact (hs.transitions_fit t ht).fits_listed

theorem acceptsAt_iff : (s.automaton names).AcceptsAt name ↔ name ∈ s.finals := by
  rw [automaton, Automaton.acceptsAt_listed_iff]
  exact and_iff_right_of_imp (hs.finals_mem name)

theorem joins_iff {source target : String} {label : Label} :
    (s.automaton names).Joins source label target ↔
      ∃ t ∈ s.transitions, t.source = source ∧ t.label = label ∧ t.target = target := by
  have hnames {name : String} (h : name ∈ names) :
      (s.automaton names).name? (names.idxOf name) = some name := Automaton.name?_listed_idxOf h
  constructor
  · rintro ⟨e, he, hsource, rfl, htarget⟩
    obtain ⟨t, ht, rfl⟩ := List.mem_map.mp (OrderedSet.mem_ofList.mp he)
    have hfits := hs.transitions_fit t ht
    exact ⟨t, ht, Option.some.inj ((hnames hfits.source_mem).symm.trans hsource), rfl,
      Option.some.inj ((hnames hfits.target_mem).symm.trans htarget)⟩
  · rintro ⟨t, ht, rfl, rfl, rfl⟩
    have hfits := hs.transitions_fit t ht
    exact ⟨t.edge names, OrderedSet.mem_ofList.mpr (List.mem_map_of_mem ht),
      hnames hfits.source_mem, rfl, hnames hfits.target_mem⟩

/-- Fewer names may be enough, which is seen only in the names. -/
theorem isPart {kept : List String} (hkept : s.Declared kept) (hhead : kept.head? = names.head?)
    (hsubset : kept ⊆ names) :
    Automaton.IsPart (· ∈ kept) (s.automaton kept) (s.automaton names) where
  nodup_part := hkept.wellFormed.names_nodup
  nodup_whole := hs.wellFormed.names_nodup
  alphabet_eq := rfl
  startName?_eq := by
    rw [automaton, automaton, Automaton.startName?_listed, Automaton.startName?_listed, hhead]
  mem_names_iff name := by
    rw [automaton, automaton, Automaton.names_listed, Automaton.names_listed]
    exact (and_iff_right_of_imp fun h => hsubset h).symm
  acceptsAt_iff name := by
    rw [hkept.acceptsAt_iff, hs.acceptsAt_iff]
    exact (and_iff_left_of_imp (hkept.finals_mem name)).symm
  joins_iff source label target := by
    rw [hkept.joins_iff, hs.joins_iff]
    refine (and_iff_left_of_imp ?_).symm
    rintro ⟨t, ht, rfl, _, rfl⟩
    exact ⟨(hkept.transitions_fit t ht).source_mem, (hkept.transitions_fit t ht).target_mem⟩

end Declared

end FiniteState.Problem.Sheet
