import FiniteState.Proofs.Automaton.Renaming
import FiniteState.Proofs.Subset.Trap

/-! # The subset construction with other ids

The ids of the states decide in which order the members of a set are listed, and so names and the
order in which sets are found. They do not decide which sets words lead to, nor whether a state is
stuck. So the subset constructions of an automaton and of a renamed one have equally many states.
-/

namespace FiniteState

variable {a b : Automaton} {f : StateId → StateId} {q r : StateId} {s t : StateSet} {c : Char}

/-- The renamed members of a set. -/
def StateSet.image (f : StateId → StateId) (s : StateSet) : StateSet := .ofList (s.toList.map f)

theorem StateSet.mem_image : r ∈ s.image f ↔ ∃ q ∈ s, f q = r := by
  simp [image]

section Renamed

variable (ha : a.WellFormed) (hb : b.WellFormed) (h : Automaton.IsIso f a b)

include ha hb h

theorem Automaton.IsIso.isStuck_iff (hq : q ∈ a) : b.IsStuck (f q) c ↔ a.IsStuck q c := by
  constructor
  · intro hstuck p hpath t he
    have hfits := ha.edges_fit _ he
    exact hstuck (f p) ((h.path_iff_exists ha hb hq).mpr ⟨p, hfits.source_mem, hpath, rfl⟩) (f t)
      ((h.mem_edges_iff p hfits.source_mem _ t hfits.target_mem).mpr he)
  · intro hstuck r hr t he
    obtain ⟨p, hp, hpath, rfl⟩ := (h.path_iff_exists ha hb hq).mp hr
    obtain ⟨u, _, he, _⟩ := (h.mem_edges_iff_exists hb hp).mp he
    exact hstuck p hpath u he

namespace SubsetAutomaton

section Started

variable (hq : a.start = some q)

include hq

omit ha hb in
theorem start_of_isIso : b.start = some (f q) := by
  rw [h.start_eq, hq, Option.map_some]

/-- The sets that are found are the renamed ones. -/
theorem mem_subsets_iff_image :
    t ∈ (ofNfa b).subsets ↔ ∃ s ∈ (ofNfa a).subsets, s.image f = t := by
  have hfound {s : StateSet} : s ∈ (ofNfa a).subsets ↔
      s ≠ ∅ ∧ ∃ w ∈ a.words, ∀ r, r ∈ s ↔ r ∈ a.reachedBy w :=
    mem_subsets_iff ha hq fun _ => Alphabet.mem_toList
  have himage {s : StateSet} {w : List Char} (hs : ∀ r, r ∈ s ↔ r ∈ a.reachedBy w) (r : StateId) :
      r ∈ s.image f ↔ r ∈ b.reachedBy w := by
    simp only [StateSet.mem_image, hs, h.mem_reachedBy_iff_exists ha hb]
  rw [ofNfa, mem_subsets_iff hb (start_of_isIso h hq) fun _ => Alphabet.mem_toList, h.words_eq]
  constructor
  · rintro ⟨hne, w, hw, ht⟩
    let s := ((Closures.ofAutomaton a).ofState q).moveAlong a w
    have hs (r : StateId) : r ∈ s ↔ r ∈ a.reachedBy w := mem_moveAlong_iff_reachedBy ha hq
    have hst : s.image f = t := OrderedSet.ext fun r => (himage hs r).trans (ht r).symm
    obtain ⟨r, hr⟩ := OrderedSet.exists_mem_of_ne_empty hne
    obtain ⟨p, hp, _⟩ := StateSet.mem_image.mp (hst ▸ hr)
    exact ⟨s, hfound.mpr ⟨OrderedSet.ne_empty_of_mem hp, w, hw, hs⟩, hst⟩
  · rintro ⟨s, hs, rfl⟩
    obtain ⟨hne, w, hw, hs⟩ := hfound.mp hs
    obtain ⟨r, hr⟩ := OrderedSet.exists_mem_of_ne_empty hne
    exact ⟨OrderedSet.ne_empty_of_mem (StateSet.mem_image.mpr ⟨r, hr, rfl⟩), w, hw, himage hs⟩

theorem subsetCount_of_isIso : (ofNfa b).subsetCount = (ofNfa a).subsetCount := by
  have hmem {s : StateSet} (hs : s ∈ (ofNfa a).subsets) {r : StateId} (hr : r ∈ s) : r ∈ a := by
    obtain ⟨_, w, _, hsw⟩ := (mem_subsets_iff ha hq fun _ => Alphabet.mem_toList).mp hs
    exact ha.mem_of_mem_reachedBy ((hsw r).mp hr)
  have hsubset {s t : StateSet} (hs : s ∈ (ofNfa a).subsets) (ht : t ∈ (ofNfa a).subsets)
      (heq : s.image f = t.image f) {r : StateId} (hr : r ∈ s) : r ∈ t := by
    have himage : f r ∈ t.image f := heq ▸ StateSet.mem_image.mpr ⟨r, hr, rfl⟩
    obtain ⟨p, hp, hpr⟩ := StateSet.mem_image.mp himage
    exact h.bijOn.injOn (hmem ht hp) (hmem hs hr) hpr ▸ hp
  have hinjective : ∀ s ∈ (ofNfa a).subsets, ∀ t ∈ (ofNfa a).subsets,
      s.image f = t.image f → s = t := by
    intro s hs t ht heq
    exact OrderedSet.ext fun r => ⟨hsubset hs ht heq, hsubset ht hs heq.symm⟩
  have hperm : ((ofNfa a).subsets.map (StateSet.image f)).Perm (ofNfa b).subsets := by
    refine (List.perm_ext_iff_of_nodup ((nodup_subsets hq).map_on hinjective)
      (nodup_subsets (start_of_isIso h hq))).mpr fun t => ?_
    rw [List.mem_map]
    exact (mem_subsets_iff_image ha hb h hq).symm
  rw [subsetCount, ← hperm.length_eq, List.length_map, subsetCount]

theorem hasTrap_of_isIso : (ofNfa b).hasTrap = (ofNfa a).hasTrap := by
  rw [Bool.eq_iff_iff, ofNfa, ofNfa,
    hasTrap_inOrder_iff_isStuck hb (start_of_isIso h hq) fun _ => Alphabet.mem_toList,
    hasTrap_inOrder_iff_isStuck ha hq fun _ => Alphabet.mem_toList, h.words_eq, h.alphabet_eq]
  refine exists_congr fun w => and_congr_right fun _ => ?_
  simp only [h.mem_reachedBy_iff_exists ha hb]
  constructor
  · rintro ⟨_, ⟨p, hp, rfl⟩, c, hc, hstuck⟩
    exact ⟨p, hp, c, hc, (h.isStuck_iff ha hb (ha.mem_of_mem_reachedBy hp)).mp hstuck⟩
  · rintro ⟨p, hp, c, hc, hstuck⟩
    exact ⟨f p, ⟨p, hp, rfl⟩, c, hc,
      (h.isStuck_iff ha hb (ha.mem_of_mem_reachedBy hp)).mpr hstuck⟩

end Started

/-- Renaming the states changes nothing about the number of states. -/
theorem stateCount_of_isIso : (ofNfa b).stateCount = (ofNfa a).stateCount := by
  cases hq : a.start with
  | none =>
    have hqb : b.start = none := by rw [h.start_eq, hq, Option.map_none]
    rw [ofNfa, ofNfa, inOrder_of_start_eq_none hq, inOrder_of_start_eq_none hqb]
    rfl
  | some q =>
    have hcount : (ofNfa a).stateCount =
        (ofNfa a).subsetCount + if (ofNfa a).hasTrap then 1 else 0 := stateCount_inOrder hq
    have hcountb : (ofNfa b).stateCount =
        (ofNfa b).subsetCount + if (ofNfa b).hasTrap then 1 else 0 :=
      stateCount_inOrder (start_of_isIso h hq)
    rw [hcountb, hcount, subsetCount_of_isIso ha hb h hq, hasTrap_of_isIso ha hb h hq]

end SubsetAutomaton

end Renamed

end FiniteState
