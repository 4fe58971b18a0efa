import FiniteState.Proofs.Automaton.Isomorphism
import FiniteState.Proofs.Automaton.Offence

/-! # Automata with other ids

Automata that agree on everything that can be said by names differ only in their ids: a renaming
of the states makes one the other. Such a renaming carries over moves, offences against determinism,
what words lead to and where one is stuck.
-/

namespace FiniteState.Automaton

/-- States with the same name correspond, so that the automata differ only in ids. -/
def SameByName (a b : Automaton) : Prop :=
  ∃ f, IsIso f a b ∧ ∀ q ∈ a, b.name? (f q) = a.name? q

variable {a b : Automaton} {f : StateId → StateId} {keep : String → Prop} {q r t : StateId}
  {c : Char} {label : Label} {w : List Char}

/-! ## From names to ids -/

section Named

variable (ha : a.WellFormed) (hb : b.WellFormed) (h : IsPart keep b a)
  (hkeep : ∀ name ∈ a.names, keep name)

include ha hb h hkeep

theorem IsPart.exists_name?_eq (hq : q ∈ a) : ∃ r, b.name? r = a.name? q := by
  obtain ⟨name, hname⟩ := ha.exists_name?_eq hq
  have hmem : name ∈ a.names := ha.mem_names_iff.mpr ⟨q, hname⟩
  obtain ⟨r, hr⟩ := hb.mem_names_iff.mp ((h.mem_names_iff name).mpr ⟨hmem, hkeep name hmem⟩)
  exact ⟨r, hr.trans hname.symm⟩

section Mapped

variable (hf : ∀ {q name}, a.name? q = some name → b.name? (f q) = some name)

include hf

omit hkeep in
theorem IsPart.bijOn : Set.BijOn f {q | q ∈ a} {q | q ∈ b} := by
  refine ⟨?_, ?_, ?_⟩
  · intro q hq
    obtain ⟨name, hname⟩ := ha.exists_name?_eq hq
    exact hb.mem_of_name? (hf hname)
  · intro q hq r hr heq
    obtain ⟨name, hname⟩ := ha.exists_name?_eq hq
    obtain ⟨other, hother⟩ := ha.exists_name?_eq hr
    cases (hf hname).symm.trans (heq ▸ hf hother)
    exact ha.eq_of_name?_eq hname hother
  · intro r hr
    obtain ⟨name, hname⟩ := hb.exists_name?_eq hr
    obtain ⟨q, hq⟩ := ha.mem_names_iff.mp
      ((h.mem_names_iff name).mp (hb.mem_names_iff.mpr ⟨r, hname⟩)).1
    exact ⟨q, ha.mem_of_name? hq, hb.eq_of_name?_eq (hf hq) hname⟩

omit hkeep in
theorem IsPart.start_eq_map : b.start = a.start.map f := by
  cases hstart : a.start with
  | none =>
    cases hbstart : b.start with
    | none => rfl
    | some r =>
      obtain ⟨name, _, hname⟩ := hb.exists_startName? hbstart
      rw [h.startName?_eq, startName?, hstart] at hname
      cases hname
  | some q =>
    obtain ⟨name, hname, hfirst⟩ := ha.exists_startName? hstart
    obtain ⟨r, hr, hrname⟩ := Option.bind_eq_some_iff.mp (h.startName?_eq.trans hfirst)
    rw [hr, Option.map_some, hb.eq_of_name?_eq hrname (hf hname)]

theorem IsPart.mem_edges_iff_of_name? {source target : String} (hq : a.name? q = some source)
    (ht : a.name? t = some target) : ⟨f q, label, f t⟩ ∈ b.edges ↔ ⟨q, label, t⟩ ∈ a.edges := by
  have hjoins := h.joins_iff source label target
  constructor
  · intro he
    obtain ⟨x, hx, hxname⟩ := ha.exists_mem_edges_of_joins
      (hjoins.mp ⟨_, he, hf hq, rfl, hf ht⟩).1 hq
    rwa [ha.eq_of_name?_eq ht hxname]
  · intro he
    have hkept {q : StateId} {name : String} (hname : a.name? q = some name) : keep name :=
      hkeep name (ha.mem_names_iff.mpr ⟨q, hname⟩)
    obtain ⟨x, hx, hxname⟩ := hb.exists_mem_edges_of_joins
      (hjoins.mpr ⟨⟨_, he, hq, rfl, ht⟩, hkept hq, hkept ht⟩) (hf hq)
    rwa [hb.eq_of_name?_eq (hf ht) hxname]

/-- If all names are kept, a map that keeps them is a renaming. -/
theorem IsPart.isIso : IsIso f a b := by
  refine ⟨h.alphabet_eq, h.bijOn ha hb hf, h.start_eq_map ha hb hf, ?_, ?_⟩
  · intro q hq
    obtain ⟨name, hname⟩ := ha.exists_name?_eq hq
    rw [Bool.eq_iff_iff, ← hb.acceptsAt_iff (hf hname), ← ha.acceptsAt_iff hname, h.acceptsAt_iff]
    exact and_iff_left (hkeep name (ha.mem_names_iff.mpr ⟨q, hname⟩))
  · intro q hq label t ht
    obtain ⟨source, hsource⟩ := ha.exists_name?_eq hq
    obtain ⟨target, htarget⟩ := ha.exists_name?_eq ht
    exact h.mem_edges_iff_of_name? ha hb hkeep hf hsource htarget

end Mapped

/-- A part that keeps all names is the whole, but for ids. -/
theorem IsPart.sameByName : SameByName a b := by
  have hnames : ∀ q, ∃ r, q ∈ a → b.name? r = a.name? q := by
    intro q
    by_cases hq : q ∈ a
    · obtain ⟨r, hr⟩ := h.exists_name?_eq ha hb hkeep hq
      exact ⟨r, fun _ => hr⟩
    · exact ⟨q, fun hmem => absurd hmem hq⟩
  choose f hf using hnames
  exact ⟨f, h.isIso ha hb hkeep fun hq => (hf _ (ha.mem_of_name? hq)).trans hq, hf⟩

end Named

/-! ## What a renaming carries over -/

section Renamed

variable (ha : a.WellFormed) (hb : b.WellFormed) (h : IsIso f a b)

include ha hb h

theorem IsIso.size_eq : b.size = a.size := by
  have hperm : (a.ids.map f).Perm b.ids := by
    refine (List.perm_ext_iff_of_nodup (ha.nodup_ids.map_on fun q hq r hr => h.bijOn.injOn hq hr)
      hb.nodup_ids).mpr fun r => ?_
    rw [List.mem_map]
    exact ⟨fun ⟨q, hq, hqr⟩ => hqr ▸ h.bijOn.mapsTo hq, fun hr => h.bijOn.surjOn hr⟩
  rw [← length_ids, ← hperm.length_eq, List.length_map, length_ids]

omit ha in
/-- The edges of a state lead to the images of where they led. -/
theorem IsIso.mem_edges_iff_exists (hq : q ∈ a) :
    ⟨f q, label, t⟩ ∈ b.edges ↔ ∃ s ∈ a, ⟨q, label, s⟩ ∈ a.edges ∧ f s = t := by
  constructor
  · intro he
    obtain ⟨s, hs, rfl⟩ := h.bijOn.surjOn (hb.edges_fit _ he).target_mem
    exact ⟨s, hs, (h.mem_edges_iff q hq label s hs).mp he, rfl⟩
  · rintro ⟨s, hs, he, rfl⟩
    exact (h.mem_edges_iff q hq label s hs).mpr he

theorem IsIso.offends_iff (hq : q ∈ a) : b.Offends (f q) label ↔ a.Offends q label := by
  cases label with
  | epsilon =>
    simp only [Offends, h.mem_edges_iff_exists hb hq]
    constructor
    · rintro ⟨_, s, _, he, _⟩
      exact ⟨s, he⟩
    · rintro ⟨s, he⟩
      exact ⟨f s, s, (ha.edges_fit _ he).target_mem, he, rfl⟩
  | symbol c =>
    simp only [Offends, h.mem_edges_iff_exists hb hq]
    constructor
    · rintro ⟨_, _, hne, ⟨s, _, hs, rfl⟩, t, _, ht, rfl⟩
      exact ⟨s, t, fun heq => hne (congrArg f heq), hs, ht⟩
    · rintro ⟨s, t, hne, hs, ht⟩
      have hsa := (ha.edges_fit _ hs).target_mem
      have hta := (ha.edges_fit _ ht).target_mem
      exact ⟨f s, f t, fun heq => hne (h.bijOn.injOn hsa hta heq), ⟨s, hsa, hs, rfl⟩,
        t, hta, ht, rfl⟩

theorem IsIso.deterministic_iff : b.Deterministic ↔ a.Deterministic := by
  rw [hb.deterministic_iff_offends, ha.deterministic_iff_offends]
  constructor
  · intro hnone s hs label hoffends
    obtain ⟨t, ht, hid⟩ := mem_iff.mp (h.bijOn.mapsTo (mem_of_mem_states hs))
    exact hnone t ht label (hid ▸ (h.offends_iff ha hb (mem_of_mem_states hs)).mpr hoffends)
  · intro hnone s hs label hoffends
    obtain ⟨q, hq, hqs⟩ := h.bijOn.surjOn (mem_of_mem_states hs)
    obtain ⟨t, ht, rfl⟩ := mem_iff.mp hq
    exact hnone t ht label ((h.offends_iff ha hb hq).mp (hqs ▸ hoffends))

/-- A renaming of a deterministic automaton renames its successors. -/
theorem IsIso.successor?_eq (hdeta : a.Deterministic) (hdetb : b.Deterministic) (hq : q ∈ a) :
    b.successor? (f q) c = (a.successor? q c).map f := by
  refine Option.ext fun t => ?_
  rw [hdetb.successor?_eq_some_iff, h.mem_edges_iff_exists hb hq, Option.map_eq_some_iff]
  simp only [hdeta.successor?_eq_some_iff]
  constructor
  · rintro ⟨s, _, he, hs⟩
    exact ⟨s, he, hs⟩
  · rintro ⟨s, he, hs⟩
    exact ⟨s, (ha.edges_fit _ he).target_mem, he, hs⟩

/-- Words lead from the image of a state to the images of where they lead from the state. -/
theorem IsIso.path_iff_exists (hq : q ∈ a) :
    Path b.edgeSet (f q) w r ↔ ∃ p ∈ a, Path a.edgeSet q w p ∧ f p = r := by
  constructor
  · intro hpath
    obtain ⟨p, hp, rfl⟩ := h.bijOn.surjOn (hb.mem_of_path hpath (h.bijOn.mapsTo hq))
    obtain ⟨s, hs, hsq, hpath⟩ :=
      h.exists_path (fun e he _ => (hb.edges_fit e he).source_mem) hp hpath
    rw [h.bijOn.injOn hs hq hsq] at hpath
    exact ⟨p, hp, hpath, rfl⟩
  · rintro ⟨p, hp, hpath, rfl⟩
    exact (h.path (fun e he _ => (ha.edges_fit e he).source_mem) hpath hp).2

theorem IsIso.mem_reachedBy_iff_exists :
    r ∈ b.reachedBy w ↔ ∃ p ∈ a.reachedBy w, f p = r := by
  constructor
  · rintro ⟨s, hs, hpath⟩
    rw [h.start_eq] at hs
    obtain ⟨q, hq, rfl⟩ := Option.map_eq_some_iff.mp hs
    obtain ⟨p, hp, hpath, hpr⟩ := (h.path_iff_exists ha hb (ha.start_mem q hq)).mp hpath
    exact ⟨p, ⟨q, hq, hpath⟩, hpr⟩
  · rintro ⟨p, ⟨q, hq, hpath⟩, hpr⟩
    have hp := ha.mem_of_mem_reachedBy ⟨q, hq, hpath⟩
    refine ⟨f q, ?_, (h.path_iff_exists ha hb (ha.start_mem q hq)).mpr ⟨p, hp, hpath, hpr⟩⟩
    rw [h.start_eq]
    exact Option.map_eq_some_iff.mpr ⟨q, hq, rfl⟩

omit ha hb in
theorem IsIso.words_eq : b.words = a.words := by
  rw [words, words, h.alphabet_eq]

end Renamed

end FiniteState.Automaton
