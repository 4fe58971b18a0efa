import FiniteState.Proofs.Automaton.Listed
import FiniteState.Proofs.Automaton.Walk

/-! # Automata compared by names

The ids of states depend on the order in which they come to be, their names do not. Two automata are
compared by the names of their states, of which one may have only some of the other's. If all that
the start leads to is kept, they accept the same words.
-/

namespace FiniteState.Automaton

/-- The name of the start. -/
def startName? (a : Automaton) : Option String := a.start.bind a.name?

/-- The state with a name accepts. -/
def AcceptsAt (a : Automaton) (name : String) : Prop :=
  ∃ q, a.name? q = some name ∧ a.isAccepting q = true

/-- An edge with a label leads from the state with a name to the one with another. -/
def Joins (a : Automaton) (source : String) (label : Label) (target : String) : Prop :=
  ∃ e ∈ a.edges, a.name? e.source = some source ∧ e.label = label ∧ a.name? e.target = some target

/-- States matched by their names, one automaton is another without the states that are not kept,
and without the edges that touch these. -/
structure IsPart (keep : String → Prop) (part whole : Automaton) : Prop where
  nodup_part : part.names.Nodup
  nodup_whole : whole.names.Nodup
  alphabet_eq : part.alphabet = whole.alphabet
  startName?_eq : part.startName? = whole.startName?
  mem_names_iff (name : String) : name ∈ part.names ↔ name ∈ whole.names ∧ keep name
  acceptsAt_iff (name : String) : part.AcceptsAt name ↔ whole.AcceptsAt name ∧ keep name
  joins_iff (source : String) (label : Label) (target : String) :
    part.Joins source label target ↔ whole.Joins source label target ∧ keep source ∧ keep target

variable {a b : Automaton} {q r s t : StateId} {name : String} {w : List Char} {e : Edge}

namespace WellFormed

theorem exists_name?_eq (ha : a.WellFormed) (hq : q ∈ a) : ∃ name, a.name? q = some name := by
  obtain ⟨s, hs, rfl⟩ := mem_iff.mp hq
  exact ⟨s.name, ha.name?_eq_some_iff.mpr ⟨s.accepting, hs⟩⟩

theorem mem_of_name? (ha : a.WellFormed) (h : a.name? q = some name) : q ∈ a := by
  obtain ⟨_, hs⟩ := ha.name?_eq_some_iff.mp h
  exact mem_of_mem_states hs

theorem mem_names_iff (ha : a.WellFormed) : name ∈ a.names ↔ ∃ q, a.name? q = some name := by
  simp only [ha.name?_eq_some_iff, names, List.mem_map]
  constructor
  · rintro ⟨s, hs, rfl⟩
    exact ⟨s.id, s.accepting, hs⟩
  · rintro ⟨q, accepting, hs⟩
    exact ⟨_, hs, rfl⟩

/-- The state with a name is the only one. -/
theorem eq_of_name?_eq (ha : a.WellFormed) (hq : a.name? q = some name)
    (hr : a.name? r = some name) : q = r := by
  have hid {x : StateId} (hx : a.name? x = some name) : a.idOf? name = some x :=
    ha.idOf?_eq_some_iff.mpr (ha.name?_eq_some_iff.mp hx)
  exact Option.some.inj ((hid hq).symm.trans (hid hr))

theorem acceptsAt_iff (ha : a.WellFormed) (hq : a.name? q = some name) :
    a.AcceptsAt name ↔ a.isAccepting q = true := by
  constructor
  · intro h
    obtain ⟨r, hr, haccepting⟩ := h
    rwa [ha.eq_of_name?_eq hq hr]
  · intro haccepting
    exact ⟨q, hq, haccepting⟩

/-- Every edge joins two names. -/
theorem exists_joins (ha : a.WellFormed) (he : e ∈ a.edges)
    (hsource : a.name? e.source = some name) :
    ∃ target, a.name? e.target = some target ∧ a.Joins name e.label target := by
  obtain ⟨target, htarget⟩ := ha.exists_name?_eq (ha.edges_fit e he).target_mem
  exact ⟨target, htarget, e, he, hsource, rfl, htarget⟩

/-- Names that are joined are joined by an edge from the state with the first. -/
theorem exists_mem_edges_of_joins (ha : a.WellFormed) {source target : String} {label : Label}
    (h : a.Joins source label target) (hq : a.name? q = some source) :
    ∃ t, ⟨q, label, t⟩ ∈ a.edges ∧ a.name? t = some target := by
  obtain ⟨⟨p, _, t⟩, he, hsource, rfl, htarget⟩ := h
  obtain rfl := ha.eq_of_name?_eq hsource hq
  exact ⟨t, he, htarget⟩

/-- If a state is joined to one name at most, this names all its successors. -/
theorem map_name?_targets (ha : a.WellFormed) {source : String} {label : Label}
    {next : Option String} (hq : a.name? q = some source)
    (hnext : ∀ target, a.Joins source label target ↔ next = some target) :
    (a.targets q label).map a.name? = next.toList.map some := by
  have hnamed : ∀ t ∈ a.targets q label,
      ∃ target, a.name? t = some target ∧ next = some target := by
    intro t ht
    obtain ⟨target, htarget, hjoined⟩ := ha.exists_joins ((mem_targets a).mp ht) hq
    exact ⟨target, htarget, (hnext target).mp hjoined⟩
  cases next with
  | none =>
    have hnone : a.targets q label = [] := by
      rw [List.eq_nil_iff_forall_not_mem]
      intro t ht
      obtain ⟨_, _, hnext⟩ := hnamed t ht
      cases hnext
    rw [hnone]
    rfl
  | some target =>
    obtain ⟨t, ht, htarget⟩ := ha.exists_mem_edges_of_joins ((hnext target).mpr rfl) hq
    have hone : a.targets q label = [t] := by
      rw [← List.perm_singleton, List.perm_ext_iff_of_nodup (nodup_targets label)
        (List.nodup_singleton t)]
      intro x
      rw [List.mem_singleton]
      constructor
      · intro hx
        obtain ⟨_, hname, hsame⟩ := hnamed x hx
        cases hsame
        exact ha.eq_of_name?_eq hname htarget
      · rintro rfl
        exact (mem_targets a).mpr ht
    rw [hone]
    exact congrArg (fun name => [name]) htarget

theorem exists_startName? (ha : a.WellFormed) (hq : a.start = some q) :
    ∃ name, a.name? q = some name ∧ a.startName? = some name := by
  obtain ⟨name, hname⟩ := ha.exists_name?_eq (ha.start_mem q hq)
  exact ⟨name, hname, by rw [startName?, hq, Option.bind_some, hname]⟩

end WellFormed

/-! ## Languages -/

/-- Two states, one of each automaton, have the same name, and it is in a region. -/
def Namesakes (P : String → Prop) (a b : Automaton) (q r : StateId) : Prop :=
  ∃ name, P name ∧ a.name? q = some name ∧ b.name? r = some name

/-- An automaton accepts what another accepts, from a start with the same name in a region of names,
if it joins whatever the other joins there, and this leads to the region again. -/
theorem WellFormed.accepts_of_joins (ha : a.WellFormed) (hb : b.WellFormed) {P : String → Prop}
    (hstart : a.startName? = b.startName?) (hP : ∀ name ∈ a.startName?, P name)
    (hjoins : ∀ source label target, P source → a.Joins source label target →
      b.Joins source label target ∧ P target)
    (haccepts : ∀ name, P name → a.AcceptsAt name → b.AcceptsAt name) (h : a.accepts w = true) :
    b.accepts w = true := by
  obtain ⟨q, hq, t, hp, ht⟩ := ha.accepts_iff_path.mp h
  obtain ⟨first, hqfirst, hafirst⟩ := ha.exists_startName? hq
  obtain ⟨r, hr, hrfirst⟩ := Option.bind_eq_some_iff.mp (hstart.symm.trans hafirst)
  have hstep : ∀ e ∈ a.edgeSet, ∀ x, Namesakes P a b e.source x →
      ∃ y, ⟨x, e.label, y⟩ ∈ b.edgeSet ∧ Namesakes P a b e.target y := by
    intro e he x hx
    obtain ⟨source, hsource, hesource, hxsource⟩ := hx
    obtain ⟨target, hetarget, hjoined⟩ := ha.exists_joins he hesource
    obtain ⟨hbjoined, htarget⟩ := hjoins _ _ _ hsource hjoined
    obtain ⟨y, hy, hytarget⟩ := hb.exists_mem_edges_of_joins hbjoined hxsource
    exact ⟨y, hy, target, htarget, hetarget, hytarget⟩
  have hfirst : Namesakes P a b q r := ⟨first, hP first hafirst, hqfirst, hrfirst⟩
  obtain ⟨s, hs, last, hlast, htlast, hslast⟩ := hp.simulate hstep hfirst
  have hsaccepting : b.isAccepting s = true :=
    (hb.acceptsAt_iff hslast).mp (haccepts last hlast ((ha.acceptsAt_iff htlast).mpr ht))
  exact hb.accepts_iff_path.mpr ⟨r, hr, s, hs, hsaccepting⟩

/-- What the start does not lead to can be left out. -/
theorem IsPart.accepts_eq {keep : String → Prop} (h : IsPart keep a b) (ha : a.WellFormed)
    (hb : b.WellFormed)
    (hclosed : ∀ source label target, b.Joins source label target → keep source → keep target) :
    a.accepts w = b.accepts w := by
  have hkeep : ∀ name ∈ a.startName?, keep name := by
    intro name hname
    obtain ⟨q, _, hq⟩ := Option.bind_eq_some_iff.mp hname
    exact ((h.mem_names_iff name).mp (ha.mem_names_iff.mpr ⟨q, hq⟩)).2
  have hforth : a.accepts w = true → b.accepts w = true := by
    apply ha.accepts_of_joins hb h.startName?_eq hkeep
    · intro source label target _ hjoined
      obtain ⟨hb, _, htarget⟩ := (h.joins_iff _ _ _).mp hjoined
      exact ⟨hb, htarget⟩
    · intro name _ haccepts
      exact ((h.acceptsAt_iff name).mp haccepts).1
  have hback : b.accepts w = true → a.accepts w = true := by
    apply hb.accepts_of_joins ha h.startName?_eq.symm (h.startName?_eq ▸ hkeep)
    · intro source label target hsource hjoined
      have htarget : keep target := hclosed _ _ _ hjoined hsource
      exact ⟨(h.joins_iff _ _ _).mpr ⟨hjoined, hsource, htarget⟩, htarget⟩
    · intro name hname haccepts
      exact (h.acceptsAt_iff name).mpr ⟨haccepts, hname⟩
  exact Bool.eq_iff_iff.mpr ⟨hforth, hback⟩

/-- What is left of a deterministic automaton is deterministic. -/
theorem IsPart.deterministic {keep : String → Prop} (h : IsPart keep a b) (ha : a.WellFormed)
    (hb : b.WellFormed) (hdet : b.Deterministic) : a.Deterministic where
  symbol_label e he := by
    obtain ⟨source, hsource⟩ := ha.exists_name?_eq (ha.edges_fit e he).source_mem
    obtain ⟨target, _, hjoined⟩ := ha.exists_joins he hsource
    obtain ⟨f, hf, _, hlabel, _⟩ := ((h.joins_iff _ _ _).mp hjoined).1
    rw [← hlabel]
    exact hdet.symbol_label f hf
  target_unique q label s t hs ht := by
    obtain ⟨source, hsource⟩ := ha.exists_name?_eq (ha.edges_fit _ hs).source_mem
    obtain ⟨first, hfirst, hsjoined⟩ := ha.exists_joins hs hsource
    obtain ⟨second, hsecond, htjoined⟩ := ha.exists_joins ht hsource
    have hbfirst : b.Joins source label first := ((h.joins_iff _ _ _).mp hsjoined).1
    have hbsecond : b.Joins source label second := ((h.joins_iff _ _ _).mp htjoined).1
    -- In the whole automaton the two targets are one state, so they have one name.
    obtain ⟨⟨r, _, x⟩, hx, hr, rfl, hxfirst⟩ := hbfirst
    obtain ⟨y, hy, hysecond⟩ := hb.exists_mem_edges_of_joins hbsecond hr
    obtain rfl := hdet.target_unique _ _ _ _ hx hy
    cases hxfirst.symm.trans hysecond
    exact ha.eq_of_name?_eq hfirst hsecond

/-! ## Automata given by lists -/

section Listed

variable {alphabet : Alphabet} {names finals : List String} {edges : OrderedSet Edge}

theorem name?_listed_idxOf (h : name ∈ names) :
    (listed alphabet names finals edges).name? (names.idxOf name) = some name := by
  rw [name?_listed, List.getElem?_idxOf h]

theorem startName?_listed : (listed alphabet names finals edges).startName? = names.head? := by
  unfold startName?
  cases names with
  | nil => rfl
  | cons name rest => exact name?_listed

theorem acceptsAt_listed_iff :
    (listed alphabet names finals edges).AcceptsAt name ↔ name ∈ names ∧ name ∈ finals := by
  simp only [AcceptsAt, name?_listed, isAccepting_listed]
  constructor
  · rintro ⟨q, hq, final, hfinal, hqfinal⟩
    cases hq.symm.trans hqfinal
    exact ⟨List.mem_of_getElem? hq, hfinal⟩
  · rintro ⟨hname, hfinal⟩
    have hq : names[names.idxOf name]? = some name := List.getElem?_idxOf hname
    exact ⟨_, hq, name, hfinal, hq⟩

end Listed

end FiniteState.Automaton
