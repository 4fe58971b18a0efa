import FiniteState.Proofs.Automaton.ByName
import FiniteState.Proofs.Automaton.Residual
import Mathlib.Data.Set.Function

/-! # Automata that differ in ids

Constructions that meet the same things in another order give them other ids. Two automata, or
regions of them, are isomorphic if a renaming of the states carries over the start, acceptance and
the edges. Words then lead to corresponding states. Where a construction makes one state out of
each state, the names can be kept.
-/

namespace FiniteState.Automaton

/-- Renaming the states of a region of one automaton gives a region of another, with the same
start, accepting states and edges. -/
structure IsIsoOn (f : StateId → StateId) (A B : Set StateId) (a b : Automaton) : Prop where
  alphabet_eq : b.alphabet = a.alphabet
  bijOn : Set.BijOn f A B
  start_eq : b.start = a.start.map f
  isAccepting_eq : ∀ q ∈ A, b.isAccepting (f q) = a.isAccepting q
  mem_edges_iff : ∀ q ∈ A, ∀ label, ∀ t ∈ A,
    ⟨f q, label, f t⟩ ∈ b.edges ↔ ⟨q, label, t⟩ ∈ a.edges

/-- Renaming its states makes one automaton another. -/
def IsIso (f : StateId → StateId) (a b : Automaton) : Prop :=
  IsIsoOn f {q | q ∈ a} {q | q ∈ b} a b

variable {a b : Automaton} {f : StateId → StateId} {A B : Set StateId} {q r s t : StateId}
  {w : List Char} {name : String}

theorem isIso_id (a : Automaton) : IsIso id a a where
  alphabet_eq := rfl
  bijOn := Set.bijOn_id _
  start_eq := (Option.map_id_apply).symm
  isAccepting_eq _ _ := rfl
  mem_edges_iff _ _ _ _ _ := .rfl

/-- Deterministic automata have corresponding edges if they have them for the symbols. -/
theorem Deterministic.mem_edges_congr (ha : a.Deterministic) (hb : b.Deterministic)
    (h : ∀ c, ⟨q, .symbol c, r⟩ ∈ a.edges ↔ ⟨s, .symbol c, t⟩ ∈ b.edges) (label : Label) :
    ⟨q, label, r⟩ ∈ a.edges ↔ ⟨s, label, t⟩ ∈ b.edges := by
  cases label with
  | epsilon =>
    exact iff_of_false (fun he => ha.symbol_label _ he rfl) fun he => hb.symbol_label _ he rfl
  | symbol c => exact h c

/-! ## Words -/

section Words

variable (h : IsIsoOn f A B a b)

include h

/-- If no edge enters the region, a path that ends in it lies in it and carries over. -/
theorem IsIsoOn.path (hA : ∀ e ∈ a.edges, e.target ∈ A → e.source ∈ A)
    (hp : Path a.edgeSet q w t) (ht : t ∈ A) : q ∈ A ∧ Path b.edgeSet (f q) w (f t) := by
  induction hp with
  | refl => exact ⟨ht, .refl _⟩
  | silent he _ ih =>
    obtain ⟨hr, hp⟩ := ih ht
    have hq := hA _ he hr
    exact ⟨hq, .silent ((h.mem_edges_iff _ hq _ _ hr).mpr he) hp⟩
  | consume he _ ih =>
    obtain ⟨hr, hp⟩ := ih ht
    have hq := hA _ he hr
    exact ⟨hq, .consume ((h.mem_edges_iff _ hq _ _ hr).mpr he) hp⟩

theorem IsIsoOn.exists_path (hB : ∀ e ∈ b.edges, e.target ∈ B → e.source ∈ B) (ht : t ∈ A)
    (hp : Path b.edgeSet r w (f t)) : ∃ q ∈ A, f q = r ∧ Path a.edgeSet q w t := by
  generalize hs : f t = s at hp
  induction hp with
  | refl => exact ⟨t, ht, hs, .refl t⟩
  | silent he _ ih =>
    obtain ⟨p, hp, rfl, hpath⟩ := ih hs
    obtain ⟨q, hq, rfl⟩ := h.bijOn.surjOn (hB _ he (h.bijOn.mapsTo hp))
    exact ⟨q, hq, rfl, .silent ((h.mem_edges_iff q hq _ p hp).mp he) hpath⟩
  | consume he _ ih =>
    obtain ⟨p, hp, rfl, hpath⟩ := ih hs
    obtain ⟨q, hq, rfl⟩ := h.bijOn.surjOn (hB _ he (h.bijOn.mapsTo hp))
    exact ⟨q, hq, rfl, .consume ((h.mem_edges_iff q hq _ p hp).mp he) hpath⟩

/-- If no edge enters the regions, the same words lead to corresponding states. -/
theorem IsIsoOn.mem_reachedBy_iff (hstart : ∀ q ∈ a.start, q ∈ A)
    (hA : ∀ e ∈ a.edges, e.target ∈ A → e.source ∈ A)
    (hB : ∀ e ∈ b.edges, e.target ∈ B → e.source ∈ B) (ht : t ∈ A) :
    f t ∈ b.reachedBy w ↔ t ∈ a.reachedBy w := by
  constructor
  · rintro ⟨r, hr, hp⟩
    obtain ⟨p, hp', rfl, hpath⟩ := h.exists_path hB ht hp
    rw [h.start_eq] at hr
    obtain ⟨q, hq, hqp⟩ := Option.map_eq_some_iff.mp hr
    obtain rfl := h.bijOn.injOn (hstart q hq) hp' hqp
    exact ⟨q, hq, hpath⟩
  · rintro ⟨q, hq, hp⟩
    refine ⟨f q, ?_, (h.path hA hp ht).2⟩
    rw [h.start_eq]
    exact Option.map_eq_some_iff.mpr ⟨q, hq, rfl⟩

end Words

/-! ## Names -/

/-- Where names are kept, a state with a name is the image of the state with it. -/
theorem IsIsoOn.exists_of_name? (h : IsIsoOn f A {q | q ∈ b} a b) (hb : b.WellFormed)
    (hname : ∀ q ∈ A, b.name? (f q) = a.name? q) (hr : b.name? r = some name) :
    ∃ q ∈ A, f q = r ∧ a.name? q = some name := by
  obtain ⟨q, hq, rfl⟩ := h.bijOn.surjOn (hb.mem_of_name? hr)
  exact ⟨q, hq, rfl, (hname q hq).symm.trans hr⟩

section Named

variable (ha : a.WellFormed) (hb : b.WellFormed)

include ha hb

/-- Where names are kept, a region that contains the start is a part by name. -/
theorem IsIsoOn.isPart (h : IsIsoOn f A {q | q ∈ b} a b) (hstart : ∀ q ∈ a.start, q ∈ A)
    (hname : ∀ q ∈ A, b.name? (f q) = a.name? q) :
    IsPart (fun name => ∃ q ∈ A, a.name? q = some name) b a := by
  have hnamed {q : StateId} {name : String} (hq : q ∈ A) (h : a.name? q = some name) :
      b.name? (f q) = some name := (hname q hq).trans h
  refine ⟨hb.names_nodup, ha.names_nodup, h.alphabet_eq, ?_, ?_, ?_, ?_⟩
  · rw [startName?, startName?, h.start_eq]
    cases hq : a.start with
    | none => rfl
    | some q => exact hname q (hstart q hq)
  · intro name
    rw [hb.mem_names_iff, ha.mem_names_iff]
    constructor
    · rintro ⟨r, hr⟩
      obtain ⟨q, hq, _, hqname⟩ := h.exists_of_name? hb hname hr
      exact ⟨⟨q, hqname⟩, q, hq, hqname⟩
    · rintro ⟨_, q, hq, hqname⟩
      exact ⟨f q, hnamed hq hqname⟩
  · intro name
    constructor
    · rintro ⟨r, hr, haccepting⟩
      obtain ⟨q, hq, rfl, hqname⟩ := h.exists_of_name? hb hname hr
      exact ⟨⟨q, hqname, (h.isAccepting_eq q hq).symm.trans haccepting⟩, q, hq, hqname⟩
    · rintro ⟨⟨r, hr, haccepting⟩, q, hq, hqname⟩
      obtain rfl := ha.eq_of_name?_eq hqname hr
      exact ⟨f q, hnamed hq hqname, (h.isAccepting_eq q hq).trans haccepting⟩
  · intro source label target
    constructor
    · rintro ⟨⟨r, _, s⟩, he, hr, rfl, hs⟩
      obtain ⟨q, hq, rfl, hqname⟩ := h.exists_of_name? hb hname hr
      obtain ⟨t, ht, rfl, htname⟩ := h.exists_of_name? hb hname hs
      exact ⟨⟨_, (h.mem_edges_iff q hq _ t ht).mp he, hqname, rfl, htname⟩, ⟨q, hq, hqname⟩,
        t, ht, htname⟩
    · rintro ⟨⟨⟨r, _, s⟩, he, hr, rfl, hs⟩, ⟨q, hq, hqname⟩, t, ht, htname⟩
      obtain rfl := ha.eq_of_name?_eq hqname hr
      obtain rfl := ha.eq_of_name?_eq htname hs
      exact ⟨_, (h.mem_edges_iff q hq _ t ht).mpr he, hnamed hq hqname, rfl, hnamed ht htname⟩

/-- An isomorphism that moves no state keeps the ids. -/
theorem IsIso.ids_eq (h : IsIso f a b) (hself : ∀ q ∈ a, f q = q) : b.ids = a.ids := by
  refine hb.ids_ascending.eq_of_mem_iff ha.ids_ascending fun q => ?_
  constructor
  · intro hq
    obtain ⟨p, hp, rfl⟩ := h.bijOn.surjOn hq
    exact (hself p hp).symm ▸ hp
  · intro hq
    exact hself q hq ▸ h.bijOn.mapsTo hq

theorem IsIso.edges_eq (h : IsIso f a b) (hself : ∀ q ∈ a, f q = q) : b.edges = a.edges := by
  have hmem (q : StateId) : q ∈ b ↔ q ∈ a := by
    change q ∈ b.ids ↔ q ∈ a.ids
    rw [h.ids_eq ha hb hself]
  have hiff {q t : StateId} {label : Label} (hq : q ∈ a) (ht : t ∈ a) :
      ⟨q, label, t⟩ ∈ b.edges ↔ ⟨q, label, t⟩ ∈ a.edges := by
    have hiso := h.mem_edges_iff q hq label t ht
    rwa [hself q hq, hself t ht] at hiso
  ext e
  constructor
  · intro he
    have hfits := hb.edges_fit _ he
    exact (hiff ((hmem _).mp hfits.source_mem) ((hmem _).mp hfits.target_mem)).mp he
  · intro he
    have hfits := ha.edges_fit _ he
    exact (hiff hfits.source_mem hfits.target_mem).mpr he

/-- An isomorphism that moves no state and keeps the names is an equality, up to the next id. -/
theorem IsIso.eq_of_eq_self (h : IsIso f a b) (hself : ∀ q ∈ a, f q = q)
    (hname : ∀ q ∈ a, b.name? q = a.name? q) (hnext : b.nextId = a.nextId) : b = a := by
  have hids := h.ids_eq ha hb hself
  have hstates : b.states = a.states := by
    rw [ha.states_eq_map, hb.states_eq_map, hids]
    refine List.map_congr_left fun q hq => ?_
    have haccepting : b.isAccepting q = a.isAccepting q := by
      rw [← h.isAccepting_eq q hq, hself q hq]
    rw [hname q hq, haccepting]
  have hstart : b.start = a.start := by
    rw [h.start_eq]
    cases hq : a.start with
    | none => rfl
    | some q => rw [Option.map_some, hself q (ha.start_mem q hq)]
  have hedges := h.edges_eq ha hb hself
  have halphabet := h.alphabet_eq
  cases a
  cases b
  simp_all only

end Named

/-! ## Names of single states -/

theorem joint_namesOf_singleton (h : a.name? q = some name) :
    Naming.joint (a.namesOf [q]) = name := by
  simp [namesOf, h]

section Names

variable {β : Type} {xs : List β} {members : β → List StateId} {i : Nat} {x : β}

/-- Where each of several things consists of one state, and no two of the same, the things get the
names of their states. -/
theorem WellFormed.getElem?_distinct_joint (ha : a.WellFormed) (hnodup : (xs.map members).Nodup)
    (hone : ∀ x ∈ xs, ∃ q ∈ a, members x = [q]) (hx : xs[i]? = some x) (hq : members x = [q]) :
    (Naming.distinct (xs.map fun x => Naming.joint (a.namesOf (members x))))[i]? = a.name? q := by
  have hjoint (x : β) (hx : x ∈ xs) : ∃ q name, members x = [q] ∧ a.name? q = some name ∧
      Naming.joint (a.namesOf (members x)) = name := by
    obtain ⟨q, hq, hmembers⟩ := hone x hx
    obtain ⟨name, hname⟩ := ha.exists_name?_eq hq
    exact ⟨q, name, hmembers, hname, by rw [hmembers, joint_namesOf_singleton hname]⟩
  have hnames : (xs.map fun x => Naming.joint (a.namesOf (members x))).Nodup := by
    refine List.Nodup.map_on ?_ hnodup.of_map
    intro x hx y hy hxy
    obtain ⟨q, first, hqx, hq, hfirst⟩ := hjoint x hx
    obtain ⟨r, second, hry, hr, hsecond⟩ := hjoint y hy
    obtain rfl : first = second := hfirst.symm.trans (hxy.trans hsecond)
    have hsame : members x = members y := by rw [hqx, hry, ha.eq_of_name?_eq hq hr]
    exact List.inj_on_of_nodup_map hnodup hx hy hsame
  obtain ⟨r, name, hr, hname, hxname⟩ := hjoint x (List.mem_of_getElem? hx)
  cases hq.symm.trans hr
  rw [Naming.distinct_eq_self hnames, List.getElem?_map, hx, Option.map_some, hxname, hname]

end Names

end FiniteState.Automaton
