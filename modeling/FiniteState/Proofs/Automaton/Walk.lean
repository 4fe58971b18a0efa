import FiniteState.Automaton.Determinism
import FiniteState.Proofs.Automaton.Acceptance

/-! # Walks of deterministic automata

A deterministic automaton has no silent edges and at most one target for each state and symbol,
so a word determines the walk from a state. It accepts exactly the words whose walk from the
start is defined and ends in an accepting state. In a total automaton the walks of all words over
the alphabet are defined.
-/

namespace FiniteState.Automaton

variable {a : Automaton} {q r s t : StateId} {c : Char} {u v w : List Char}

/-- Where a word leads from a state, one successor after the other. -/
def walk (a : Automaton) (q : StateId) : List Char → Option StateId
  | [] => some q
  | c :: w => a.successor? q c >>= fun r => walk a r w

@[simp] theorem walk_nil : a.walk q [] = some q := rfl

theorem walk_cons_eq_some_iff :
    a.walk q (c :: w) = some t ↔ ∃ r, a.successor? q c = some r ∧ a.walk r w = some t :=
  Option.bind_eq_some_iff

theorem walk_append : a.walk q (u ++ v) = a.walk q u >>= fun r => a.walk r v := by
  induction u generalizing q with
  | nil => rfl
  | cons c u ih =>
    change (a.successor? q c >>= fun r => a.walk r (u ++ v)) =
      (a.successor? q c >>= fun r => a.walk r u) >>= fun r => a.walk r v
    simp only [ih, bind_assoc]

theorem successor?_eq_some_iff_targets :
    a.successor? q c = some t ↔ a.targets q (.symbol c) = [t] := by
  unfold successor?
  split
  next x htargets => simp [htargets]
  next hmany => exact iff_of_false nofun (hmany t)

/-- Moves stay in the automaton and need a symbol. -/
theorem mem_of_successor? (ha : a.WellFormed) (h : a.successor? q c = some t) :
    c ∈ a.alphabet ∧ t ∈ a := by
  have ht : t ∈ a.targets q (.symbol c) := by
    unfold successor? at h
    split at h
    next x htargets =>
      cases h
      rw [htargets]
      exact List.mem_singleton_self _
    next => cases h
  have hfits := ha.edges_fit _ ((mem_targets a).mp ht)
  exact ⟨hfits.allowed, hfits.target_mem⟩

theorem successor?_eq_none (ha : a.WellFormed) (hc : c ∉ a.alphabet) : a.successor? q c = none :=
  Option.eq_none_iff_forall_ne_some.mpr fun _ ht => hc (mem_of_successor? ha ht).1

theorem WellFormed.mem_of_walk (ha : a.WellFormed) (hq : q ∈ a) (h : a.walk q w = some t) :
    t ∈ a := by
  induction w generalizing q with
  | nil =>
    cases h
    exact hq
  | cons c w ih =>
    obtain ⟨r, hr, hw⟩ := walk_cons_eq_some_iff.mp h
    exact ih (mem_of_successor? ha hr).2 hw

/-! ## Determinism -/

/-- Silent edges are absent, and a source and a label have one target. -/
structure Deterministic (a : Automaton) : Prop where
  symbol_label : ∀ e ∈ a.edges, e.label ≠ .epsilon
  target_unique : ∀ q label s t, ⟨q, label, s⟩ ∈ a.edges → ⟨q, label, t⟩ ∈ a.edges → s = t

theorem Deterministic.eq_of_source_label (ha : a.Deterministic) {e f : Edge} (he : e ∈ a.edges)
    (hf : f ∈ a.edges) (hsource : e.source = f.source) (hlabel : e.label = f.label) : e = f := by
  obtain ⟨source, label, s⟩ := e
  obtain ⟨_, _, t⟩ := f
  cases hsource
  cases hlabel
  rw [ha.target_unique source label s t he hf]

/-- The automaton with other edges. -/
def withEdges (a : Automaton) (edges : List Edge) : Automaton := { a with edges := .ofList edges }

/-- Where no other edge has the same source and label, replacing by an edge is adding it. -/
theorem relink_withEdges {edges : List Edge} {e : Edge}
    (h : ∀ f ∈ edges, f.source = e.source → f.label = e.label → f = e) :
    (a.withEdges edges).relink e = a.withEdges (edges ++ [e]) := by
  have hinsert : ((OrderedSet.ofList edges).filter fun f =>
      ¬(f.source = e.source ∧ f.label = e.label)).insert e = .ofList (edges ++ [e]) := by
    refine OrderedSet.ext fun f => ?_
    simp only [OrderedSet.mem_insert, OrderedSet.mem_filter, OrderedSet.mem_ofList,
      List.mem_append, List.mem_singleton, decide_eq_true_eq]
    rw [or_comm (a := f ∈ edges)]
    refine or_congr_right' fun hne => and_iff_left_of_imp fun hf => ?_
    rintro ⟨hsource, hlabel⟩
    exact hne (h f hf hsource hlabel)
  exact congrArg (fun edges => { a with edges }) hinsert

/-- The edges of a deterministic automaton can be put in one after the other, by steps each of which
puts in one edge or none. -/
theorem Deterministic.foldlM_withEdges (hdet : a.Deterministic) (ha : a.WellFormed) {β : Type}
    {f : Automaton → β → Option Automaton} {edge? : β → Option Edge} {xs : List β}
    (hnone : ∀ x ∈ xs, ∀ b, edge? x = none → f b x = some b)
    (hsome : ∀ x ∈ xs, ∀ b e, edge? x = some e → e ∈ a.edges ∧
      ∃ q c t, e = ⟨q, .symbol c, t⟩ ∧ f b x = (b.replaceEdges q c t).toOption)
    {edges : List Edge} (hedges : ∀ e ∈ edges, e ∈ a.edges) :
    xs.foldlM f (a.withEdges edges) = some (a.withEdges (edges ++ xs.filterMap edge?)) := by
  induction xs generalizing edges with
  | nil => simp
  | cons x xs ih =>
    obtain ⟨hnone, hnones⟩ := List.forall_mem_cons.mp hnone
    obtain ⟨hsome, hsomes⟩ := List.forall_mem_cons.mp hsome
    rw [List.foldlM_cons]
    cases hx : edge? x with
    | none =>
      rw [hnone _ hx, List.filterMap_cons_none hx]
      exact ih hnones hsomes hedges
    | some e =>
      obtain ⟨he, q, c, t, rfl, hstep⟩ := hsome (a.withEdges edges) e hx
      have hfits := ha.edges_fit _ he
      have hreplace : (a.withEdges edges).replaceEdges q c t =
          .ok (a.withEdges (edges ++ [⟨q, .symbol c, t⟩])) :=
        replaceEdges_eq_ok_iff.mpr ⟨⟨hfits.allowed, hfits.source_mem, hfits.target_mem⟩,
          relink_withEdges fun f hf => hdet.eq_of_source_label (hedges f hf) he⟩
      have hmore : ∀ f ∈ edges ++ [⟨q, .symbol c, t⟩], f ∈ a.edges :=
        List.forall_mem_append.mpr ⟨hedges, List.forall_mem_singleton.mpr he⟩
      rw [hstep, hreplace, List.filterMap_cons_some hx,
        List.append_cons edges _ (xs.filterMap edge?)]
      exact ih hnones hsomes hmore

theorem nodup_targets (label : Label) : (a.targets q label).Nodup := by
  refine List.Nodup.map_on ?_ ((a.edges.nodup.filter _).filter _)
  intro e he f hf htarget
  simp only [edgesFrom, List.mem_filter, decide_eq_true_eq] at he hf
  cases e
  cases f
  simp_all

theorem hasChoice_iff {label : Label} :
    a.HasChoice q label ↔
      label = .epsilon ∨ ∃ s t, s ≠ t ∧ ⟨q, label, s⟩ ∈ a.edges ∧ ⟨q, label, t⟩ ∈ a.edges := by
  have hnodup : (a.targets q label).Nodup := nodup_targets label
  simp only [HasChoice, ← mem_targets]
  refine or_congr_right ?_
  -- Targets are listed once, so a second entry is another target.
  generalize a.targets q label = targets at hnodup
  match targets with
  | [] => simp
  | [x] => simp
  | x :: y :: rest =>
    have hxy : x ≠ y := by
      rintro rfl
      simp at hnodup
    simpa using ⟨x, y, hxy, .inl rfl, .inr (.inl rfl)⟩

theorem nondeterminism?_eq_none_iff :
    a.nondeterminism? = none ↔ ∀ s ∈ a.states, ∀ e ∈ a.edges, e.source = s.id →
      ¬a.HasChoice s.id e.label := by
  simp only [nondeterminism?, choiceAt?, List.findSome?_eq_none_iff, Option.map_eq_none_iff,
    List.find?_eq_none, List.mem_map, mem_edgesFrom, decide_eq_true_eq]
  constructor
  · rintro h s hs e he hsource
    exact h s hs e.label ⟨e, ⟨he, hsource⟩, rfl⟩
  · rintro h s hs label ⟨e, ⟨he, hsource⟩, rfl⟩
    exact h s hs e he hsource

/-- An offence is at a state that has an edge with the label. -/
theorem exists_edge_of_nondeterminism? {offence : Nondeterminism}
    (h : a.nondeterminism? = some offence) :
    offence.state ∈ a.states ∧
      ∃ e ∈ a.edges, e.source = offence.state.id ∧ e.label = offence.label := by
  obtain ⟨s, hs, hchoice⟩ := List.exists_of_findSome?_eq_some h
  obtain ⟨label, hlabel, rfl⟩ := Option.map_eq_some_iff.mp hchoice
  obtain ⟨e, he, rfl⟩ := List.mem_map.mp (List.mem_of_find?_eq_some hlabel)
  obtain ⟨he, hsource⟩ := (mem_edgesFrom a).mp he
  exact ⟨hs, e, he, hsource, rfl⟩

theorem WellFormed.isDeterministic_iff (ha : a.WellFormed) :
    a.isDeterministic = true ↔ a.Deterministic := by
  rw [isDeterministic, Option.isNone_iff_eq_none, nondeterminism?_eq_none_iff]
  simp only [hasChoice_iff, not_or, not_exists, not_and]
  constructor
  · intro h
    have hsource (e : Edge) (he : e ∈ a.edges) : ∃ s ∈ a.states, s.id = e.source :=
      mem_iff.mp (ha.edges_fit e he).source_mem
    refine ⟨?_, ?_⟩
    · intro e he
      obtain ⟨s, hs, hid⟩ := hsource e he
      exact (h s hs e he hid.symm).1
    · intro q label s t hqs hqt
      by_contra hst
      obtain ⟨x, hx, hid⟩ := hsource _ hqs
      subst hid
      exact (h x hx _ hqs rfl).2 s t hst hqs hqt
  · intro h x hx e he hsource
    refine ⟨h.symbol_label e he, ?_⟩
    intro s t hst hqs hqt
    exact hst (h.target_unique _ _ s t hqs hqt)

namespace Deterministic

variable (ha : a.Deterministic)

include ha

theorem successor?_eq_some_iff : a.successor? q c = some t ↔ ⟨q, .symbol c, t⟩ ∈ a.edges := by
  have hunique : ∀ x ∈ a.targets q (.symbol c), ∀ y ∈ a.targets q (.symbol c), x = y := by
    intro x hx y hy
    exact ha.target_unique _ _ x y ((mem_targets a).mp hx) ((mem_targets a).mp hy)
  have hnodup : (a.targets q (.symbol c)).Nodup := nodup_targets _
  rw [← mem_targets, successor?]
  generalize a.targets q (.symbol c) = targets at hunique hnodup
  match targets with
  | [] => simp
  | [x] => simp [eq_comm]
  | x :: y :: rest =>
    have hxy : x = y := hunique x (by simp) y (by simp)
    subst hxy
    simp at hnodup

theorem path_iff_walk : Path a.edgeSet q w t ↔ a.walk q w = some t := by
  constructor
  · intro hp
    induction hp with
    | refl => rfl
    | silent he => exact absurd rfl (ha.symbol_label _ he)
    | consume he _ ih =>
      exact walk_cons_eq_some_iff.mpr ⟨_, ha.successor?_eq_some_iff.mpr he, ih⟩
  · intro hw
    induction w generalizing q with
    | nil =>
      cases hw
      exact .refl _
    | cons c w ih =>
      obtain ⟨r, hr, hw⟩ := walk_cons_eq_some_iff.mp hw
      exact .consume (ha.successor?_eq_some_iff.mp hr) (ih hw)

end Deterministic

/-! ## Total automata -/

/-- Every state has a move on every symbol. -/
def Total (a : Automaton) : Prop := ∀ q ∈ a, ∀ c ∈ a.alphabet, ∃ t, a.successor? q c = some t

instance (a : Automaton) : Decidable a.Total :=
  decidable_of_iff
    (a.ids.all (fun q => a.alphabet.toList.all fun c => (a.successor? q c).isSome) = true) <| by
      simp only [List.all_eq_true, Option.isSome_iff_exists]
      rfl

theorem Total.exists_walk (htotal : a.Total) (ha : a.WellFormed) (hq : q ∈ a)
    (hw : ∀ c ∈ w, c ∈ a.alphabet) : ∃ t, a.walk q w = some t := by
  induction w generalizing q with
  | nil => exact ⟨q, rfl⟩
  | cons c w ih =>
    rw [List.forall_mem_cons] at hw
    obtain ⟨r, hr⟩ := htotal q hq c hw.1
    obtain ⟨t, ht⟩ := ih (mem_of_successor? ha hr).2 hw.2
    exact ⟨t, walk_cons_eq_some_iff.mpr ⟨r, hr, ht⟩⟩

/-! ## Acceptance -/

/-- Whether the walk of a word from a state is defined and ends in an accepting state. -/
def AcceptsFrom (a : Automaton) (q : StateId) (w : List Char) : Prop :=
  ∃ t, a.walk q w = some t ∧ a.isAccepting t = true

theorem WellFormed.accepts_iff_walk (ha : a.WellFormed) (hdet : a.Deterministic) :
    a.accepts w = true ↔ ∃ q ∈ a.start, a.AcceptsFrom q w := by
  simp only [ha.accepts_iff_path, hdet.path_iff_walk, AcceptsFrom]

end FiniteState.Automaton
