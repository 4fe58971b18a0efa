import FiniteState.Proofs.Automaton.Isomorphism
import FiniteState.Proofs.Partition.Minimal

/-! # Reduced quotients

Without a limit, minimizing leaves two different states together exactly if their walks agree on
all words. Walks of the quotient agree only if those of the members do, so minimizing the quotient
merges nothing: every class is a single state, and the quotient of the quotient differs from it in
the order of the states only.
-/

namespace FiniteState

namespace Automaton

variable {a : Automaton} {q r s t : StateId} {u v : List Char}

/-- Walks agree on a word if they agree from where its first part leads. -/
theorem WalksAgree.of_walk (h : a.WalksAgree s t v) (hq : a.walk q u = some s)
    (hr : a.walk r u = some t) : a.WalksAgree q r (u ++ v) := by
  have hqv (x : List Char) : a.walk q (u ++ x) = a.walk s x := by rw [walk_append, hq]; rfl
  have hrv (x : List Char) : a.walk r (u ++ x) = a.walk t x := by rw [walk_append, hr]; rfl
  rcases h with ⟨x, hx, y, hs, ht⟩ | ⟨x, y, hs, ht, hxy⟩
  · exact .inl ⟨u ++ x, (List.prefix_append_right_inj u).mpr hx, y, (hqv x).trans hs,
      (hrv x).trans ht⟩
  · exact .inr ⟨x, y, (hqv v).trans hs, (hrv v).trans ht, hxy⟩

end Automaton

namespace Partition

variable {a : Automaton} {p : Partition} {q r : StateId} {c : Char} {i j : Nat} {w : List Char}

/-! ## Partitions that tell apart what words tell apart -/

/-- A stable partition that leaves different states together exactly if their walks agree on all
words. -/
structure Settled (p : Partition) (a : Automaton) : Prop extends p.Stable a where
  sameClass_iff_walksAgree : ∀ q ∈ a, ∀ r ∈ a, q ≠ r →
    (p.SameClass q r ↔ ∀ w ∈ a.words, a.WalksAgree q r w)

theorem settled_iterate_size (ha : a.WellFormed) :
    ((refine a)^[a.size] (byAcceptance a)).Settled a where
  toStable := stable_iterate_size ha
  sameClass_iff_walksAgree _ hq _ hr hne :=
    (sameClass_limit_iff ha hq hr hne none).trans (forall₂_congr fun _ _ => by simp)

/-- Minimizing without a limit gives a settled partition. -/
theorem exists_minimize_eq_ok_settled (ha : a.WellFormed) (hdet : a.isDeterministic = true) :
    ∃ p, minimize a none = .ok p ∧ p.Settled a :=
  ⟨_, minimize_eq_ok hdet none, settled_iterate_size ha⟩

namespace Settled

variable (hp : p.Settled a) (ha : a.WellFormed)

include hp ha

/-- Where the walks of two classes agree, so do those of their members. -/
theorem walksAgree_of_quotient (hq : q ∈ a) (hr : r ∈ a) (hi : p.lastClass? q = some i)
    (hj : p.lastClass? r = some j) (hw : w ∈ a.words)
    (h : (p.quotient a).WalksAgree i j w) : a.WalksAgree q r w := by
  rcases h with ⟨u, ⟨v, rfl⟩, k, hik, hjk⟩ | ⟨k, l, hik, hjl, haccepting⟩
  · rw [hp.walk_quotient ha hi] at hik
    rw [hp.walk_quotient ha hj] at hjk
    obtain ⟨s, hs, hsk⟩ := Option.bind_eq_some_iff.mp hik
    obtain ⟨t, ht, htk⟩ := Option.bind_eq_some_iff.mp hjk
    -- The members that the prefix leads to are in one class, so they agree on the rest.
    have hrest : a.WalksAgree s t v := by
      by_cases hne : s = t
      · exact hne ▸ Automaton.walksAgree_self s v
      · have hsame : p.SameClass s t :=
          (sameClass_iff (hp.covers.nodup ha)).mpr ⟨k, hsk, htk⟩
        exact (hp.sameClass_iff_walksAgree s (ha.mem_of_walk hq hs) t (ha.mem_of_walk hr ht)
          hne).mp hsame v (List.forall_mem_append.mp hw).2
    exact hrest.of_walk hs ht
  · rw [hp.walk_quotient ha hi] at hik
    rw [hp.walk_quotient ha hj] at hjl
    obtain ⟨s, hs, hsk⟩ := Option.bind_eq_some_iff.mp hik
    obtain ⟨t, ht, htl⟩ := Option.bind_eq_some_iff.mp hjl
    refine .inr ⟨s, t, hs, ht, ?_⟩
    rw [← hp.isAccepting_quotient hsk, haccepting, hp.isAccepting_quotient htl]

/-- No two classes of a settled partition are together in a settled partition of the quotient. -/
theorem eq_of_sameClass_quotient {p' : Partition} (hp' : p'.Settled (p.quotient a))
    (h : p'.SameClass i j) : i = j := by
  by_contra hne
  obtain ⟨hi, hj⟩ := hp'.covers.mem_of_sameClass h
  obtain ⟨q, hq, hqi⟩ := hp.exists_mem_of_mem_quotient ha hi
  obtain ⟨r, hr, hrj⟩ := hp.exists_mem_of_mem_quotient ha hj
  have hqr : q ≠ r := by
    rintro rfl
    exact hne (Option.some.inj (hqi.symm.trans hrj))
  have hsame : p.SameClass q r := by
    refine (hp.sameClass_iff_walksAgree q hq r hr hqr).mpr fun w hw => ?_
    have hagree := (hp'.sameClass_iff_walksAgree i hi j hj hne).mp h w hw
    exact hp.walksAgree_of_quotient ha hq hr hqi hrj hw hagree
  obtain ⟨k, hqk, hrk⟩ := (sameClass_iff (hp.covers.nodup ha)).mp hsame
  exact hne (Option.some.inj (hqi.symm.trans (hqk.trans (hrk.symm.trans hrj))))

end Settled

/-! ## Classes of one state -/

/-- Every class has one state. -/
def Discrete (p : Partition) : Prop := ∀ b ∈ p.blocks, ∃ q, b.toList = [q]

theorem discrete_of_sameClass (hp : p.entries.Nodup) (h : ∀ q r, p.SameClass q r → q = r) :
    p.Discrete := by
  intro b hb
  refine ⟨b.representative, ?_⟩
  cases hothers : b.others with
  | nil => rw [Block.toList, hothers]
  | cons r rest =>
    have hr : r ∈ b.others := hothers ▸ List.mem_cons_self
    have hsame := h b.representative r ⟨b, hb, List.mem_cons_self, List.mem_cons_of_mem _ hr⟩
    have hnodup := nodup_of_mem_blocks hp hb
    rw [Block.toList, List.nodup_cons] at hnodup
    exact absurd (hsame ▸ hr) hnodup.1

theorem Discrete.toList_eq {b : Block} (hone : p.Discrete) (hb : b ∈ p.blocks) :
    b.toList = [b.representative] := by
  obtain ⟨q, hq⟩ := hone b hb
  obtain ⟨rfl, -⟩ := List.cons.inj hq
  exact hq

theorem Discrete.entries_eq (hone : p.Discrete) : p.entries = p.blocks.map (·.representative) := by
  rw [entries, List.map_eq_flatMap]
  exact List.flatMap_congr fun b hb => hone.toList_eq hb

theorem Discrete.map_toList_eq (hone : p.Discrete) :
    p.blocks.map Block.toList = p.entries.map fun q => [q] := by
  rw [hone.entries_eq, List.map_map]
  exact List.map_congr_left fun b hb => hone.toList_eq hb

theorem Discrete.eq_of_sameClass (hone : p.Discrete) (h : p.SameClass q r) : q = r := by
  obtain ⟨b, hb, hq, hr⟩ := h
  obtain ⟨s, hs⟩ := hone b hb
  rw [← Block.mem_toList, hs, List.mem_singleton] at hq hr
  rw [hq, hr]

theorem Discrete.size_eq (hone : p.Discrete) (hp : p.Covers a) : p.size = a.size := by
  have hlength := List.Perm.length_eq hp
  rwa [hone.entries_eq, List.length_map, Automaton.length_ids] at hlength

namespace Stable

variable (hp : p.Stable a) (hone : p.Discrete) (ha : a.WellFormed)

include hp hone ha

/-- The quotient by classes of one state has the states of the automaton, numbered anew. -/
theorem isIso_quotient (hdet : a.Deterministic) :
    Automaton.IsIso (fun q => (p.lastClass? q).getD 0) a (p.quotient a) where
  alphabet_eq := rfl
  bijOn := by
    refine ⟨?_, ?_, ?_⟩
    · intro q hq
      obtain ⟨i, hi⟩ := exists_lastClass?_of_mem hp.covers hq
      simp only [hi, Option.getD_some]
      exact mem_quotient_iff.mpr (lt_size_of_lastClass? hi)
    · intro q hq r hr hqr
      obtain ⟨i, hi⟩ := exists_lastClass?_of_mem hp.covers hq
      obtain ⟨j, hj⟩ := exists_lastClass?_of_mem hp.covers hr
      obtain rfl : i = j := by simpa [hi, hj] using hqr
      exact hone.eq_of_sameClass ((sameClass_iff (hp.covers.nodup ha)).mpr ⟨i, hi, hj⟩)
    · intro i hi
      obtain ⟨q, hq, hi⟩ := hp.exists_mem_of_mem_quotient ha hi
      exact ⟨q, hq, by simp [hi]⟩
  start_eq := by
    rw [hp.covers.start_quotient ha]
    cases hstart : a.start with
    | none => rfl
    | some q =>
      obtain ⟨i, hi⟩ := exists_lastClass?_of_mem hp.covers (ha.start_mem q hstart)
      simp [hi]
  isAccepting_eq q hq := by
    obtain ⟨i, hi⟩ := exists_lastClass?_of_mem hp.covers hq
    simpa [hi] using hp.isAccepting_quotient hi
  mem_edges_iff q hq label t ht := by
    obtain ⟨i, hi⟩ := exists_lastClass?_of_mem hp.covers hq
    obtain ⟨j, hj⟩ := exists_lastClass?_of_mem hp.covers ht
    simp only [hi, hj, Option.getD_some]
    refine (deterministic_quotient a p).mem_edges_congr hdet (fun c => ?_) label
    rw [← hdet.successor?_eq_some_iff, ← (deterministic_quotient a p).successor?_eq_some_iff,
      hp.successor?_quotient ha hi]
    constructor
    · intro h
      obtain ⟨s, hs, hsj⟩ := Option.bind_eq_some_iff.mp h
      rw [hs, hone.eq_of_sameClass ((sameClass_iff (hp.covers.nodup ha)).mpr ⟨j, hsj, hj⟩)]
    · intro h
      rw [h]
      exact hj

/-- A class of one state has the name of the state. -/
theorem name?_quotient (hq : q ∈ a) (hi : p.lastClass? q = some i) :
    (p.quotient a).name? i = a.name? q := by
  obtain ⟨b, hb, hqb⟩ := mem_of_lastClass? hi
  have hblocks : ∀ b ∈ p.blocks, ∃ q ∈ a, b.toList = [q] := by
    intro b hb
    have hmem : b.representative ∈ b := List.mem_cons_self
    exact ⟨b.representative, hp.covers.mem_iff.mp (mem_entries_iff.mpr ⟨b, hb, hmem⟩),
      hone.toList_eq hb⟩
  have hsingle : b.toList = [q] := by
    obtain ⟨r, _, hr⟩ := hblocks b (List.mem_of_getElem? hb)
    rw [← Block.mem_toList, hr, List.mem_singleton] at hqb
    rw [hr, hqb]
  have hnodup : (p.blocks.map Block.toList).Nodup := by
    rw [hone.map_toList_eq]
    exact (hp.covers.nodup ha).map List.singleton_injective
  have hname := ha.getElem?_distinct_joint hnodup hblocks hb hsingle
  obtain ⟨name, hqname⟩ := ha.exists_name?_eq hq
  rw [hqname] at hname ⊢
  exact (wellFormed_quotient a p).name?_numbered (states_quotient a p) hb hname

end Stable

/-! ## Minimizing twice -/

/-- Minimizing the quotient of an automaton by what minimizing it gives merges nothing more: all
classes have one state, and their quotient has the same states with the same names. -/
theorem quotient_reduced (ha : a.Built) (hdet : a.isDeterministic = true) :
    ∃ p p', minimize a none = .ok p ∧ minimize (p.quotient a) none = .ok p' ∧
      p'.Covers (p.quotient a) ∧ p'.Discrete ∧ p'.size = p.size ∧
      (∃ f, Automaton.IsIso f (p.quotient a) (p'.quotient (p.quotient a)) ∧
        ∀ i ∈ p.quotient a, (p'.quotient (p.quotient a)).name? (f i) = (p.quotient a).name? i) ∧
      ∀ q ∈ a, ∀ r ∈ a, p.SameClass q r ↔
        ∃ i j, p.lastClass? q = some i ∧ p.lastClass? r = some j ∧ p'.SameClass i j := by
  obtain ⟨p, hmin, hp⟩ := exists_minimize_eq_ok_settled ha.wellFormed hdet
  have hq : (p.quotient a).WellFormed := wellFormed_quotient a p
  have hqdet : (p.quotient a).Deterministic := deterministic_quotient a p
  obtain ⟨p', hmin', hp'⟩ := exists_minimize_eq_ok_settled hq (hq.isDeterministic_iff.mpr hqdet)
  have hone : p'.Discrete := discrete_of_sameClass (hp'.covers.nodup hq) fun _ _ =>
    hp.eq_of_sameClass_quotient ha.wellFormed hp'
  have hnames : ∀ i ∈ p.quotient a,
      (p'.quotient (p.quotient a)).name? ((p'.lastClass? i).getD 0) = (p.quotient a).name? i := by
    intro i hi
    obtain ⟨k, hk⟩ := exists_lastClass?_of_mem hp'.covers hi
    rw [hk, Option.getD_some, hp'.name?_quotient hone hq hi hk]
  refine ⟨p, p', hmin, hmin', hp'.covers, hone, ?_,
    ⟨_, hp'.isIso_quotient hone hq hqdet, hnames⟩, ?_⟩
  · rw [hone.size_eq hp'.covers, size_quotient]
  · intro q hqa r hra
    rw [sameClass_iff (hp.covers.nodup ha.wellFormed)]
    constructor
    · rintro ⟨i, hqi, hri⟩
      have hi : i ∈ p.quotient a := mem_quotient_iff.mpr (lt_size_of_lastClass? hqi)
      exact ⟨i, i, hqi, hri, sameClass_self_iff.mpr (hp'.covers.mem_iff.mpr hi)⟩
    · rintro ⟨i, j, hqi, hrj, hij⟩
      cases hone.eq_of_sameClass hij
      exact ⟨i, hqi, hrj⟩

/-- Two states that move alike, and two that cannot move on every symbol. -/
def partialTwins : Automaton := .ofEdits (.ofSymbols ['a', 'b'])
  [.addState "p" false, .addState "r" false, .addState "q" false, .addState "s" true,
    .addEdge 0 (.symbol 'a') 1, .addEdge 0 (.symbol 'b') 3, .addEdge 2 (.symbol 'a') 1,
    .addEdge 2 (.symbol 'b') 3, .addEdge 1 (.symbol 'a') 0]

theorem quotient_reduced_partialTwins :
    partialTwins.isDeterministic = true ∧ ¬partialTwins.Total ∧
      ∃ p p', minimize partialTwins none = .ok p ∧ p.toLists = [[0, 2], [1], [3]] ∧
        minimize (p.quotient partialTwins) none = .ok p' ∧ p'.Discrete ∧ p'.size = 3 := by
  have hdet : partialTwins.isDeterministic = true := by decide
  obtain ⟨p, p', hp, hp', _, hone, hsize, _⟩ :=
    quotient_reduced (Automaton.built_ofEdits _ _) hdet
  have hvalue : minimize partialTwins none = .ok ⟨[⟨0, [2]⟩, ⟨1, []⟩, ⟨3, []⟩]⟩ := by decide
  cases hp.symm.trans hvalue
  exact ⟨hdet, by decide, _, p', hvalue, rfl, hp', hone, hsize⟩

end Partition

end FiniteState
