import FiniteState.Proofs.Automaton.Built
import FiniteState.Proofs.Partition.Refinement

/-! # Words that tell states apart

Two walks on a word agree if they meet on the way, or if both get through and end alike. After a
number of rounds two states are together exactly if their walks agree on every word that is no
longer than this number, and without a limit exactly if they agree on every word.
-/

namespace FiniteState

variable {a : Automaton} {q r s t : StateId} {c : Char} {w : List Char} {k : Nat}

namespace Automaton

/-! ## Agreement of walks -/

/-- A prefix of the word leads both states to the same one. -/
def WalksMeet (a : Automaton) (q r : StateId) (w : List Char) : Prop :=
  ∃ u, u <+: w ∧ ∃ s, a.walk q u = some s ∧ a.walk r u = some s

/-- The word leads both states on, to states of which both or none are accepting. -/
def WalksEndAlike (a : Automaton) (q r : StateId) (w : List Char) : Prop :=
  ∃ s t, a.walk q w = some s ∧ a.walk r w = some t ∧ a.isAccepting s = a.isAccepting t

def WalksAgree (a : Automaton) (q r : StateId) (w : List Char) : Prop :=
  a.WalksMeet q r w ∨ a.WalksEndAlike q r w

theorem walksAgree_self (q : StateId) (w : List Char) : a.WalksAgree q q w :=
  .inl ⟨[], List.nil_prefix, q, rfl, rfl⟩

theorem walksMeet_nil_iff : a.WalksMeet q r [] ↔ q = r := by
  constructor
  · intro h
    obtain ⟨u, hu, s, hq, hr⟩ := h
    rw [List.prefix_nil.mp hu] at hq hr
    exact Option.some.inj (hq.trans hr.symm)
  · rintro rfl
    exact ⟨[], List.prefix_rfl, q, rfl, rfl⟩

theorem walksAgree_nil_iff (hne : q ≠ r) :
    a.WalksAgree q r [] ↔ a.isAccepting q = a.isAccepting r := by
  simp [WalksAgree, walksMeet_nil_iff, hne, WalksEndAlike]

/-- The walks of two different states agree on a word if both can take its first step, and then
agree on the rest. -/
theorem walksAgree_cons_iff (hne : q ≠ r) :
    a.WalksAgree q r (c :: w) ↔ ∃ s t, a.successor? q c = some s ∧ a.successor? r c = some t ∧
      a.WalksAgree s t w := by
  constructor
  · rintro (⟨u, hu, x, hq, hr⟩ | ⟨x, y, hq, hr, hxy⟩)
    · cases u with
      | nil => exact absurd (Option.some.inj (hq.trans hr.symm)) hne
      | cons d u =>
        obtain ⟨rfl, huw⟩ := List.cons_prefix_cons.mp hu
        obtain ⟨s, hs, hq⟩ := walk_cons_eq_some_iff.mp hq
        obtain ⟨t, ht, hr⟩ := walk_cons_eq_some_iff.mp hr
        exact ⟨s, t, hs, ht, .inl ⟨u, huw, x, hq, hr⟩⟩
    · obtain ⟨s, hs, hq⟩ := walk_cons_eq_some_iff.mp hq
      obtain ⟨t, ht, hr⟩ := walk_cons_eq_some_iff.mp hr
      exact ⟨s, t, hs, ht, .inr ⟨x, y, hq, hr, hxy⟩⟩
  · intro h
    obtain ⟨s, t, hs, ht, ⟨u, hu, x, hq, hr⟩ | ⟨x, y, hq, hr, hxy⟩⟩ := h
    · exact .inl ⟨c :: u, List.cons_prefix_cons.mpr ⟨rfl, hu⟩, x,
        walk_cons_eq_some_iff.mpr ⟨s, hs, hq⟩, walk_cons_eq_some_iff.mpr ⟨t, ht, hr⟩⟩
    · exact .inr ⟨x, y, walk_cons_eq_some_iff.mpr ⟨s, hs, hq⟩,
        walk_cons_eq_some_iff.mpr ⟨t, ht, hr⟩, hxy⟩

/-! ## Total automata -/

theorem WalksMeet.walk_eq (h : a.WalksMeet q r w) : a.walk q w = a.walk r w := by
  obtain ⟨u, ⟨v, rfl⟩, s, hq, hr⟩ := h
  rw [walk_append, walk_append, hq, hr]

/-- Where no walk gets stuck, walks agree on a word if both states accept it or both do not. -/
theorem Total.walksAgree_iff (htotal : a.Total) (ha : a.WellFormed) (hq : q ∈ a) (hr : r ∈ a)
    (hw : ∀ c ∈ w, c ∈ a.alphabet) :
    a.WalksAgree q r w ↔ (a.AcceptsFrom q w ↔ a.AcceptsFrom r w) := by
  constructor
  · rintro (hmeet | ⟨s, t, hs, ht, hst⟩)
    · rw [AcceptsFrom, AcceptsFrom, hmeet.walk_eq]
    · simp only [AcceptsFrom, hs, ht, Option.some.injEq, exists_eq_left', hst]
  · intro h
    obtain ⟨s, hs⟩ := htotal.exists_walk ha hq hw
    obtain ⟨t, ht⟩ := htotal.exists_walk ha hr hw
    simp only [AcceptsFrom, hs, ht, Option.some.injEq, exists_eq_left'] at h
    exact .inr ⟨s, t, hs, ht, Bool.eq_iff_iff.mpr h⟩

end Automaton

namespace Partition

/-! ## Classes after a number of rounds -/

theorem covers_iterate (a : Automaton) (k : Nat) : ((refine a)^[k] (byAcceptance a)).Covers a :=
  (covers_byAcceptance a).iterate k

/-- One more round keeps two states together if they were, and every symbol leads them on to
states that were. -/
theorem sameClass_iterate_succ_iff (ha : a.WellFormed) (hne : q ≠ r) :
    ((refine a)^[k + 1] (byAcceptance a)).SameClass q r ↔
      ((refine a)^[k] (byAcceptance a)).SameClass q r ∧ ∀ c ∈ a.alphabet, ∃ s t,
        a.successor? q c = some s ∧ a.successor? r c = some t ∧
          ((refine a)^[k] (byAcceptance a)).SameClass s t := by
  have hnodup := (covers_iterate a k).nodup ha
  rw [Function.iterate_succ_apply', sameClass_refine_iff hnodup hne, moveAlike_iff hnodup]

theorem sameClass_iterate_self (hq : q ∈ a) : ((refine a)^[k] (byAcceptance a)).SameClass q q :=
  sameClass_self_iff.mpr ((covers_iterate a k).mem_iff.mpr hq)

/-- Rounds only split. -/
theorem sameClass_iterate_of_le {m : Nat} (ha : a.WellFormed) (hmk : m ≤ k)
    (hqr : ((refine a)^[k] (byAcceptance a)).SameClass q r) :
    ((refine a)^[m] (byAcceptance a)).SameClass q r := by
  by_cases hne : q = r
  · subst hne
    exact sameClass_iterate_self ((covers_iterate a k).mem_of_sameClass hqr).1
  · induction k, hmk using Nat.le_induction with
    | base => exact hqr
    | succ k _ ih => exact ih ((sameClass_iterate_succ_iff ha hne).mp hqr).1

theorem isAccepting_eq_of_sameClass_iterate (ha : a.WellFormed)
    (hqr : ((refine a)^[k] (byAcceptance a)).SameClass q r) :
    a.isAccepting q = a.isAccepting r := by
  obtain ⟨hq, hr⟩ := (covers_iterate a k).mem_of_sameClass hqr
  exact (sameClass_byAcceptance_iff ha hq hr).mp (sameClass_iterate_of_le ha (Nat.zero_le k) hqr)

/-- After `k` rounds two states are together if their walks agree on all words of at most `k`
symbols. -/
theorem sameClass_iterate_iff (ha : a.WellFormed) (hq : q ∈ a) (hr : r ∈ a) (hne : q ≠ r) :
    ((refine a)^[k] (byAcceptance a)).SameClass q r ↔
      ∀ w : List Char, (∀ c ∈ w, c ∈ a.alphabet) → w.length ≤ k → a.WalksAgree q r w := by
  induction k generalizing q r with
  | zero =>
    rw [Function.iterate_zero_apply, sameClass_byAcceptance_iff ha hq hr]
    constructor
    · intro h w _ hlength
      rw [List.length_eq_zero_iff.mp (Nat.le_zero.mp hlength)]
      exact (Automaton.walksAgree_nil_iff hne).mpr h
    · intro h
      exact (Automaton.walksAgree_nil_iff hne).mp (h [] (by simp) (Nat.le_refl 0))
  | succ k ih =>
    rw [sameClass_iterate_succ_iff ha hne, ih hq hr hne]
    constructor
    · rintro ⟨hshort, hmove⟩ w hw hlength
      cases w with
      | nil => exact hshort [] hw (Nat.zero_le k)
      | cons c w =>
        rw [List.forall_mem_cons] at hw
        obtain ⟨s, t, hs, ht, hst⟩ := hmove c hw.1
        refine (Automaton.walksAgree_cons_iff hne).mpr ⟨s, t, hs, ht, ?_⟩
        -- The walks may have met, in which case the induction hypothesis does not apply.
        by_cases heq : s = t
        · exact heq ▸ Automaton.walksAgree_self s w
        · have hsa := (Automaton.mem_of_successor? ha hs).2
          have hta := (Automaton.mem_of_successor? ha ht).2
          exact (ih hsa hta heq).mp hst w hw.2 (Nat.le_of_succ_le_succ hlength)
    · intro h
      refine ⟨fun w hw hlength => h w hw (Nat.le_succ_of_le hlength), ?_⟩
      intro c hc
      -- Agreement on words that begin with the symbol gives the step and agreement after it.
      have hstep (w : List Char) (hw : ∀ d ∈ w, d ∈ a.alphabet) (hlength : w.length ≤ k) :=
        (Automaton.walksAgree_cons_iff hne).mp
          (h (c :: w) (List.forall_mem_cons.mpr ⟨hc, hw⟩) (Nat.succ_le_succ hlength))
      obtain ⟨s, t, hs, ht, _⟩ := hstep [] (by simp) (Nat.zero_le k)
      refine ⟨s, t, hs, ht, ?_⟩
      have hsa := (Automaton.mem_of_successor? ha hs).2
      have hta := (Automaton.mem_of_successor? ha ht).2
      by_cases heq : s = t
      · exact heq ▸ sameClass_iterate_self hsa
      · apply (ih hsa hta heq).mpr
        intro w hw hlength
        obtain ⟨x, y, hx, hy, hagree⟩ := hstep w hw hlength
        cases hs.symm.trans hx
        cases ht.symm.trans hy
        exact hagree

/-! ## The minimal partition -/

theorem minimize_eq_ok (hdet : a.isDeterministic = true) (limit : Option Nat) :
    minimize a limit = .ok ((refine a)^[limit.getD a.size] (byAcceptance a)) := by
  have hnone : a.nondeterminism? = none := Option.isNone_iff_eq_none.mp hdet
  simp only [minimize, hnone, refineRounds_eq_iterate]

/-- Rounds beyond the number of states change nothing. -/
theorem iterate_eq_of_size_le (hk : a.size ≤ k) :
    (refine a)^[k] (byAcceptance a) = (refine a)^[a.size] (byAcceptance a) := by
  obtain ⟨m, rfl⟩ := Nat.exists_eq_add_of_le' hk
  rw [Function.iterate_add_apply]
  exact Function.iterate_fixed (refine_iterate_size (covers_byAcceptance a)) m

/-- The classes under a limit are those of the words that the limit allows; without one all words
count. -/
theorem sameClass_limit_iff (ha : a.WellFormed) (hq : q ∈ a) (hr : r ∈ a) (hne : q ≠ r)
    (limit : Option Nat) :
    ((refine a)^[limit.getD a.size] (byAcceptance a)).SameClass q r ↔
      ∀ w : List Char, (∀ c ∈ w, c ∈ a.alphabet) → (∀ k ∈ limit, w.length ≤ k) →
        a.WalksAgree q r w := by
  cases limit with
  | some k =>
    simpa using sameClass_iterate_iff (k := k) ha hq hr hne
  | none =>
    rw [Option.getD_none]
    constructor
    · intro h w hw _
      -- The word is within as many rounds as it has characters or the automaton states.
      rw [← iterate_eq_of_size_le (Nat.le_max_right w.length a.size),
        sameClass_iterate_iff ha hq hr hne] at h
      exact h w hw (Nat.le_max_left _ _)
    · intro h
      rw [sameClass_iterate_iff ha hq hr hne]
      intro w hw _
      exact h w hw (by simp)

/-- In a total automaton the classes are those of the states that accept the same words. -/
theorem sameClass_limit_iff_of_total (htotal : a.Total) (ha : a.WellFormed) (hq : q ∈ a)
    (hr : r ∈ a) (limit : Option Nat) :
    ((refine a)^[limit.getD a.size] (byAcceptance a)).SameClass q r ↔
      ∀ w : List Char, (∀ c ∈ w, c ∈ a.alphabet) → (∀ k ∈ limit, w.length ≤ k) →
        (a.AcceptsFrom q w ↔ a.AcceptsFrom r w) := by
  by_cases hne : q = r
  · subst hne
    exact iff_of_true (sameClass_iterate_self hq) fun _ _ _ => .rfl
  · rw [sameClass_limit_iff ha hq hr hne]
    exact forall₃_congr fun w hw _ => htotal.walksAgree_iff ha hq hr hw

/-- Minimizing a deterministic automaton gives classes of states that no word within the limit
tells apart: two different states share one exactly if their walks agree on all these words. In a
total automaton this means that they accept the same ones of these words. -/
theorem minimize_classes (ha : a.Built) (hdet : a.isDeterministic = true) (limit : Option Nat) :
    ∃ p, minimize a limit = .ok p ∧ p.Covers a ∧
      (∀ q ∈ a, ∀ r ∈ a, q ≠ r → (p.SameClass q r ↔
        ∀ w : List Char, (∀ c ∈ w, c ∈ a.alphabet) → (∀ k ∈ limit, w.length ≤ k) →
          a.WalksMeet q r w ∨ a.WalksEndAlike q r w)) ∧
      (a.Total → ∀ q ∈ a, ∀ r ∈ a, (p.SameClass q r ↔
        ∀ w : List Char, (∀ c ∈ w, c ∈ a.alphabet) → (∀ k ∈ limit, w.length ≤ k) →
          (a.AcceptsFrom q w ↔ a.AcceptsFrom r w))) := by
  refine ⟨_, minimize_eq_ok hdet limit, covers_iterate a _, ?_, ?_⟩
  · intro q hq r hr hne
    exact sameClass_limit_iff ha.wellFormed hq hr hne limit
  · intro htotal q hq r hr
    exact sameClass_limit_iff_of_total htotal ha.wellFormed hq hr limit

/-- Two states that move alike, with a gap between their ids. -/
def twins : Automaton := .ofEdits (.ofSymbols ['a'])
  [.addState "p" false, .addState "gap" false, .removeState 1, .startAt 0, .addState "q" false,
    .removeState 1, .addState "r" true, .addEdge 0 (.symbol 'a') 3, .addEdge 2 (.symbol 'a') 3,
    .addEdge 3 (.symbol 'a') 3]

theorem minimize_classes_twins :
    twins.isDeterministic = true ∧ minimize twins none = .ok ⟨[⟨0, [2]⟩, ⟨3, []⟩]⟩ ∧
      ∀ w : List Char, (∀ c ∈ w, c ∈ twins.alphabet) →
        (twins.AcceptsFrom 0 w ↔ twins.AcceptsFrom 2 w) := by
  have hdet : twins.isDeterministic = true := by decide
  obtain ⟨p, hp, _, _, hclasses⟩ := minimize_classes (Automaton.built_ofEdits _ _) hdet none
  have hvalue : minimize twins none = .ok ⟨[⟨0, [2]⟩, ⟨3, []⟩]⟩ := by decide
  cases hp.symm.trans hvalue
  refine ⟨hdet, hvalue, ?_⟩
  intro w hw
  have hsame := hclasses (by decide) 0 (by decide) 2 (by decide)
  exact hsame.mp (by decide) w hw (by simp)

end Partition

end FiniteState
