import FiniteState.Proofs.Partition.Indistinguishability
import FiniteState.Proofs.Partition.Quotient

/-! # Language of quotients

The quotient by a stable partition follows the automaton class by class, although it knows the
moves of the representatives only: members of a class move alike, and a member with a missing
move has no company.
-/

namespace FiniteState.Partition

variable {a : Automaton} {p : Partition} {q r : StateId} {c : Char} {i : Nat} {w : List Char}

/-- A partition that covers an automaton, respects acceptance and is split no further. -/
structure Stable (p : Partition) (a : Automaton) : Prop where
  covers : p.Covers a
  isAccepting_eq : ∀ q r, p.SameClass q r → a.isAccepting q = a.isAccepting r
  size_refine : (p.refine a).size = p.size

theorem exists_lastClass?_of_mem (hp : p.Covers a) (hq : q ∈ a) :
    ∃ i, p.lastClass? q = some i := exists_lastClass? (hp.mem_iff.mpr hq)

/-! ## Acceptance and starts -/

theorem isAccepting_quotient_of_mem {b : Block}
    (hp : ∀ q r, p.SameClass q r → a.isAccepting q = a.isAccepting r)
    (hb : p.blocks[i]? = some b) (hq : q ∈ b) :
    (p.quotient a).isAccepting i = a.isAccepting q := by
  rw [Partition.isAccepting_quotient hb, Bool.eq_iff_iff, List.any_eq_true]
  constructor
  · intro h
    obtain ⟨r, hr, haccepting⟩ := h
    rwa [hp q r ⟨b, List.mem_of_getElem? hb, hq, hr⟩]
  · intro haccepting
    exact ⟨q, hq, haccepting⟩

theorem Covers.start_quotient (hp : p.Covers a) (ha : a.WellFormed) :
    (p.quotient a).start = (a.start >>= p.lastClass?) := by
  change p.quotientStart a = _
  cases hstart : a.start with
  | none =>
    -- Without a start there are no states, hence no classes.
    have hsize := hp.size_le
    rw [Automaton.size, ha.states_eq_nil hstart] at hsize
    have hempty : p.isEmpty = true :=
      List.isEmpty_iff.mpr (List.length_eq_zero_iff.mp (Nat.le_zero.mp hsize))
    rw [quotientStart, if_pos hempty]
    rfl
  | some q =>
    obtain ⟨i, hi⟩ := exists_lastClass?_of_mem hp (ha.start_mem q hstart)
    rw [quotientStart, if_neg (not_isEmpty_of_lt (lt_size_of_lastClass? hi)), hstart]
    simp only [Option.bind_eq_bind, Option.bind_some, hi, Option.getD_some]

/-- A word is treated alike if the start and its class treat it alike. -/
theorem Covers.accepts_quotient (hp : p.Covers a) (ha : a.WellFormed) (hdet : a.Deterministic)
    (hw : ∀ q ∈ a.start, ∀ i, p.lastClass? q = some i →
      ((p.quotient a).AcceptsFrom i w ↔ a.AcceptsFrom q w)) :
    (p.quotient a).accepts w = a.accepts w := by
  rw [Bool.eq_iff_iff, (wellFormed_quotient a p).accepts_iff_walk (deterministic_quotient a p),
    ha.accepts_iff_walk hdet, hp.start_quotient ha]
  constructor
  · rintro ⟨i, hi, haccepts⟩
    obtain ⟨q, hq, hi⟩ := Option.bind_eq_some_iff.mp hi
    exact ⟨q, hq, (hw q hq i hi).mp haccepts⟩
  · rintro ⟨q, hq, haccepts⟩
    obtain ⟨i, hi⟩ := exists_lastClass?_of_mem hp (ha.start_mem q hq)
    refine ⟨i, ?_, (hw q hq i hi).mpr haccepts⟩
    rw [Option.mem_def.mp hq]
    exact hi

/-! ## Stable partitions -/

namespace Stable

variable (hp : p.Stable a)

include hp

theorem isAccepting_quotient (hi : p.lastClass? q = some i) :
    (p.quotient a).isAccepting i = a.isAccepting q := by
  obtain ⟨b, hb, hq⟩ := mem_of_lastClass? hi
  exact isAccepting_quotient_of_mem hp.isAccepting_eq hb hq

variable (ha : a.WellFormed)

include ha

theorem moveAlike (hne : q ≠ r) (hqr : p.SameClass q r) : p.MoveAlike a q r := by
  rw [← refine_eq_of_size hp.size_refine] at hqr
  exact ((sameClass_refine_iff (hp.covers.nodup ha) hne).mp hqr).2

/-- The members of a class lead on to the same class, if to any. -/
theorem successor?_bind_eq (hqr : p.SameClass q r) :
    (a.successor? q c >>= p.lastClass?) = (a.successor? r c >>= p.lastClass?) := by
  by_cases hne : q = r
  · rw [hne]
  · by_cases hc : c ∈ a.alphabet
    · obtain ⟨i, hq, hr⟩ := moveAlike_iff_lastClass?.mp (hp.moveAlike ha hne hqr) c hc
      rw [hq, hr]
    · rw [Automaton.successor?_eq_none ha hc, Automaton.successor?_eq_none ha hc]

theorem successor?_quotient (hi : p.lastClass? q = some i) :
    (p.quotient a).successor? i c = (a.successor? q c >>= p.lastClass?) := by
  obtain ⟨b, hb, hq⟩ := mem_of_lastClass? hi
  rw [successor?_quotient_of_block ha hb]
  exact hp.successor?_bind_eq ha ⟨b, List.mem_of_getElem? hb, List.mem_cons_self, hq⟩

/-- Words lead from class to class as they lead from member to member. -/
theorem walk_quotient (hi : p.lastClass? q = some i) :
    (p.quotient a).walk i w = (a.walk q w >>= p.lastClass?) := by
  induction w generalizing q i with
  | nil => exact hi.symm
  | cons c w ih =>
    rw [Automaton.walk, hp.successor?_quotient ha hi, Automaton.walk]
    cases ht : a.successor? q c with
    | none => rfl
    | some t =>
      obtain ⟨j, hj⟩ := exists_lastClass?_of_mem hp.covers (Automaton.mem_of_successor? ha ht).2
      simp only [Option.bind_eq_bind, Option.bind_some, hj]
      exact ih hj

theorem acceptsFrom_quotient_iff (hq : q ∈ a) (hi : p.lastClass? q = some i) :
    (p.quotient a).AcceptsFrom i w ↔ a.AcceptsFrom q w := by
  rw [Automaton.AcceptsFrom, hp.walk_quotient ha hi]
  constructor
  · intro h
    obtain ⟨j, hj, haccepting⟩ := h
    obtain ⟨t, ht, htj⟩ := Option.bind_eq_some_iff.mp hj
    exact ⟨t, ht, by rwa [← hp.isAccepting_quotient htj]⟩
  · intro h
    obtain ⟨t, ht, haccepting⟩ := h
    obtain ⟨j, hj⟩ := exists_lastClass?_of_mem hp.covers (ha.mem_of_walk hq ht)
    exact ⟨j, by rw [ht]; exact hj, by rwa [hp.isAccepting_quotient hj]⟩

theorem accepts_quotient (hdet : a.Deterministic) (w : List Char) :
    (p.quotient a).accepts w = a.accepts w :=
  hp.covers.accepts_quotient ha hdet fun q hq _ hi =>
    hp.acceptsFrom_quotient_iff ha (ha.start_mem q hq) hi

end Stable

/-- Rounds up to the number of states end in a stable partition. -/
theorem stable_iterate_size (ha : a.WellFormed) :
    ((refine a)^[a.size] (byAcceptance a)).Stable a where
  covers := covers_iterate a a.size
  isAccepting_eq _ _ := isAccepting_eq_of_sameClass_iterate ha
  size_refine := refine_eq_iff.mp (refine_iterate_size (covers_byAcceptance a))

/-- The quotient by a stable partition accepts the same words, and minimizing without a limit
gives a stable partition. -/
theorem quotient_keeps_language (ha : a.Built) (hdet : a.isDeterministic = true) :
    (∀ p : Partition, p.Stable a → ∀ w, (p.quotient a).accepts w = a.accepts w) ∧
      ∃ p, minimize a none = .ok p ∧ p.Stable a ∧
        ∀ w, (p.quotient a).accepts w = a.accepts w := by
  have hkeeps (p : Partition) (hp : p.Stable a) (w : List Char) :
      (p.quotient a).accepts w = a.accepts w :=
    hp.accepts_quotient ha.wellFormed (ha.wellFormed.isDeterministic_iff.mp hdet) w
  have hstable := stable_iterate_size ha.wellFormed
  exact ⟨hkeeps, _, minimize_eq_ok hdet none, hstable, hkeeps _ hstable⟩

theorem quotient_keeps_language_twins :
    (∀ w, ((⟨[⟨3, []⟩, ⟨2, [0]⟩]⟩ : Partition).quotient twins).accepts w = twins.accepts w) ∧
      twins.accepts ['a'] = true := by
  have hdet : twins.isDeterministic = true := by decide
  have hkeeps := (quotient_keeps_language (Automaton.built_ofEdits _ _) hdet).1
  refine ⟨hkeeps _ ⟨by decide, ?_, by decide⟩, by decide⟩
  intro q r hqr
  simp only [SameClass, List.mem_cons, List.not_mem_nil, or_false, exists_eq_or_imp,
    exists_eq_left, ← Block.mem_toList, Block.toList] at hqr
  rcases hqr with ⟨rfl, rfl⟩ | ⟨rfl | rfl, rfl | rfl⟩ <;> decide

end FiniteState.Partition
