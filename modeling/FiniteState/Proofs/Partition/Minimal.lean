import FiniteState.Proofs.Automaton.Residual
import FiniteState.Proofs.Partition.QuotientLanguage

/-! # Minimal partitions

A stable partition is minimal if it keeps together all states that accept the same words. For a
total automaton rounds of refinement end in such a partition. Its quotient is total as well, and
no two states of the quotient accept the same words, so there are as many classes as languages.
-/

namespace FiniteState.Partition

variable {a : Automaton} {p : Partition} {q r : StateId} {i : Nat}

/-- A stable partition that does not tell states apart which accept the same words. -/
structure Minimal (p : Partition) (a : Automaton) : Prop extends p.Stable a where
  sameClass_of_eq : ∀ q ∈ a, ∀ r ∈ a, a.languageFrom q = a.languageFrom r → p.SameClass q r

theorem minimal_iterate_size (ha : a.WellFormed) (htotal : a.Total) :
    ((refine a)^[a.size] (byAcceptance a)).Minimal a where
  toStable := stable_iterate_size ha
  sameClass_of_eq q hq r hr h := by
    refine (sameClass_limit_iff_of_total htotal ha hq hr none).mpr ?_
    intro w hw _
    have hmem : w ∈ a.languageFrom q ↔ w ∈ a.languageFrom r := by rw [h]
    exact (and_congr_right_iff.mp hmem) hw

/-- Minimizing a total automaton without a limit gives a minimal partition. -/
theorem exists_minimize_eq_ok (ha : a.WellFormed) (hdet : a.Deterministic) (htotal : a.Total) :
    ∃ p, minimize a none = .ok p ∧ p.Minimal a :=
  ⟨_, minimize_eq_ok (ha.isDeterministic_iff.mpr hdet) none, minimal_iterate_size ha htotal⟩

theorem size_quotient (a : Automaton) (p : Partition) : (p.quotient a).size = p.size := by
  rw [← Automaton.length_ids, ids_quotient, List.length_range]

namespace Stable

variable (hp : p.Stable a) (ha : a.WellFormed)

include hp ha

/-- Every state of the quotient is the class of a state. -/
theorem exists_mem_of_mem_quotient (hi : i ∈ p.quotient a) :
    ∃ q ∈ a, p.lastClass? q = some i :=
  hp.covers.exists_mem_of_lt ha (mem_quotient_iff.mp hi)

theorem total_quotient (htotal : a.Total) : (p.quotient a).Total := by
  intro i hi c hc
  obtain ⟨q, hq, hi⟩ := hp.exists_mem_of_mem_quotient ha hi
  obtain ⟨t, ht⟩ := htotal q hq c hc
  obtain ⟨j, hj⟩ := exists_lastClass?_of_mem hp.covers (Automaton.mem_of_successor? ha ht).2
  refine ⟨j, ?_⟩
  rw [hp.successor?_quotient ha hi, ht]
  exact hj

theorem languageFrom_quotient (hq : q ∈ a) (hi : p.lastClass? q = some i) :
    (p.quotient a).languageFrom i = a.languageFrom q := by
  ext w
  exact and_congr_right fun _ => hp.acceptsFrom_quotient_iff ha hq hi

theorem image_languageFrom_quotient :
    (p.quotient a).languageFrom '' {i | i ∈ p.quotient a} = a.languageFrom '' {q | q ∈ a} := by
  ext L
  constructor
  · rintro ⟨i, hi, rfl⟩
    obtain ⟨q, hq, hi⟩ := hp.exists_mem_of_mem_quotient ha hi
    exact ⟨q, hq, (hp.languageFrom_quotient ha hq hi).symm⟩
  · rintro ⟨q, hq, rfl⟩
    obtain ⟨i, hi⟩ := exists_lastClass?_of_mem hp.covers hq
    exact ⟨i, mem_quotient_iff.mpr (lt_size_of_lastClass? hi), hp.languageFrom_quotient ha hq hi⟩

end Stable

namespace Minimal

variable (hp : p.Minimal a) (ha : a.WellFormed)

include hp ha

theorem injOn_languageFrom_quotient :
    Set.InjOn (p.quotient a).languageFrom {i | i ∈ p.quotient a} := by
  intro i hi j hj hij
  obtain ⟨q, hq, hi⟩ := hp.exists_mem_of_mem_quotient ha hi
  obtain ⟨r, hr, hj⟩ := hp.exists_mem_of_mem_quotient ha hj
  rw [hp.languageFrom_quotient ha hq hi, hp.languageFrom_quotient ha hr hj] at hij
  have hsame := hp.sameClass_of_eq q hq r hr hij
  obtain ⟨k, hqk, hrk⟩ := (sameClass_iff (hp.covers.nodup ha)).mp hsame
  exact Option.some.inj (hi.symm.trans (hqk.trans (hrk.symm.trans hj)))

/-- There are as many classes as sets of words that are accepted from some state. -/
theorem size_eq_ncard : p.size = (a.languageFrom '' {q | q ∈ a}).ncard := by
  rw [← hp.image_languageFrom_quotient ha, (hp.injOn_languageFrom_quotient ha).ncard_image,
    (wellFormed_quotient a p).ncard_mem, size_quotient]

/-- The quotient has one reachable state for each residual. -/
theorem ncard_reachable_quotient (hdet : a.Deterministic) (htotal : a.Total)
    (hstart : a.start = some q) : (p.quotient a).reachable.ncard = a.residuals.ncard := by
  have hresiduals : (p.quotient a).residuals = a.residuals :=
    Automaton.residuals_congr rfl (hp.accepts_quotient ha hdet)
  obtain ⟨i, hi⟩ := exists_lastClass?_of_mem hp.covers (ha.start_mem q hstart)
  have hquotient : (p.quotient a).start = some i := by
    rw [hp.covers.start_quotient ha, hstart]
    exact hi
  rw [← hresiduals]
  exact Automaton.ncard_reachable (wellFormed_quotient a p) (deterministic_quotient a p) hquotient
    (hp.total_quotient ha htotal) (hp.injOn_languageFrom_quotient ha)

end Minimal

end FiniteState.Partition
