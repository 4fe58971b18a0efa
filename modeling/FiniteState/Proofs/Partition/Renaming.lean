import FiniteState.Proofs.Automaton.Renaming
import FiniteState.Proofs.Partition.Indistinguishability

/-! # Minimizing with other ids

The ids of the states decide the order of the classes, which states stand for them and what a round
compares first. They do not decide which states a round leaves together. So after any number of
rounds an automaton and a renamed one have equally many classes.
-/

namespace FiniteState.Partition

variable {a b : Automaton} {f : StateId → StateId} {p p' : Partition} {q r : StateId}

/-- Partitions whose states correspond have no more classes than one that tells apart whatever they
do. -/
theorem size_le_of_rel {R : StateId → StateId → Prop} (ha : a.WellFormed) (hb : b.WellFormed)
    (hp : p.Covers a) (hp' : p'.Covers b) (hR : ∀ q ∈ a, ∃ r ∈ b, R q r)
    (hapart : ∀ q r, R q r → ∀ s t, R s t → p'.SameClass r t → p.SameClass q s) :
    p.size ≤ p'.size := by
  have hclass : ∀ i < p.size, ∃ j < p'.size, ∃ q r, R q r ∧ p.lastClass? q = some i ∧
      p'.lastClass? r = some j := by
    intro i hi
    obtain ⟨q, hq, hqi⟩ := hp.exists_mem_of_lt ha hi
    obtain ⟨r, hr, hqr⟩ := hR q hq
    obtain ⟨j, hj⟩ := exists_lastClass? (hp'.mem_iff.mpr hr)
    exact ⟨j, lt_size_of_lastClass? hj, q, r, hqr, hqi, hj⟩
  choose! g hg using hclass
  have hinj : Set.InjOn g (Finset.range p.size) := by
    intro i hi j hj hij
    obtain ⟨_, q, r, hqr, hqi, hrg⟩ := hg i (Finset.mem_range.mp hi)
    obtain ⟨_, s, t, hst, hsj, htg⟩ := hg j (Finset.mem_range.mp hj)
    rw [hij] at hrg
    have hsame : p.SameClass q s := hapart q r hqr s t hst
      ((sameClass_iff (hp'.nodup hb)).mpr ⟨_, hrg, htg⟩)
    obtain ⟨k, hqk, hsk⟩ := (sameClass_iff (hp.nodup ha)).mp hsame
    exact (Option.some.inj (hqi.symm.trans hqk)).trans (Option.some.inj (hsj.symm.trans hsk)).symm
  have hmaps : ∀ i ∈ Finset.range p.size, g i ∈ Finset.range p'.size := fun i hi =>
    Finset.mem_range.mpr (hg i (Finset.mem_range.mp hi)).1
  simpa using Finset.card_le_card_of_injOn g hmaps hinj

section Renamed

variable (ha : a.WellFormed) (hb : b.WellFormed) (h : Automaton.IsIso f a b)

include ha hb h

theorem size_eq_of_isIso (hp : p.Covers a) (hp' : p'.Covers b)
    (hsame : ∀ q ∈ a, ∀ r ∈ a, p'.SameClass (f q) (f r) ↔ p.SameClass q r) :
    p'.size = p.size := by
  apply Nat.le_antisymm
  · apply size_le_of_rel (R := fun r q => q ∈ a ∧ f q = r) hb ha hp' hp
    · intro r hr
      obtain ⟨q, hq, hqr⟩ := h.bijOn.surjOn hr
      exact ⟨q, hq, hq, hqr⟩
    · rintro _ q ⟨hq, rfl⟩ _ r ⟨hr, rfl⟩ hqr
      exact (hsame q hq r hr).mpr hqr
  · apply size_le_of_rel (R := fun q r => q ∈ a ∧ f q = r) ha hb hp hp'
    · intro q hq
      exact ⟨f q, h.bijOn.mapsTo hq, hq, rfl⟩
    · rintro q _ ⟨hq, rfl⟩ r _ ⟨hr, rfl⟩ hqr
      exact (hsame q hq r hr).mp hqr

variable (hdeta : a.Deterministic) (hdetb : b.Deterministic)

include hdeta hdetb

/-- After any number of rounds the images of two states are together exactly if the states are. -/
theorem sameClass_iterate_isIso (k : Nat) (hq : q ∈ a) (hr : r ∈ a) :
    ((refine b)^[k] (byAcceptance b)).SameClass (f q) (f r) ↔
      ((refine a)^[k] (byAcceptance a)).SameClass q r := by
  induction k generalizing q r with
  | zero =>
    rw [Function.iterate_zero_apply, Function.iterate_zero_apply,
      sameClass_byAcceptance_iff hb (h.bijOn.mapsTo hq) (h.bijOn.mapsTo hr),
      sameClass_byAcceptance_iff ha hq hr, h.isAccepting_eq q hq, h.isAccepting_eq r hr]
  | succ k ih =>
    by_cases hne : q = r
    · subst hne
      exact iff_of_true (sameClass_iterate_self (h.bijOn.mapsTo hq)) (sameClass_iterate_self hq)
    · have hfne : f q ≠ f r := fun heq => hne (h.bijOn.injOn hq hr heq)
      rw [sameClass_iterate_succ_iff hb hfne, sameClass_iterate_succ_iff ha hne, ih hq hr,
        h.alphabet_eq]
      refine and_congr_right fun _ => forall₂_congr fun c _ => ?_
      rw [h.successor?_eq ha hb hdeta hdetb hq, h.successor?_eq ha hb hdeta hdetb hr]
      simp only [Option.map_eq_some_iff]
      constructor
      · rintro ⟨_, _, ⟨s, hs, rfl⟩, ⟨t, ht, rfl⟩, hst⟩
        exact ⟨s, t, hs, ht, (ih (Automaton.mem_of_successor? ha hs).2
          (Automaton.mem_of_successor? ha ht).2).mp hst⟩
      · rintro ⟨s, t, hs, ht, hst⟩
        exact ⟨f s, f t, ⟨s, hs, rfl⟩, ⟨t, ht, rfl⟩, (ih (Automaton.mem_of_successor? ha hs).2
          (Automaton.mem_of_successor? ha ht).2).mpr hst⟩

theorem size_iterate_isIso (k : Nat) : ((refine b)^[k] (byAcceptance b)).size =
    ((refine a)^[k] (byAcceptance a)).size :=
  size_eq_of_isIso ha hb h (covers_iterate a k) (covers_iterate b k)
    fun _ hq _ hr => sameClass_iterate_isIso ha hb h hdeta hdetb k hq hr

omit hdeta hdetb in
/-- Whatever the limit on rounds, minimizing comes to equally many classes, or fails both times
because a state leaves a choice. -/
theorem minimize_isIso (limit : Option Nat) :
    (∃ p p', minimize a limit = .ok p ∧ minimize b limit = .ok p' ∧ p'.size = p.size) ∨
      ∃ o o', minimize a limit = .error (.nondeterministic o) ∧
        minimize b limit = .error (.nondeterministic o') := by
  by_cases hdet : a.Deterministic
  · have hdetb := (h.deterministic_iff ha hb).mpr hdet
    refine .inl ⟨_, _, minimize_eq_ok (ha.isDeterministic_iff.mpr hdet) limit,
      minimize_eq_ok (hb.isDeterministic_iff.mpr hdetb) limit, ?_⟩
    rw [h.size_eq ha hb]
    exact size_iterate_isIso ha hb h hdet hdetb _
  · have hfails {x : Automaton} (hx : x.WellFormed) (hndet : ¬x.Deterministic) :
        ∃ o, minimize x limit = .error (.nondeterministic o) := by
      rw [hx.deterministic_iff_offends] at hndet
      push Not at hndet
      obtain ⟨e, he⟩ := exists_minimize_eq_error_iff.mpr hndet
      obtain ⟨o, _, rfl⟩ := isFirstOffence_of_minimize hx he
      exact ⟨o, he⟩
    obtain ⟨o, ho⟩ := hfails ha hdet
    obtain ⟨o', ho'⟩ := hfails hb (mt (h.deterministic_iff ha hb).mp hdet)
    exact .inr ⟨o, o', ho, ho'⟩

end Renamed

end FiniteState.Partition
