import FiniteState.Proofs.Partition.Indistinguishability

/-! # Limits on the rounds

Rounds of refinement only split, so the classes after more rounds lie within those after fewer.
A round that splits adds a class and there are no more classes than states, so one round less than
there are states suffices: a limit from there on changes nothing, and a lower one can only leave
states together that no limit would.
-/

namespace FiniteState.Partition

variable {a : Automaton} {p p' p'' : Partition} {j k : Nat}

/-- Every class of the first partition lies within a class of the second one. -/
def Refines (p p' : Partition) : Prop := ∀ b ∈ p.blocks, ∃ c ∈ p'.blocks, ∀ q ∈ b, q ∈ c

namespace Refines

theorem refl (p : Partition) : p.Refines p := fun b hb => ⟨b, hb, fun _ hq => hq⟩

theorem trans (h : p.Refines p') (h' : p'.Refines p'') : p.Refines p'' := by
  intro b hb
  obtain ⟨c, hc, hbc⟩ := h b hb
  obtain ⟨d, hd, hcd⟩ := h' c hc
  exact ⟨d, hd, fun q hq => hcd q (hbc q hq)⟩

end Refines

/-! ## More rounds -/

theorem refine_refines (a : Automaton) (p : Partition) : (p.refine a).Refines p := by
  intro b hb
  obtain ⟨c, hc, hb⟩ := List.mem_flatMap.mp hb
  exact ⟨c, hc, fun _ hq => mem_of_mem_group hb hq⟩

theorem iterate_refines (hjk : j ≤ k) : ((refine a)^[k] p).Refines ((refine a)^[j] p) := by
  induction k, hjk using Nat.le_induction with
  | base => exact .refl _
  | succ k _ ih =>
    rw [Function.iterate_succ_apply']
    exact (refine_refines a _).trans ih

theorem size_iterate_le (hjk : j ≤ k) :
    ((refine a)^[j] p).size ≤ ((refine a)^[k] p).size := by
  induction k, hjk using Nat.le_induction with
  | base => exact Nat.le_refl _
  | succ k _ ih =>
    rw [Function.iterate_succ_apply']
    exact ih.trans (size_le_size_refine _)

/-- One round less than there are states ends in a stable partition. -/
theorem refine_iterate_of_size_le (hp : p.Covers a) (hk : a.size ≤ k + 1) :
    ((refine a)^[k] p).refine a = (refine a)^[k] p := by
  by_cases hsize : p.size = 0
  · rw [← Function.iterate_succ_apply' (refine a), iterate_of_size_eq_zero hsize,
      iterate_of_size_eq_zero hsize]
  · refine (stable_or_lt_size (Nat.pos_of_ne_zero hsize) k).elim id fun hlt => ?_
    -- There are as many classes as states, so another round has nothing left to split.
    have hle : (((refine a)^[k] p).refine a).size ≤ a.size := (hp.iterate k).refine.size_le
    have hge := size_le_size_refine (a := a) ((refine a)^[k] p)
    exact refine_eq_of_size (by omega)

theorem iterate_eq_of_size_le_succ (hk : a.size ≤ k + 1) :
    (refine a)^[k] (byAcceptance a) = (refine a)^[a.size] (byAcceptance a) := by
  rcases Nat.le_succ_iff.mp hk with hle | hsucc
  · exact iterate_eq_of_size_le hle
  · rw [hsucc, Nat.succ_eq_add_one, Function.iterate_succ_apply',
      refine_iterate_of_size_le (covers_byAcceptance a) hk]

/-- A higher limit gives classes within those of a lower one, and no fewer of them, but never more
than there are states. From one less than the number of states on a limit gives what no limit
gives, in the same order, and that is a stable partition. -/
theorem minimize_limits (hdet : a.isDeterministic = true) :
    ∃ result : Option Nat → Partition, (∀ limit, minimize a limit = .ok (result limit)) ∧
      (∀ j k, j ≤ k → (result (some k)).Refines (result (some j)) ∧
        (result (some j)).size ≤ (result (some k)).size) ∧
      (∀ limit, (result limit).size ≤ a.size) ∧
      (∀ k, a.size ≤ k + 1 → result (some k) = result none) ∧
      (∀ k, (result none).Refines (result (some k))) ∧
      (result none).refine a = result none := by
  refine ⟨fun limit => (refine a)^[limit.getD a.size] (byAcceptance a), minimize_eq_ok hdet,
    ?_, ?_, ?_, ?_, ?_⟩
  · intro j k hjk
    exact ⟨iterate_refines hjk, size_iterate_le hjk⟩
  · intro limit
    exact (covers_iterate a _).size_le
  · intro k hk
    exact iterate_eq_of_size_le_succ hk
  · intro k
    -- The rounds that no limit leaves are the last ones of sufficiently many.
    have hmany := iterate_eq_of_size_le (a := a) (Nat.le_max_right k a.size)
    have hrefines := iterate_refines (a := a) (p := byAcceptance a) (Nat.le_max_left k a.size)
    rw [hmany] at hrefines
    exact hrefines
  · exact refine_iterate_size (covers_byAcceptance a)

/-- Four states in a row, of which the last one is accepting. -/
def row : Automaton := .ofEdits (.ofSymbols ['a'])
  [.addState "q0" false, .addState "q1" false, .addState "q2" false, .addState "q3" true,
    .addEdge 0 (.symbol 'a') 1, .addEdge 1 (.symbol 'a') 2, .addEdge 2 (.symbol 'a') 3,
    .addEdge 3 (.symbol 'a') 3]

/-- One round leaves two states together; three rounds, one less than there are states, do not. -/
theorem minimize_limits_row :
    row.isDeterministic = true ∧ minimize row (some 1) = .ok ⟨[⟨0, [1]⟩, ⟨2, []⟩, ⟨3, []⟩]⟩ ∧
      ∃ p, minimize row (some 3) = .ok p ∧ minimize row none = .ok p ∧ p.size = 4 ∧
        p.Refines ⟨[⟨0, [1]⟩, ⟨2, []⟩, ⟨3, []⟩]⟩ := by
  have hdet : row.isDeterministic = true := by decide
  obtain ⟨result, hresult, hmore, _, henough, _⟩ := minimize_limits hdet
  have hone : minimize row (some 1) = .ok ⟨[⟨0, [1]⟩, ⟨2, []⟩, ⟨3, []⟩]⟩ := by decide
  have hthree : minimize row (some 3) = .ok ⟨[⟨0, []⟩, ⟨1, []⟩, ⟨2, []⟩, ⟨3, []⟩]⟩ := by decide
  have hfirst := Except.ok.inj ((hresult (some 1)).symm.trans hone)
  have hthird := Except.ok.inj ((hresult (some 3)).symm.trans hthree)
  refine ⟨hdet, hone, result (some 3), hresult (some 3), ?_, ?_, ?_⟩
  · rw [henough 3 (by decide)]
    exact hresult none
  · rw [hthird]
    rfl
  · rw [← hfirst]
    exact (hmore 1 3 (by decide)).1

end FiniteState.Partition
