import FiniteState.Proofs.Partition.QuotientLanguage

/-! # Quotients after too few rounds

A partition that rounds of refinement were stopped at need not be stable: members of a class may
lead on to different classes. Its quotient takes the moves of a representative and goes on with
another one after each symbol. States that some rounds leave together are led by a symbol to
states that one round less leaves together, so every symbol costs the quotient one round, and
words with no more symbols than rounds are treated as the automaton does.
-/

namespace FiniteState.Partition

variable {a : Automaton} {p : Partition} {q r : StateId} {w : List Char} {k m i : Nat}

/-! ## Moves of states that are together -/

theorem rel_bind {α β γ δ : Type} {R : α → β → Prop} {S : γ → δ → Prop} {x : Option α}
    {y : Option β} {f : α → Option γ} {g : β → Option δ} (hxy : Option.Rel R x y)
    (hfg : ∀ s t, R s t → Option.Rel S (f s) (g t)) : Option.Rel S (x >>= f) (y >>= g) := by
  cases hxy with
  | none => exact .none
  | some hst => exact hfg _ _ hst

/-- States that are together after one more round both have no move, or move to states that are
together. -/
theorem rel_successor? (ha : a.WellFormed)
    (hqr : ((refine a)^[m + 1] (byAcceptance a)).SameClass q r) (c : Char) :
    Option.Rel ((refine a)^[m] (byAcceptance a)).SameClass (a.successor? q c)
      (a.successor? r c) := by
  by_cases hne : q = r
  · subst hne
    -- A state may lack a move only where it is compared with itself.
    cases ht : a.successor? q c with
    | none => exact .none
    | some t => exact .some (sameClass_iterate_self (Automaton.mem_of_successor? ha ht).2)
  · by_cases hc : c ∈ a.alphabet
    · obtain ⟨s, t, hs, ht, hst⟩ := ((sameClass_iterate_succ_iff ha hne).mp hqr).2 c hc
      rw [hs, ht]
      exact .some hst
    · rw [Automaton.successor?_eq_none ha hc, Automaton.successor?_eq_none ha hc]
      exact .none

/-! ## Partitions as fine as a number of rounds -/

/-- A partition that covers an automaton and tells apart all states that `k` rounds do. -/
structure FineUpTo (p : Partition) (a : Automaton) (k : Nat) : Prop where
  covers : p.Covers a
  sameClass_iterate : ∀ q r, p.SameClass q r → ((refine a)^[k] (byAcceptance a)).SameClass q r

/-- The representative of the class and the state are together after `m` rounds. -/
def StandsFor (p : Partition) (a : Automaton) (m i : Nat) (q : StateId) : Prop :=
  ∃ b, p.blocks[i]? = some b ∧ ((refine a)^[m] (byAcceptance a)).SameClass b.representative q

theorem fineUpTo_iterate (a : Automaton) (k : Nat) :
    ((refine a)^[k] (byAcceptance a)).FineUpTo a k where
  covers := covers_iterate a k
  sameClass_iterate _ _ hqr := hqr

namespace FineUpTo

variable (hp : p.FineUpTo a k) (ha : a.WellFormed)

include hp ha

/-- The class of a state stands for what the state is together with. -/
theorem standsFor_of_lastClass? (hmk : m ≤ k) (hi : p.lastClass? q = some i)
    (hqr : ((refine a)^[m] (byAcceptance a)).SameClass q r) : p.StandsFor a m i r := by
  obtain ⟨b, hb, hq⟩ := mem_of_lastClass? hi
  have hbq : p.SameClass b.representative q :=
    ⟨b, List.mem_of_getElem? hb, List.mem_cons_self, hq⟩
  have hround := sameClass_iterate_of_le ha hmk (hp.sameClass_iterate _ _ hbq)
  exact ⟨b, hb, hround.trans ((covers_iterate a m).nodup ha) hqr⟩

theorem isAccepting_quotient (hi : p.StandsFor a m i q) :
    (p.quotient a).isAccepting i = a.isAccepting q := by
  obtain ⟨b, hb, hbq⟩ := hi
  have hclass (q r : StateId) (hqr : p.SameClass q r) : a.isAccepting q = a.isAccepting r :=
    isAccepting_eq_of_sameClass_iterate ha (hp.sameClass_iterate q r hqr)
  rw [isAccepting_quotient_of_mem hclass hb List.mem_cons_self,
    isAccepting_eq_of_sameClass_iterate ha hbq]

/-- A symbol leads a class and a state it stands for on to such a pair, with a round less. -/
theorem rel_successor?_quotient (hmk : m ≤ k) (hi : p.StandsFor a (m + 1) i q) (c : Char) :
    Option.Rel (p.StandsFor a m) ((p.quotient a).successor? i c) (a.successor? q c) := by
  obtain ⟨b, hb, hbq⟩ := hi
  rw [successor?_quotient_of_block ha hb, ← bind_pure (a.successor? q c)]
  refine rel_bind (rel_successor? ha hbq c) ?_
  intro s t hst
  have hs := ((covers_iterate a m).mem_of_sameClass hst).1
  obtain ⟨j, hj⟩ := exists_lastClass?_of_mem hp.covers hs
  rw [hj]
  exact .some (hp.standsFor_of_lastClass? ha hmk hj hst)

/-- A word costs as many rounds as it has symbols. -/
theorem rel_walk_quotient (hmk : w.length + m ≤ k) (hi : p.StandsFor a (w.length + m) i q) :
    Option.Rel (p.StandsFor a m) ((p.quotient a).walk i w) (a.walk q w) := by
  induction w generalizing i q with
  | nil =>
    rw [List.length_nil, Nat.zero_add] at hi
    exact .some hi
  | cons c w ih =>
    rw [List.length_cons, Nat.add_right_comm] at hmk hi
    have hrest : w.length + m ≤ k := Nat.le_of_succ_le hmk
    exact rel_bind (hp.rel_successor?_quotient ha hrest hi c) fun _ _ hjt => ih hrest hjt

theorem acceptsFrom_quotient_iff (hwk : w.length ≤ k) (hq : q ∈ a) (hi : p.lastClass? q = some i) :
    (p.quotient a).AcceptsFrom i w ↔ a.AcceptsFrom q w := by
  have hstands := hp.standsFor_of_lastClass? ha hwk hi (sameClass_iterate_self hq)
  have hwalk := hp.rel_walk_quotient (m := 0) ha hwk hstands
  rw [Automaton.AcceptsFrom, Automaton.AcceptsFrom]
  generalize (p.quotient a).walk i w = x at hwalk ⊢
  generalize a.walk q w = y at hwalk ⊢
  cases hwalk with
  | none => simp
  | some hjt => simp [hp.isAccepting_quotient ha hjt]

theorem accepts_quotient (hdet : a.Deterministic) (hwk : w.length ≤ k) :
    (p.quotient a).accepts w = a.accepts w :=
  hp.covers.accepts_quotient ha hdet fun q hq _ hi =>
    hp.acceptsFrom_quotient_iff ha hwk (ha.start_mem q hq) hi

end FineUpTo

/-- The quotient by the classes that a limit of `k` rounds ends with accepts the same words of at
most `k` symbols, whether or not more rounds would split them. -/
theorem quotient_keeps_short_words (ha : a.Built) (hdet : a.isDeterministic = true) (k : Nat) :
    ∃ p, minimize a (some k) = .ok p ∧
      ∀ w : List Char, w.length ≤ k → (p.quotient a).accepts w = a.accepts w := by
  refine ⟨_, minimize_eq_ok hdet (some k), ?_⟩
  intro w hwk
  exact (fineUpTo_iterate a k).accepts_quotient ha.wellFormed
    (ha.wellFormed.isDeterministic_iff.mp hdet) hwk

/-- Three states from which `b` is accepted, the last of which has no move on `a`. -/
def countdown : Automaton := .ofEdits (.ofSymbols ['a', 'b'])
  [.addState "two" false, .addState "one" false, .addState "none" false, .addState "done" true,
    .addEdge 0 (.symbol 'a') 1, .addEdge 1 (.symbol 'a') 2, .addEdge 0 (.symbol 'b') 3,
    .addEdge 1 (.symbol 'b') 3, .addEdge 2 (.symbol 'b') 3]

/-- One round does not reach a stable partition, and a longer word shows it. -/
theorem quotient_keeps_short_words_countdown :
    ∃ p, minimize countdown (some 1) = .ok p ∧ (p.refine countdown).size ≠ p.size ∧
      (∀ w : List Char, w.length ≤ 1 → (p.quotient countdown).accepts w = countdown.accepts w) ∧
      (p.quotient countdown).accepts ['b'] = true ∧
      (p.quotient countdown).accepts ['a', 'a', 'a', 'b'] ≠
        countdown.accepts ['a', 'a', 'a', 'b'] := by
  have hdet : countdown.isDeterministic = true := by decide
  obtain ⟨p, hp, hagree⟩ := quotient_keeps_short_words (Automaton.built_ofEdits _ _) hdet 1
  have hvalue : minimize countdown (some 1) = .ok ⟨[⟨0, [1]⟩, ⟨2, []⟩, ⟨3, []⟩]⟩ := by decide
  cases hp.symm.trans hvalue
  exact ⟨_, hvalue, by decide, hagree, by decide, by decide⟩

end FiniteState.Partition
