import FiniteState.Proofs.Partition.Minimal
import FiniteState.Proofs.Subset.Total

/-! # Minimizing the subset construction

Determinizing and minimizing give an automaton with one reachable state for each residual of the
language, so no total deterministic automaton for the language has fewer states. There may be one
class more than residuals: that of a trap which no word leads to.
-/

namespace FiniteState.SubsetAutomaton

variable {nfa : Automaton} {symbols : List Char} {q t : StateId}

section Started

variable (hn : nfa.WellFormed) (hq : nfa.start = some q)
  (hsymbols : ∀ c, c ∈ symbols ↔ c ∈ nfa.alphabet)

include hn hq hsymbols

theorem residuals_inOrder : (inOrder nfa symbols).dfa.residuals = nfa.residuals :=
  Automaton.residuals_congr (alphabet_inOrder hq) fun _ =>
    Bool.eq_iff_iff.mpr (accepts_inOrder_iff hn hsymbols)

theorem residuals_eq_image_reachable : nfa.residuals =
    (inOrder nfa symbols).dfa.languageFrom '' (inOrder nfa symbols).dfa.reachable := by
  rw [← residuals_inOrder hn hq hsymbols]
  exact Automaton.residuals_eq_image (wellFormed_inOrder hn fun c => (hsymbols c).mp)
    (deterministic_inOrder_of_start hq) (start_inOrder hq) (total_inOrder hn hq hsymbols)

/-- Without a trap the sets of words that are accepted from the states are the residuals. -/
theorem image_languageFrom_inOrder (htrap : (inOrder nfa symbols).trap = none) :
    (inOrder nfa symbols).dfa.languageFrom '' {i | i ∈ (inOrder nfa symbols).dfa} =
      nfa.residuals := by
  rw [residuals_eq_image_reachable hn hq hsymbols]
  congr 1
  ext i
  simp [mem_inOrder_iff_reachable_or hn hq hsymbols, htrap]

/-- A trap adds the empty set, which may be a residual as well. -/
theorem image_languageFrom_inOrder_of_trap (htrap : (inOrder nfa symbols).trap = some t) :
    (inOrder nfa symbols).dfa.languageFrom '' {i | i ∈ (inOrder nfa symbols).dfa} =
      insert ∅ nfa.residuals := by
  have hstates : {i | i ∈ (inOrder nfa symbols).dfa} =
      insert t (inOrder nfa symbols).dfa.reachable := by
    ext i
    simp [mem_inOrder_iff_reachable_or hn hq hsymbols, htrap, eq_comm, or_comm]
  rw [hstates, Set.image_insert_eq, languageFrom_trap hn hq hsymbols htrap,
    ← residuals_eq_image_reachable hn hq hsymbols]

theorem finite_residuals : nfa.residuals.Finite := by
  rw [← residuals_inOrder hn hq hsymbols]
  exact Automaton.finite_residuals (wellFormed_inOrder hn fun c => (hsymbols c).mp)
    (deterministic_inOrder_of_start hq) (start_inOrder hq) (total_inOrder hn hq hsymbols)

variable {p : Partition} (hp : p.Minimal (inOrder nfa symbols).dfa)

include hp

/-- If no residual is empty, the trap is a class of its own. -/
theorem size_eq_succ (h : (inOrder nfa symbols).hasTrap = true ∧ ∅ ∉ nfa.residuals) :
    p.size = nfa.residuals.ncard + 1 := by
  obtain ⟨t, ht⟩ := Option.isSome_iff_exists.mp h.1
  rw [hp.size_eq_ncard (wellFormed_inOrder hn fun c => (hsymbols c).mp),
    image_languageFrom_inOrder_of_trap hn hq hsymbols ht]
  exact Set.ncard_insert_of_notMem h.2 (finite_residuals hn hq hsymbols)

theorem size_eq (h : ¬((inOrder nfa symbols).hasTrap = true ∧ ∅ ∉ nfa.residuals)) :
    p.size = nfa.residuals.ncard := by
  rw [hp.size_eq_ncard (wellFormed_inOrder hn fun c => (hsymbols c).mp)]
  cases htrap : (inOrder nfa symbols).trap with
  | none => rw [image_languageFrom_inOrder hn hq hsymbols htrap]
  | some t =>
    have hempty : ∅ ∈ nfa.residuals := by
      by_contra hempty
      exact h ⟨Option.isSome_iff_exists.mpr ⟨t, htrap⟩, hempty⟩
    rw [image_languageFrom_inOrder_of_trap hn hq hsymbols htrap, Set.insert_eq_of_mem hempty]

end Started

/-- Minimizing the subset construction gives an automaton with one reachable state for each
residual, and no total deterministic automaton for the language has fewer states. There are as many
classes as residuals, but one more if there is a trap and no residual is empty. -/
theorem minimize_ofNfa_residuals (hn : nfa.Built) (hstart : nfa.start.isSome = true) :
    nfa.residuals.Finite ∧ ∃ p, Partition.minimize (ofNfa nfa).dfa none = .ok p ∧
      (∀ w, (p.quotient (ofNfa nfa).dfa).accepts w = nfa.accepts w) ∧
      (p.quotient (ofNfa nfa).dfa).reachable.ncard = nfa.residuals.ncard ∧
      (∀ b : Automaton, b.WellFormed → b.isDeterministic = true → b.Total →
        b.start.isSome = true → b.alphabet = nfa.alphabet → (∀ w, b.accepts w = nfa.accepts w) →
          (p.quotient (ofNfa nfa).dfa).reachable.ncard ≤ b.size) ∧
      ((ofNfa nfa).hasTrap = true ∧ ∅ ∉ nfa.residuals → p.size = nfa.residuals.ncard + 1) ∧
      (¬((ofNfa nfa).hasTrap = true ∧ ∅ ∉ nfa.residuals) → p.size = nfa.residuals.ncard) := by
  obtain ⟨q, hq⟩ := Option.isSome_iff_exists.mp hstart
  have hw : nfa.WellFormed := hn.wellFormed
  have hsymbols : ∀ c, c ∈ nfa.alphabet.toList ↔ c ∈ nfa.alphabet := fun _ => Alphabet.mem_toList
  have hd : (ofNfa nfa).dfa.WellFormed := wellFormed_ofNfa hw
  have hdet : (ofNfa nfa).dfa.Deterministic := deterministic_inOrder_of_start hq
  have htotal : (ofNfa nfa).dfa.Total := total_inOrder hw hq hsymbols
  obtain ⟨p, hmin, hp⟩ := Partition.exists_minimize_eq_ok hd hdet htotal
  have hreachable : (p.quotient (ofNfa nfa).dfa).reachable.ncard = nfa.residuals.ncard := by
    rw [hp.ncard_reachable_quotient hd hdet htotal (start_inOrder hq)]
    exact congrArg Set.ncard (residuals_inOrder hw hq hsymbols)
  refine ⟨finite_residuals hw hq hsymbols, p, hmin, ?_, hreachable, ?_,
    size_eq_succ hw hq hsymbols hp, size_eq hw hq hsymbols hp⟩
  · intro w
    rw [hp.accepts_quotient hd hdet]
    exact Bool.eq_iff_iff.mpr (accepts_inOrder_iff hw hsymbols)
  · intro b hb hbdet hbtotal hbstart halphabet haccepts
    obtain ⟨r, hr⟩ := Option.isSome_iff_exists.mp hbstart
    rw [hreachable, ← Automaton.residuals_congr halphabet haccepts]
    exact Automaton.ncard_residuals_le hb (hb.isDeterministic_iff.mp hbdet) hr hbtotal

/-- Every word over the alphabet is accepted, but one of the states reached is stuck. -/
def idleTrap : Automaton := .ofEdits (.ofSymbols ['a'])
  [.addState "p" true, .addState "q" true, .addEdge 0 (.symbol 'a') 0, .addEdge 0 (.symbol 'a') 1]

theorem built_idleTrap : idleTrap.Built := Automaton.built_ofEdits _ _

theorem residuals_idleTrap : idleTrap.residuals = {idleTrap.words} := by
  have haccepts (w : List Char) (hw : w ∈ idleTrap.words) : idleTrap.accepts w = true := by
    rw [built_idleTrap.wellFormed.accepts_iff_path]
    refine ⟨0, by decide, 0, ?_, by decide⟩
    induction w with
    | nil => exact .refl 0
    | cons c w ih =>
      obtain ⟨hc, hrest⟩ := List.forall_mem_cons.mp hw
      obtain rfl : c = 'a' := List.mem_singleton.mp (Alphabet.mem_ofSymbols.mp hc)
      have he : ⟨0, .symbol 'a', 0⟩ ∈ idleTrap.edges := by decide
      exact .consume he (ih hrest)
  have hresidual (w : List Char) (hw : w ∈ idleTrap.words) :
      idleTrap.residual w = idleTrap.words := by
    ext v
    exact and_iff_left_of_imp fun hv => haccepts _ (List.forall_mem_append.mpr ⟨hw, hv⟩)
  ext L
  constructor
  · rintro ⟨w, hw, rfl⟩
    exact hresidual w hw
  · rintro rfl
    exact ⟨[], List.forall_mem_nil _, hresidual [] (List.forall_mem_nil _)⟩

theorem minimize_ofNfa_residuals_idleTrap :
    idleTrap.residuals.ncard = 1 ∧ (ofNfa idleTrap).hasTrap = true ∧
      ∃ p, Partition.minimize (ofNfa idleTrap).dfa none = .ok p ∧ p.size = 2 := by
  obtain ⟨_, p, hp, _, _, _, hsize, _⟩ := minimize_ofNfa_residuals built_idleTrap (by decide)
  have hncard : idleTrap.residuals.ncard = 1 := by rw [residuals_idleTrap, Set.ncard_singleton]
  have htrap : (ofNfa idleTrap).hasTrap = true := by decide
  -- The empty word is in the only residual.
  have hempty : ∅ ∉ idleTrap.residuals := by
    rw [residuals_idleTrap]
    intro h
    have hnil : [] ∈ idleTrap.words := List.forall_mem_nil _
    rw [← Set.mem_singleton_iff.mp h] at hnil
    exact hnil
  exact ⟨hncard, htrap, p, hp, by rw [hsize ⟨htrap, hempty⟩, hncard]⟩

end FiniteState.SubsetAutomaton
