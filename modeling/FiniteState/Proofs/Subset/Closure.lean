import FiniteState.Proofs.Automaton.Built
import FiniteState.Proofs.Subset.Move

/-! # Closure under silent edges

The search from a state finds this state and whatever chains of silent edges lead to, however long
they are and however often they come back to a state. The table of closures agrees with the search
on known states and holds nothing for unknown ones. Closing a set by the table is a closure
operator as far as the members are known.
-/

namespace FiniteState

/-- A silent edge leads from one state to another. -/
def Automaton.SilentStep (a : Automaton) (p q : StateId) : Prop := ⟨p, .epsilon, q⟩ ∈ a.edges

/-- The laws of a closure operator on the sets of states, of which it keeps the known members. -/
structure ClosesSets (a : Automaton) (close : StateSet → StateSet) : Prop where
  extensive : ∀ s, ∀ q ∈ s, q ∈ a → q ∈ close s
  monotone : ∀ s t : StateSet, (∀ q ∈ s, q ∈ t) → ∀ q ∈ close s, q ∈ close t
  union : ∀ s t, close (s ∪ t) = close s ∪ close t
  idempotent : ∀ s, close (close s) = close s

variable {a : Automaton} {q r : StateId} {s t : StateSet} {w : List Char}

namespace Closures

variable {closures : Closures}

theorem ofSet_mono (hst : ∀ q ∈ s, q ∈ t) : ∀ q ∈ closures.ofSet s, q ∈ closures.ofSet t := by
  intro q hq
  obtain ⟨p, hp, hpq⟩ := mem_ofSet.mp hq
  exact mem_ofSet.mpr ⟨p, hst p hp, hpq⟩

theorem ofSet_union : closures.ofSet (s ∪ t) = closures.ofSet s ∪ closures.ofSet t := by
  ext q
  simp only [mem_ofSet, OrderedSet.mem_union, or_and_right, exists_or]

end Closures

namespace Automaton.WellFormed

theorem mem_silentClosure_iff_transGen (ha : a.WellFormed) :
    r ∈ a.silentClosure q ↔ r = q ∨ Relation.TransGen a.SilentStep q r := by
  rw [ha.mem_silentClosure_iff, Path.nil_iff]
  exact Relation.reflTransGen_iff_eq_or_transGen

/-- The search along silent edges ends, whatever cycles there are. -/
theorem ends_silent (ha : a.WellFormed) (q : StateId) :
    Search.Ends (fun p => a.targets p .epsilon) (a.size + 1) [q] := by
  obtain ⟨hstart, hclosed, hbound⟩ := ha.silent_universe q
  exact Search.ends hstart hclosed hbound

/-- The closure of a set holds the ends of the silent paths from the known members. -/
theorem mem_ofSet_iff (ha : a.WellFormed) :
    r ∈ (Closures.ofAutomaton a).ofSet s ↔ ∃ q ∈ s, q ∈ a ∧ Path a.edgeSet q [] r := by
  simp only [Closures.mem_ofSet, ha.mem_ofState_iff]

/-- Closing a set first does not change where paths from its known members lead. -/
theorem exists_path_ofSet_iff (ha : a.WellFormed) :
    (∃ p ∈ (Closures.ofAutomaton a).ofSet s, p ∈ a ∧ Path a.edgeSet p w r) ↔
      ∃ q ∈ s, q ∈ a ∧ Path a.edgeSet q w r := by
  simp only [ha.mem_ofSet_iff]
  constructor
  · intro h
    obtain ⟨p, ⟨q, hq, hqa, hqp⟩, _, hpr⟩ := h
    exact ⟨q, hq, hqa, hqp.trans hpr⟩
  · intro h
    obtain ⟨q, hq, hqa, hqr⟩ := h
    exact ⟨q, ⟨q, hq, hqa, .refl q⟩, hqa, hqr⟩

theorem ofSet_ofSet (ha : a.WellFormed) :
    (Closures.ofAutomaton a).ofSet ((Closures.ofAutomaton a).ofSet s) =
      (Closures.ofAutomaton a).ofSet s := by
  ext r
  rw [ha.mem_ofSet_iff, ha.exists_path_ofSet_iff, ha.mem_ofSet_iff]

theorem closesSets (ha : a.WellFormed) : ClosesSets a (Closures.ofAutomaton a).ofSet where
  extensive _ q hq hqa := ha.mem_ofSet_iff.mpr ⟨q, hq, hqa, .refl q⟩
  monotone _ _ := Closures.ofSet_mono
  union _ _ := Closures.ofSet_union
  idempotent _ := ha.ofSet_ofSet

end Automaton.WellFormed

/-- The closure of a state consists of this state and of all that one or more silent edges lead to.
The search for it ends. The table holds it for known states and nothing for unknown ones, and the
closure of a set is the union of those of its members, which makes it a closure operator. -/
theorem silentClosure_laws (ha : a.Built) :
    (∀ q r, r ∈ a.silentClosure q ↔ r = q ∨ Relation.TransGen a.SilentStep q r) ∧
    (∀ q, Search.Ends (fun p => a.targets p .epsilon) (a.size + 1) [q]) ∧
    (∀ q ∈ a, (Closures.ofAutomaton a).ofState q = a.silentClosure q) ∧
    (∀ q, q ∉ a → (Closures.ofAutomaton a).ofState q = ∅) ∧
    (∀ s r, r ∈ (Closures.ofAutomaton a).ofSet s ↔
      ∃ q ∈ s, r ∈ (Closures.ofAutomaton a).ofState q) ∧
    ClosesSets a (Closures.ofAutomaton a).ofSet := by
  refine ⟨fun _ _ => ha.wellFormed.mem_silentClosure_iff_transGen, ha.wellFormed.ends_silent,
    ?_, ?_, fun _ _ => Closures.mem_ofSet, ha.wellFormed.closesSets⟩
  · intro q hq
    rw [Closures.ofState_ofAutomaton, if_pos hq]
  · intro q hq
    rw [Closures.ofState_ofAutomaton, if_neg hq]

/-- Three states on a silent cycle, from which a silent edge leads to a fourth one. -/
def silentRing : Automaton := .ofEdits (.ofSymbols ['a'])
  [.addState "p" false, .addState "q" false, .addState "r" false, .addState "s" true,
    .addEdge 0 .epsilon 1, .addEdge 1 .epsilon 2, .addEdge 2 .epsilon 0, .addEdge 2 .epsilon 3,
    .addEdge 3 (.symbol 'a') 0]

/-- Two silent edges lead to the fourth state. No state has the id nine. -/
theorem silentClosure_laws_ring :
    3 ∈ silentRing.silentClosure 1 ∧ silentRing.silentClosure 9 = .ofList [9] ∧
      (Closures.ofAutomaton silentRing).ofState 9 = ∅ ∧
      (Closures.ofAutomaton silentRing).ofSet (.ofList [0, 1, 2, 3]) =
        (Closures.ofAutomaton silentRing).ofSet (.ofList [2, 9]) := by
  have hbuilt : silentRing.Built := Automaton.built_ofEdits _ _
  obtain ⟨hclosure, _, _, hunknown, _, hlaws⟩ := silentClosure_laws hbuilt
  have hfirst : silentRing.SilentStep 1 2 := by unfold Automaton.SilentStep; decide
  have hsecond : silentRing.SilentStep 2 3 := by unfold Automaton.SilentStep; decide
  refine ⟨(hclosure 1 3).mpr (.inr (.tail (.single hfirst) hsecond)), by decide,
    hunknown 9 (by decide), ?_⟩
  have hset : (Closures.ofAutomaton silentRing).ofSet (.ofList [2, 9]) = .ofList [0, 1, 2, 3] := by
    decide
  rw [← hset]
  exact hlaws.idempotent _

end FiniteState
