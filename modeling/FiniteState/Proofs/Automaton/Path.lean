import FiniteState.Automaton.Basic
import Mathlib.Data.Set.Basic
import Mathlib.Logic.Relation

/-! # Paths

A path follows edges and spells the word of their labels, silent ones left out. Paths are taken
along any set of edges, so that a path through a large automaton can be cut into paths through
its parts.
-/

namespace FiniteState

/-- Some path along the edges leads from one state to another and spells the word. -/
inductive Path (E : Set Edge) : StateId → List Char → StateId → Prop where
  | refl (q : StateId) : Path E q [] q
  | silent {q r t : StateId} {w : List Char} :
      ⟨q, .epsilon, r⟩ ∈ E → Path E r w t → Path E q w t
  | consume {q r t : StateId} {c : Char} {w : List Char} :
      ⟨q, .symbol c, r⟩ ∈ E → Path E r w t → Path E q (c :: w) t

namespace Path

variable {E F : Set Edge} {q r s t : StateId} {u v w : List Char} {c : Char}

theorem mono (hsub : E ⊆ F) (hp : Path E q w t) : Path F q w t := by
  induction hp with
  | refl q => exact .refl q
  | silent he _ ih => exact .silent (hsub he) ih
  | consume he _ ih => exact .consume (hsub he) ih

theorem trans (hp : Path E q u r) (hr : Path E r v t) : Path E q (u ++ v) t := by
  induction hp with
  | refl q => exact hr
  | silent he _ ih => exact .silent he (ih hr)
  | consume he _ ih => exact .consume he (ih hr)

theorem single (he : ⟨q, .epsilon, r⟩ ∈ E) : Path E q [] r := .silent he (.refl r)

theorem eq_of_forall_not_mem (hp : Path E q w t) (hnone : ∀ e ∈ E, e.source ≠ q) :
    w = [] ∧ t = q := by
  cases hp with
  | refl => exact ⟨rfl, rfl⟩
  | silent he => exact absurd rfl (hnone _ he)
  | consume he => exact absurd rfl (hnone _ he)

/-- A path to another state begins with an edge. -/
theorem exists_first (hp : Path E q w t) (hne : q ≠ t) :
    (∃ r, ⟨q, .epsilon, r⟩ ∈ E ∧ Path E r w t) ∨
      ∃ c v r, w = c :: v ∧ ⟨q, .symbol c, r⟩ ∈ E ∧ Path E r v t := by
  cases hp with
  | refl => exact absurd rfl hne
  | silent he hp => exact .inl ⟨_, he, hp⟩
  | consume he hp => exact .inr ⟨_, _, _, rfl, he, hp⟩

/-- A path that spells a word with a first character consumes it along one edge, after silent
edges only. -/
theorem cons_iff :
    Path E q (c :: w) t ↔ ∃ r s, Path E q [] r ∧ ⟨r, .symbol c, s⟩ ∈ E ∧ Path E s w t := by
  constructor
  · intro hp
    generalize hcw : c :: w = x at hp
    induction hp with
    | refl => cases hcw
    | silent he _ ih =>
      obtain ⟨r, s, hr, hrs, hs⟩ := ih hcw
      exact ⟨r, s, .silent he hr, hrs, hs⟩
    | @consume q s _ _ _ he hs _ =>
      cases hcw
      exact ⟨q, s, .refl q, he, hs⟩
  · intro h
    obtain ⟨r, s, hr, hrs, hs⟩ := h
    exact hr.trans (.consume hrs hs)

theorem append_iff : Path E q (u ++ v) t ↔ ∃ r, Path E q u r ∧ Path E r v t := by
  constructor
  · intro hp
    induction u generalizing q with
    | nil => exact ⟨q, .refl q, hp⟩
    | cons c u ih =>
      obtain ⟨r, s, hr, hrs, hs⟩ := cons_iff.mp hp
      obtain ⟨x, hx, ht⟩ := ih hs
      exact ⟨x, cons_iff.mpr ⟨r, s, hr, hrs, hx⟩, ht⟩
  · rintro ⟨r, hr, ht⟩
    exact hr.trans ht

/-- The silent paths are the chains of silent edges. -/
theorem nil_iff : Path E q [] t ↔ Relation.ReflTransGen (fun x y => ⟨x, .epsilon, y⟩ ∈ E) q t := by
  constructor
  · intro hp
    generalize hw : ([] : List Char) = w at hp
    induction hp with
    | refl q => exact .refl
    | silent he _ ih => exact .head he (ih hw)
    | consume => cases hw
  · intro hqt
    induction hqt using Relation.ReflTransGen.head_induction_on with
    | refl => exact .refl t
    | head he _ ih => exact .silent he ih

/-- The paths of any words are the chains of edges. -/
theorem exists_word_iff :
    (∃ w, Path E q w t) ↔ Relation.ReflTransGen (fun x y => ∃ label, ⟨x, label, y⟩ ∈ E) q t := by
  constructor
  · rintro ⟨w, hp⟩
    induction hp with
    | refl q => exact .refl
    | silent he _ ih => exact .head ⟨_, he⟩ ih
    | consume he _ ih => exact .head ⟨_, he⟩ ih
  · intro hqt
    induction hqt using Relation.ReflTransGen.head_induction_on with
    | refl => exact ⟨[], .refl t⟩
    | head he _ ih =>
      obtain ⟨label, he⟩ := he
      obtain ⟨w, hp⟩ := ih
      cases label with
      | epsilon => exact ⟨w, .silent he hp⟩
      | symbol c => exact ⟨c :: w, .consume he hp⟩

/-- A property that every edge hands on from its source to its target holds along paths. -/
theorem preserves {P : StateId → Prop} (hp : Path E q w t)
    (hedge : ∀ e ∈ E, P e.source → P e.target) (hq : P q) : P t := by
  induction hp with
  | refl => exact hq
  | silent he _ ih => exact ih (hedge _ he hq)
  | consume he _ ih => exact ih (hedge _ he hq)

/-- If every edge can be followed from a related state to a related state, so can every path. -/
theorem simulate {R : StateId → StateId → Prop} (hp : Path E q w t)
    (hedge : ∀ e ∈ E, ∀ x, R e.source x → ∃ y, ⟨x, e.label, y⟩ ∈ F ∧ R e.target y)
    (hq : R q r) : ∃ s, Path F r w s ∧ R t s := by
  induction hp generalizing r with
  | refl => exact ⟨r, .refl r, hq⟩
  | silent he _ ih =>
    obtain ⟨y, hy, hR⟩ := hedge _ he r hq
    obtain ⟨s, hs, ht⟩ := ih hR
    exact ⟨s, .silent hy hs, ht⟩
  | consume he _ ih =>
    obtain ⟨y, hy, hR⟩ := hedge _ he r hq
    obtain ⟨s, hs, ht⟩ := ih hR
    exact ⟨s, .consume hy hs, ht⟩

/-- A path from a region that silent edges leave at one state only stays inside along the edges
of the region, or leaves there. -/
theorem leave {P Q : StateId → Prop} {x : StateId} (hp : Path E q w t)
    (hedge : ∀ e ∈ E, P e.source →
      (e ∈ F ∧ P e.target) ∨ (e.source = x ∧ e.label = .epsilon ∧ Q e.target))
    (hq : P q) :
    (P t ∧ Path F q w t) ∨
      ∃ u v y, w = u ++ v ∧ Path F q u x ∧ Q y ∧ Path E y v t := by
  -- Only the first edge out of the region matters; what follows it is kept as it is.
  induction hp with
  | refl q => exact .inl ⟨hq, .refl q⟩
  | @silent q r t w he hr ih =>
    rcases hedge _ he hq with ⟨hF, hP⟩ | ⟨rfl, _, hQ⟩
    · rcases ih hP with ⟨ht, hr⟩ | ⟨u, v, y, rfl, hu, hy, hv⟩
      · exact .inl ⟨ht, .silent hF hr⟩
      · exact .inr ⟨u, v, y, rfl, .silent hF hu, hy, hv⟩
    · exact .inr ⟨[], w, r, rfl, .refl q, hQ, hr⟩
  | @consume q r t c w he hr ih =>
    rcases hedge _ he hq with ⟨hF, hP⟩ | ⟨_, hlabel, _⟩
    · rcases ih hP with ⟨ht, hr⟩ | ⟨u, v, y, rfl, hu, hy, hv⟩
      · exact .inl ⟨ht, .consume hF hr⟩
      · exact .inr ⟨c :: u, v, y, rfl, .consume hF hu, hy, hv⟩
    · cases hlabel

/-- A path from a region that no edge leaves follows the edges of the region. -/
theorem stay {P : StateId → Prop} (hp : Path E q w t)
    (hedge : ∀ e ∈ E, P e.source → e ∈ F ∧ P e.target) (hq : P q) : Path F q w t := by
  rcases hp.leave (Q := fun _ => False) (x := q) (fun e he hP => .inl (hedge e he hP)) hq with
    ⟨_, hF⟩ | ⟨_, _, _, _, _, hy, _⟩
  · exact hF
  · exact hy.elim

end Path

/-- The edges of an automaton as a set. -/
def Automaton.edgeSet (a : Automaton) : Set Edge := {e | e ∈ a.edges}

@[simp] theorem Automaton.mem_edgeSet {a : Automaton} {e : Edge} :
    e ∈ a.edgeSet ↔ e ∈ a.edges := .rfl

end FiniteState
