import FiniteState.Pattern
import FiniteState.Proofs.Regex.Compilation
import FiniteState.Proofs.Regex.Step

/-! # Trees that are read

The reader joins parts only where there are some. A property of trees that literals have and
that stars, sequences and choices of at least one part hand on therefore holds for every tree that
is read, except that the empty pattern gives the empty tree.
-/

namespace FiniteState.Regex

/-- A property that the reader hands on from parts to the tree. -/
structure ReaderClosed (P : Regex → Prop) : Prop where
  literal : ∀ c, P (.literal c)
  star : ∀ r, P r → P (.star r)
  sequence : ∀ rs, rs ≠ [] → (∀ r ∈ rs, P r) → P (sequence rs)
  choice : ∀ rs, rs ≠ [] → (∀ r ∈ rs, P r) → P (choice rs)

variable {P : Regex → Prop}

/-- The finished alternatives and the current items have a property. -/
structure Branches.All (P : Regex → Prop) (b : Branches) : Prop where
  finished : ∀ r ∈ b.finished, P r
  items : ∀ r ∈ b.items, P r

/-- All trees that are kept while reading have a property. -/
structure PartialRead.All (P : Regex → Prop) (p : PartialRead) : Prop where
  branches : p.branches.All P
  groups : ∀ g ∈ p.groups, g.before.All P

namespace Branches.All

variable {b : Branches}

theorem none : Branches.none.All P :=
  ⟨fun _ hr => absurd hr List.not_mem_nil, fun _ hr => absurd hr List.not_mem_nil⟩

theorem push {r : Regex} (hb : b.All P) (hr : P r) : (b.push r).All P where
  finished := hb.finished
  items := List.forall_mem_cons.mpr ⟨hr, hb.items⟩

theorem finish (hP : ReaderClosed P) (hb : b.All P) (hne : b.items ≠ []) : b.finish.All P where
  finished := by
    refine List.forall_mem_cons.mpr ⟨?_, hb.finished⟩
    apply hP.sequence
    · exact mt List.reverse_eq_nil_iff.mp hne
    · intro r hr
      exact hb.items r (List.mem_reverse.mp hr)
  items _ hr := absurd hr List.not_mem_nil

theorem close (hP : ReaderClosed P) (hb : b.All P) (hne : b.items ≠ []) : P b.close := by
  apply hP.choice
  · exact mt List.reverse_eq_nil_iff.mp (List.cons_ne_nil _ _)
  · intro r hr
    exact (hb.finish hP hne).finished r (List.mem_reverse.mp hr)

end Branches.All

namespace PartialRead.All

variable {p q : PartialRead}

theorem start : PartialRead.start.All P := ⟨.none, fun _ hg => absurd hg List.not_mem_nil⟩

theorem step (hP : ReaderClosed P) (hp : p.All P) {t : PlacedToken} (h : Step p t q) :
    q.All P := by
  cases h with
  | character c offset => exact ⟨hp.branches.push (hP.literal c), hp.groups⟩
  | openGroup offset => exact ⟨.none, List.forall_mem_cons.mpr ⟨hp.branches, hp.groups⟩⟩
  | closeGroup offset hne =>
    obtain ⟨hbefore, houter⟩ := List.forall_mem_cons.mp hp.groups
    exact ⟨hbefore.push (hp.branches.close hP hne), houter⟩
  | bar offset hne => exact ⟨hp.branches.finish hP hne, hp.groups⟩
  | star offset =>
    obtain ⟨hr, hitems⟩ := List.forall_mem_cons.mp hp.branches.items
    exact ⟨⟨hp.branches.finished, List.forall_mem_cons.mpr ⟨hP.star _ hr, hitems⟩⟩, hp.groups⟩

theorem read (hP : ReaderClosed P) {tokens : List PlacedToken}
    (h : tokens.foldlM PartialRead.step .start = .ok p) : p.All P :=
  read_induction (P := fun p _ => p.All P) start (fun _ _ _ _ hp hstep => hp.step hP hstep) h

theorem result (hP : ReaderClosed P) (hp : p.All P) {endOffset : Nat} {r : Regex}
    (h : p.result endOffset = .ok r) : r = .empty ∨ P r := by
  unfold PartialRead.result at h
  split at h
  next => cases h
  next =>
    split at h
    next => cases h
    next =>
      cases h
      -- Without an item at the end there is no alternative either.
      split
      next => exact .inl rfl
      next hne => exact .inr (hp.branches.close hP (mt List.isEmpty_iff.mpr hne))

end PartialRead.All

/-- Every tree that is read is empty or has the property. -/
theorem eq_empty_or_of_ofString (hP : ReaderClosed P) {pattern : String} {r : Regex}
    (h : ofString pattern = .ok r) : r = .empty ∨ P r := by
  obtain ⟨ts, p, _, hread, hresult⟩ := exists_read_of_ofChars h
  exact (PartialRead.All.read hP hread).result hP hresult

theorem readerClosed_proper : ReaderClosed Proper where
  literal := .literal
  star _ := .star
  sequence _ hne hrs := proper_sequence hne hrs
  choice _ _ hrs := proper_choice hrs

theorem proper_of_ofString {pattern : String} {r : Regex} (h : ofString pattern = .ok r) :
    r.Proper := by
  rcases eq_empty_or_of_ofString readerClosed_proper h with rfl | hr
  · exact .empty
  · exact hr

end FiniteState.Regex

namespace FiniteState.Pattern

variable {text : String} {p : Pattern}

/-- A readable pattern is kept with its tree and the automaton of this tree. -/
theorem ofString_eq_ok_iff : ofString text = .ok p ↔
    ∃ r, Regex.ofString text = .ok r ∧ p = ⟨text, r, r.toAutomaton⟩ := by
  rw [ofString, Except.bind_eq_ok_iff]
  apply exists_congr
  intro r
  apply and_congr_right
  intro _
  simp only [pure, Except.pure, Except.ok.injEq]
  exact eq_comm

/-- The automata of proper trees accept what the trees denote. Trees that are read are proper, so
a pattern matches a word exactly if its tree denotes the word. -/
theorem accepts_iff_mem_language :
    (∀ r : Regex, r.Proper → ∀ w : List Char,
      r.toAutomaton.accepts w = true ↔ w ∈ r.language) ∧
    ∀ (text : String) (p : Pattern), ofString text = .ok p →
      Regex.ofString text = .ok p.regex ∧ p.regex.Proper ∧
        ∀ word : String, p.accepts word = true ↔ word.toList ∈ p.regex.language := by
  constructor
  · intro r _ w
    exact Regex.accepts_toAutomaton_iff
  · intro text p htext
    obtain ⟨r, hr, rfl⟩ := ofString_eq_ok_iff.mp htext
    exact ⟨hr, Regex.proper_of_ofString hr, fun word => Regex.accepts_toAutomaton_iff⟩

theorem accepts_iff_mem_language_sample :
    ((Regex.concat [.empty, .alternation [], .star .empty]).toAutomaton.accepts [] = true ↔
      [] ∈ (Regex.concat [.empty, .alternation [], .star .empty]).language) ∧
    ∃ p, ofString "(a|b)*" = .ok p ∧ p.accepts "ba" = true ∧ ['b', 'a'] ∈ p.regex.language := by
  constructor
  · refine accepts_iff_mem_language.1 _ (.concat (by simp) ?_) []
    simp only [List.forall_mem_cons, List.not_mem_nil, false_implies, implies_true, and_true]
    exact ⟨.empty, .alternation (by simp), .star .empty⟩
  · obtain ⟨p, hp⟩ : ∃ p, ofString "(a|b)*" = .ok p := ⟨_, rfl⟩
    have haccepts : p.accepts "ba" = true := by
      cases hp
      decide
    exact ⟨p, hp, haccepts, ((accepts_iff_mem_language.2 _ p hp).2.2 "ba").mp haccepts⟩

end FiniteState.Pattern
