import FiniteState.Regex.Reading
import FiniteState.Proofs.Automaton.Change
import FiniteState.Proofs.Regex.Spelling

/-! # Steps of the reader

What each token does to what has been read, and when it can follow. A property of partial reads
that every step hands on holds when all tokens have been read.
-/

namespace FiniteState.Regex

variable {p q : PartialRead} {t : PlacedToken} {ts us : List PlacedToken} {cs : List Char}

namespace PartialRead

inductive Step : PartialRead → PlacedToken → PartialRead → Prop where
  | character {b : Branches} {groups : List OpenGroup} (c : Char) (offset : Nat) :
      Step ⟨b, groups⟩ ⟨.character c, offset⟩ ⟨b.push (.literal c), groups⟩
  | openGroup {b : Branches} {groups : List OpenGroup} (offset : Nat) :
      Step ⟨b, groups⟩ ⟨.openGroup, offset⟩ ⟨.none, ⟨offset, b⟩ :: groups⟩
  | closeGroup {b : Branches} {g : OpenGroup} {outer : List OpenGroup} (offset : Nat) :
      b.items ≠ [] → Step ⟨b, g :: outer⟩ ⟨.closeGroup, offset⟩ ⟨g.before.push b.close, outer⟩
  | bar {b : Branches} {groups : List OpenGroup} (offset : Nat) :
      b.items ≠ [] → Step ⟨b, groups⟩ ⟨.bar, offset⟩ ⟨b.finish, groups⟩
  | star {finished : List Regex} {r : Regex} {items : List Regex} {groups : List OpenGroup}
      (offset : Nat) : Step ⟨⟨finished, r :: items⟩, groups⟩ ⟨.star, offset⟩
        ⟨⟨finished, .star r :: items⟩, groups⟩

theorem Step.step_eq (h : Step p t q) : p.step t = .ok q := by
  cases h with
  | character | openGroup | star => rfl
  | closeGroup offset hitems => simp [step, hitems]
  | bar offset hitems => simp [step, hitems]

theorem step_eq_ok_iff : p.step t = .ok q ↔ Step p t q := by
  refine ⟨?_, Step.step_eq⟩
  intro h
  obtain ⟨⟨finished, items⟩, groups⟩ := p
  obtain ⟨token, offset⟩ := t
  cases token with
  | character c =>
    cases h
    exact .character c offset
  | openGroup =>
    cases h
    exact .openGroup offset
  | closeGroup =>
    cases items with
    | nil => cases h
    | cons r items =>
      cases groups with
      | nil => cases h
      | cons g outer =>
        cases h
        exact .closeGroup offset (List.cons_ne_nil r items)
  | bar =>
    cases items with
    | nil => cases h
    | cons r items =>
      cases h
      exact .bar offset (List.cons_ne_nil r items)
  | star =>
    cases items with
    | nil => cases h
    | cons r items =>
      cases h
      exact .star offset

theorem read_append (h : ts.foldlM step p = .ok q) :
    (ts ++ us).foldlM step p = us.foldlM step q := by
  rw [List.foldlM_append, h]
  rfl

theorem read_cons (h : Step p t q) : (t :: ts).foldlM step p = ts.foldlM step q := by
  rw [List.foldlM_cons, h.step_eq]
  rfl

/-- A property that every step hands on holds for all that is read. -/
theorem read_induction {P : PartialRead → List PlacedToken → Prop} (hstart : P start [])
    (hstep : ∀ p t q ts, P p ts → Step p t q → P q (ts ++ [t]))
    (h : ts.foldlM step start = .ok p) : P p ts := by
  induction ts using List.reverseRecOn generalizing p with
  | nil =>
    cases h
    exact hstart
  | append_singleton ts t ih =>
    rw [List.foldlM_append, Except.bind_eq_ok_iff] at h
    obtain ⟨p', hread, h⟩ := h
    rw [List.foldlM_cons, Except.bind_eq_ok_iff] at h
    obtain ⟨q, hq, h⟩ := h
    cases h
    exact hstep p' t p ts (ih hread) (step_eq_ok_iff.mp hq)

end PartialRead

theorem ofChars_eq_of_spelled (h : Token.Spelled 0 cs ts) : ofChars cs = ofTokens cs.length ts := by
  rw [ofChars, Token.scan_eq_ok_of_spelled h]
  rfl

/-- A pattern is read if it is spelled by tokens that are read. -/
theorem exists_read_of_ofChars {r : Regex} (h : ofChars cs = .ok r) :
    ∃ ts p, Token.Spelled 0 cs ts ∧ ts.foldlM PartialRead.step .start = .ok p ∧
      p.result cs.length = .ok r := by
  simp only [ofChars, ofTokens, Except.bind_eq_ok_iff] at h
  obtain ⟨ts, hscan, p, hread, hresult⟩ := h
  exact ⟨ts, p, Token.scan_eq_ok_iff.mp hscan, hread, hresult⟩

end FiniteState.Regex
