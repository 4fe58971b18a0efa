import FiniteState.Regex.Basic
import FiniteState.Regex.Token
import Mathlib.Logic.Function.Iterate

/-! # Derivations of patterns

The grammar of patterns has three rules: an expression is one or more sequences with bars
between them, a sequence is one or more items, and an item is a character or an expression in
parentheses, with any number of stars after it. A derivation is determined by the tokens it
yields, even if other tokens follow which cannot belong to it.
-/

namespace FiniteState.Grammar

mutual

/-- `expression ::= sequence (BAR sequence)*` -/
inductive Expression where
  | single (sequence : Sequence)
  | bar (sequence : Sequence) (rest : Expression)

/-- `sequence ::= item+` -/
inductive Sequence where
  | single (item : Item)
  | next (item : Item) (rest : Sequence)

/-- `item ::= (CHARACTER | OPEN expression CLOSE) STAR*` -/
inductive Item where
  | character (c : Char) (stars : Nat)
  | group (inner : Expression) (stars : Nat)

end

/-! ## Tokens -/

mutual

/-- The tokens that a derivation yields. -/
def Expression.tokens : Expression → List Token
  | .single s => s.tokens
  | .bar s rest => s.tokens ++ .bar :: rest.tokens

def Sequence.tokens : Sequence → List Token
  | .single i => i.tokens
  | .next i rest => i.tokens ++ rest.tokens

def Item.tokens : Item → List Token
  | .character c stars => .character c :: List.replicate stars .star
  | .group e stars => .openGroup :: (e.tokens ++ .closeGroup :: List.replicate stars .star)

end

/-! ## Trees -/

mutual

/-- The trees of the sequences of an expression. -/
def Expression.alternatives : Expression → List Regex
  | .single s => [.sequence s.items]
  | .bar s rest => .sequence s.items :: rest.alternatives

/-- The trees of the items of a sequence. -/
def Sequence.items : Sequence → List Regex
  | .single i => [i.tree]
  | .next i rest => i.tree :: rest.items

/-- Every star wraps the tree once more; parentheses leave none of their own. -/
def Item.tree : Item → Regex
  | .character c stars => Regex.star^[stars] (.literal c)
  | .group e stars => Regex.star^[stars] (.choice e.alternatives)

end

/-- A single item stands for itself. -/
def Sequence.tree (s : Sequence) : Regex := .sequence s.items

/-- A single sequence stands for itself. -/
def Expression.tree (e : Expression) : Regex := .choice e.alternatives

/-! ## Unique reading -/

/-- Tokens with which no item goes on. -/
def EndsItem (ts : List Token) : Prop := ∀ t ∈ ts.head?, t ≠ .star

/-- Tokens with which no sequence goes on. -/
def EndsSequence (ts : List Token) : Prop := ∀ t ∈ ts.head?, t = .bar ∨ t = .closeGroup

/-- Tokens with which no expression goes on. -/
def EndsExpression (ts : List Token) : Prop := ∀ t ∈ ts.head?, t = .closeGroup

variable {us vs : List Token}

theorem EndsExpression.endsSequence (h : EndsExpression us) : EndsSequence us :=
  fun t ht => .inr (h t ht)

theorem EndsSequence.endsItem (h : EndsSequence us) : EndsItem us := by
  intro t ht hstar
  rcases h t ht with rfl | rfl <;> cases hstar

theorem Item.exists_tokens_eq (i : Item) :
    ∃ t rest, i.tokens = t :: rest ∧ t ≠ .star ∧ t ≠ .bar ∧ t ≠ .closeGroup := by
  cases i with
  | character c stars => exact ⟨_, _, rfl, nofun, nofun, nofun⟩
  | group e stars => exact ⟨_, _, rfl, nofun, nofun, nofun⟩

theorem Sequence.exists_tokens_eq (s : Sequence) :
    ∃ t rest, s.tokens = t :: rest ∧ t ≠ .star ∧ t ≠ .bar ∧ t ≠ .closeGroup := by
  cases s with
  | single i => exact i.exists_tokens_eq
  | next i s =>
    obtain ⟨t, rest, hi, ht⟩ := i.exists_tokens_eq
    exact ⟨t, rest ++ s.tokens, by rw [Sequence.tokens, hi]; rfl, ht⟩

theorem Sequence.endsItem_tokens (s : Sequence) (us : List Token) : EndsItem (s.tokens ++ us) := by
  obtain ⟨t, rest, hs, hstar, _⟩ := s.exists_tokens_eq
  simpa [EndsItem, hs] using hstar

theorem Sequence.not_endsSequence (s : Sequence) (us : List Token) :
    ¬EndsSequence (s.tokens ++ us) := by
  obtain ⟨t, rest, hs, _, hbar, hclose⟩ := s.exists_tokens_eq
  simp [EndsSequence, hs, hbar, hclose]

theorem endsSequence_bar (us : List Token) : EndsSequence (.bar :: us) := by
  simp [EndsSequence]

theorem not_endsExpression_bar (us : List Token) : ¬EndsExpression (.bar :: us) := by
  simp [EndsExpression]

/-- The stars of an item are all those that follow. -/
theorem stars_append_inj {m n : Nat} (hu : EndsItem us) (hv : EndsItem vs)
    (h : List.replicate m .star ++ us = List.replicate n .star ++ vs) : m = n ∧ us = vs := by
  induction m generalizing n with
  | zero =>
    cases n with
    | zero => exact ⟨rfl, h⟩
    | succ n =>
      rw [List.replicate_zero, List.nil_append] at h
      exact absurd rfl (hu .star (by rw [h]; rfl))
  | succ m ih =>
    cases n with
    | zero =>
      rw [List.replicate_zero, List.nil_append] at h
      exact absurd rfl (hv .star (by rw [← h]; rfl))
    | succ n =>
      obtain ⟨rfl, huv⟩ := ih (List.cons.inj h).2
      exact ⟨rfl, huv⟩

-- What ends one part is found in the other part as well, so both end at the same place.
mutual

theorem Expression.tokens_append_inj (e f : Expression) {us vs : List Token}
    (hu : EndsExpression us) (hv : EndsExpression vs) (h : e.tokens ++ us = f.tokens ++ vs) :
    e = f ∧ us = vs := by
  match e, f with
  | .single s, .single t =>
    obtain ⟨rfl, huv⟩ := s.tokens_append_inj t hu.endsSequence hv.endsSequence h
    exact ⟨rfl, huv⟩
  | .single s, .bar t f =>
    rw [Expression.tokens, Expression.tokens, List.append_assoc] at h
    obtain ⟨_, rfl⟩ := s.tokens_append_inj t hu.endsSequence (endsSequence_bar _) h
    exact absurd hu (not_endsExpression_bar _)
  | .bar s e, .single t =>
    rw [Expression.tokens, Expression.tokens, List.append_assoc] at h
    obtain ⟨_, rfl⟩ := s.tokens_append_inj t (endsSequence_bar _) hv.endsSequence h
    exact absurd hv (not_endsExpression_bar _)
  | .bar s e, .bar t f =>
    rw [Expression.tokens, Expression.tokens, List.append_assoc, List.append_assoc] at h
    obtain ⟨rfl, hrest⟩ := s.tokens_append_inj t (endsSequence_bar _) (endsSequence_bar _) h
    obtain ⟨rfl, huv⟩ := e.tokens_append_inj f hu hv (List.cons.inj hrest).2
    exact ⟨rfl, huv⟩

theorem Sequence.tokens_append_inj (s t : Sequence) {us vs : List Token}
    (hu : EndsSequence us) (hv : EndsSequence vs) (h : s.tokens ++ us = t.tokens ++ vs) :
    s = t ∧ us = vs := by
  match s, t with
  | .single i, .single j =>
    obtain ⟨rfl, huv⟩ := i.tokens_append_inj j hu.endsItem hv.endsItem h
    exact ⟨rfl, huv⟩
  | .single i, .next j t =>
    rw [Sequence.tokens, Sequence.tokens, List.append_assoc] at h
    obtain ⟨_, rfl⟩ := i.tokens_append_inj j hu.endsItem (t.endsItem_tokens vs) h
    exact absurd hu (t.not_endsSequence vs)
  | .next i s, .single j =>
    rw [Sequence.tokens, Sequence.tokens, List.append_assoc] at h
    obtain ⟨_, rfl⟩ := i.tokens_append_inj j (s.endsItem_tokens us) hv.endsItem h
    exact absurd hv (s.not_endsSequence us)
  | .next i s, .next j t =>
    rw [Sequence.tokens, Sequence.tokens, List.append_assoc, List.append_assoc] at h
    obtain ⟨rfl, hrest⟩ := i.tokens_append_inj j (s.endsItem_tokens us) (t.endsItem_tokens vs) h
    obtain ⟨rfl, huv⟩ := s.tokens_append_inj t hu hv hrest
    exact ⟨rfl, huv⟩

theorem Item.tokens_append_inj (i j : Item) {us vs : List Token}
    (hu : EndsItem us) (hv : EndsItem vs) (h : i.tokens ++ us = j.tokens ++ vs) :
    i = j ∧ us = vs := by
  match i, j with
  | .character c m, .character d n =>
    obtain ⟨hchar, hstars⟩ := List.cons.inj h
    cases hchar
    obtain ⟨rfl, huv⟩ := stars_append_inj hu hv hstars
    exact ⟨rfl, huv⟩
  | .character c m, .group f n => cases (List.cons.inj h).1
  | .group e m, .character d n => cases (List.cons.inj h).1
  | .group e m, .group f n =>
    have hclose (ts : List Token) : EndsExpression (.closeGroup :: ts) := by
      simp [EndsExpression]
    rw [Item.tokens, Item.tokens, List.cons_append, List.cons_append, List.append_assoc,
      List.append_assoc] at h
    obtain ⟨rfl, hrest⟩ := e.tokens_append_inj f (hclose _) (hclose _) (List.cons.inj h).2
    obtain ⟨rfl, huv⟩ := stars_append_inj hu hv (List.cons.inj hrest).2
    exact ⟨rfl, huv⟩

end

/-- Different expressions yield different tokens. -/
theorem Expression.tokens_injective : Function.Injective Expression.tokens := by
  intro e f h
  have hnil : EndsExpression [] := nofun
  exact (e.tokens_append_inj f hnil hnil (congrArg (· ++ []) h)).1

end FiniteState.Grammar
