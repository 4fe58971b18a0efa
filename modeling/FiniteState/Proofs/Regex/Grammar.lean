import FiniteState.Proofs.Regex.Derivation
import FiniteState.Proofs.Regex.Step

/-! # Reading follows the grammar

The reader gives a tree exactly if the tokens of the pattern have a derivation, and then the tree
of that derivation. From a derivation to the reading, each part adds its trees to what is open;
from the reading to a derivation, what has been read so far consists of finished derivations.
-/

namespace FiniteState.Grammar

open Regex (Branches OpenGroup PartialRead)
open Regex.PartialRead (Step read_append read_cons)

/-- The characters spell the tokens of the derivation. -/
def Expression.Derives (e : Expression) (cs : List Char) : Prop :=
  ∃ ts, Token.Spelled 0 cs ts ∧ ts.map (·.token) = e.tokens

variable {ts : List PlacedToken} {finished items : List Regex} {groups : List OpenGroup}

/-! ## Derivations are read -/

/-- Stars wrap the last item. -/
theorem read_stars {stars : Nat} {r : Regex}
    (hts : ts.map (·.token) = List.replicate stars .star) :
    ts.foldlM PartialRead.step ⟨⟨finished, r :: items⟩, groups⟩ =
      .ok ⟨⟨finished, Regex.star^[stars] r :: items⟩, groups⟩ := by
  induction stars generalizing ts r with
  | zero =>
    obtain rfl := List.map_eq_nil_iff.mp hts
    rfl
  | succ stars ih =>
    obtain ⟨⟨token, offset⟩, us, rfl, rfl, hus⟩ := List.map_eq_cons_iff.mp hts
    rw [read_cons (.star offset)]
    exact ih hus

theorem Sequence.items_ne_nil (s : Sequence) : s.items ≠ [] := by
  cases s <;> exact List.cons_ne_nil _ _

mutual

/-- Reading an expression leaves its last sequence open. -/
theorem Expression.read (e : Expression) {ts : List PlacedToken} (hts : ts.map (·.token) = e.tokens)
    (finished : List Regex) (groups : List OpenGroup) :
    ∃ b : Branches, ts.foldlM PartialRead.step ⟨⟨finished, []⟩, groups⟩ = .ok ⟨b, groups⟩ ∧
      b.items ≠ [] ∧ b.finish.finished = e.alternatives.reverse ++ finished := by
  match e with
  | .single s =>
    refine ⟨_, s.read hts finished [] groups, ?_, ?_⟩
    · simpa using s.items_ne_nil
    · simp [Branches.finish, Branches.current, Expression.alternatives]
  | .bar s rest =>
    obtain ⟨us, vs, rfl, hus, hvs⟩ := List.map_eq_append_iff.mp hts
    obtain ⟨⟨token, offset⟩, ws, rfl, rfl, hws⟩ := List.map_eq_cons_iff.mp hvs
    have hsequence := s.read hus finished [] groups
    rw [List.append_nil] at hsequence
    have hne : s.items.reverse ≠ [] := mt List.reverse_eq_nil_iff.mp s.items_ne_nil
    have hbar : Step ⟨⟨finished, s.items.reverse⟩, groups⟩ ⟨.bar, offset⟩ _ := .bar offset hne
    simp only [Branches.finish, Branches.current, List.reverse_reverse] at hbar
    obtain ⟨b, hread, hitems, hfinished⟩ := rest.read hws (.sequence s.items :: finished) groups
    refine ⟨b, ?_, hitems, ?_⟩
    · rw [read_append hsequence, read_cons hbar, hread]
    · simp [hfinished, Expression.alternatives]

/-- Reading a sequence adds its items. -/
theorem Sequence.read (s : Sequence) {ts : List PlacedToken} (hts : ts.map (·.token) = s.tokens)
    (finished items : List Regex) (groups : List OpenGroup) :
    ts.foldlM PartialRead.step ⟨⟨finished, items⟩, groups⟩ =
      .ok ⟨⟨finished, s.items.reverse ++ items⟩, groups⟩ := by
  match s with
  | .single i => exact i.read hts finished items groups
  | .next i rest =>
    obtain ⟨us, vs, rfl, hus, hvs⟩ := List.map_eq_append_iff.mp hts
    rw [read_append (i.read hus finished items groups), rest.read hvs]
    simp [Sequence.items]

/-- Reading an item adds it. -/
theorem Item.read (i : Item) {ts : List PlacedToken} (hts : ts.map (·.token) = i.tokens)
    (finished items : List Regex) (groups : List OpenGroup) :
    ts.foldlM PartialRead.step ⟨⟨finished, items⟩, groups⟩ =
      .ok ⟨⟨finished, i.tree :: items⟩, groups⟩ := by
  match i with
  | .character c stars =>
    obtain ⟨⟨token, offset⟩, us, rfl, rfl, hus⟩ := List.map_eq_cons_iff.mp hts
    rw [read_cons (.character c offset)]
    exact read_stars hus
  | .group e stars =>
    obtain ⟨⟨token, offset⟩, us, rfl, rfl, hus⟩ := List.map_eq_cons_iff.mp hts
    obtain ⟨vs, ws, rfl, hvs, hws⟩ := List.map_eq_append_iff.mp hus
    obtain ⟨⟨token, close⟩, xs, rfl, rfl, hxs⟩ := List.map_eq_cons_iff.mp hws
    obtain ⟨b, hread, hitems, hfinished⟩ := e.read hvs [] (⟨offset, ⟨finished, items⟩⟩ :: groups)
    have htree : b.close = .choice e.alternatives := by
      simp [Branches.close, hfinished]
    rw [read_cons (.openGroup offset), Branches.none, read_append hread,
      read_cons (.closeGroup close hitems), htree]
    exact read_stars hxs

end

/-- A pattern with a derivation is read as its tree. -/
theorem Expression.Derives.ofChars_eq {e : Expression} {cs : List Char} (h : e.Derives cs) :
    Regex.ofChars cs = .ok e.tree := by
  obtain ⟨ts, hspelled, hts⟩ := h
  obtain ⟨b, hread, hitems, hfinished⟩ := e.read hts [] []
  have htree : b.close = e.tree := by simp [Branches.close, hfinished, Expression.tree]
  have hstart : ts.foldlM PartialRead.step .start = .ok ⟨b, []⟩ := hread
  rw [Regex.ofChars_eq_of_spelled hspelled, Regex.ofTokens, hstart]
  change PartialRead.result ⟨b, []⟩ cs.length = _
  simp [PartialRead.result, hitems, htree]

/-! ## What is read has a derivation -/

def Sequence.ofItems (earlier : List Item) (last : Item) : Sequence :=
  earlier.foldr .next (.single last)

def Expression.ofSequences (earlier : List Sequence) (last : Sequence) : Expression :=
  earlier.foldr .bar (.single last)

theorem Sequence.items_ofItems (earlier : List Item) (last : Item) :
    (Sequence.ofItems earlier last).items = (earlier ++ [last]).map Item.tree := by
  induction earlier with
  | nil => rfl
  | cons i earlier ih => exact congrArg (i.tree :: ·) ih

theorem Sequence.tokens_ofItems (earlier : List Item) (last : Item) :
    (Sequence.ofItems earlier last).tokens = (earlier ++ [last]).flatMap Item.tokens := by
  induction earlier with
  | nil => exact (List.append_nil _).symm
  | cons i earlier ih => exact congrArg (i.tokens ++ ·) ih

theorem Expression.alternatives_ofSequences (earlier : List Sequence) (last : Sequence) :
    (Expression.ofSequences earlier last).alternatives =
      (earlier ++ [last]).map Sequence.tree := by
  induction earlier with
  | nil => rfl
  | cons s earlier ih => exact congrArg (s.tree :: ·) ih

theorem Expression.tokens_ofSequences (earlier : List Sequence) (last : Sequence) :
    (Expression.ofSequences earlier last).tokens =
      earlier.flatMap (fun s => s.tokens ++ [.bar]) ++ last.tokens := by
  induction earlier with
  | nil => rfl
  | cons s earlier ih =>
    change s.tokens ++ .bar :: (Expression.ofSequences earlier last).tokens = _
    simp [ih]

/-- One more star after an item. -/
def Item.starred : Item → Item
  | .character c stars => .character c (stars + 1)
  | .group e stars => .group e (stars + 1)

theorem Item.tree_starred (i : Item) : i.starred.tree = .star i.tree := by
  cases i <;> exact Function.iterate_succ_apply' _ _ _

theorem Item.tokens_starred (i : Item) : i.starred.tokens = i.tokens ++ [.star] := by
  cases i <;> simp [Item.starred, Item.tokens, List.replicate_succ']

/-- The derivations of the parts that have been read of a group, or of the whole pattern. -/
structure Draft where
  /-- The sequences that a bar has ended, latest first. -/
  sequences : List Sequence
  /-- The items after the last bar, latest first. -/
  items : List Item

namespace Draft

def branches (d : Draft) : Branches := ⟨d.sequences.map Sequence.tree, d.items.map Item.tree⟩

def tokens (d : Draft) : List Token :=
  d.sequences.reverse.flatMap (fun s => s.tokens ++ [.bar]) ++ d.items.reverse.flatMap Item.tokens

/-- The items make up a sequence. -/
theorem exists_sequence {d : Draft} (h : d.items ≠ []) : ∃ s : Sequence,
    s.tree = d.branches.current ∧ s.tokens = d.items.reverse.flatMap Item.tokens := by
  obtain ⟨last, earlier, hitems⟩ := List.exists_cons_of_ne_nil h
  refine ⟨.ofItems earlier.reverse last, ?_, ?_⟩
  · simp [Sequence.tree, Sequence.items_ofItems, branches, Branches.current, hitems]
  · simp [Sequence.tokens_ofItems, hitems]

/-- All that has been read makes up an expression, unless the last sequence has no items. -/
theorem exists_expression {d : Draft} (h : d.items ≠ []) : ∃ e : Expression,
    e.tree = d.branches.close ∧ e.tokens = d.tokens := by
  obtain ⟨last, htree, htokens⟩ := exists_sequence h
  refine ⟨.ofSequences d.sequences.reverse last, ?_, ?_⟩
  · rw [Branches.close, Branches.finish, ← htree]
    simp [Expression.tree, Expression.alternatives_ofSequences, branches]
  · rw [Expression.tokens_ofSequences, htokens, tokens]

end Draft

/-- The tokens up to the parenthesis of the innermost open group. -/
inductive Outside : List OpenGroup → List Token → Prop where
  | nil : Outside [] []
  | cons {groups : List OpenGroup} {us : List Token} (offset : Nat) (d : Draft) :
      Outside groups us → Outside (⟨offset, d.branches⟩ :: groups) (us ++ d.tokens ++ [.openGroup])

/-- What has been read of some tokens consists of derivations that yield them. -/
def Drafted (p : PartialRead) (tokens : List Token) : Prop :=
  ∃ us d, Outside p.groups us ∧ Draft.branches d = p.branches ∧ us ++ d.tokens = tokens

namespace Drafted

variable {p q : PartialRead} {tokens : List Token} {t : PlacedToken}

theorem start : Drafted .start [] := ⟨[], ⟨[], []⟩, .nil, rfl, rfl⟩

theorem step (hp : Drafted p tokens) (h : Step p t q) : Drafted q (tokens ++ [t.token]) := by
  obtain ⟨us, d, houtside, hbranches, rfl⟩ := hp
  obtain ⟨sequences, items⟩ := d
  cases h with
  | character c offset =>
    subst hbranches
    exact ⟨us, ⟨sequences, .character c 0 :: items⟩, houtside, rfl,
      by simp [Draft.tokens, Item.tokens]⟩
  | openGroup offset =>
    subst hbranches
    exact ⟨_, ⟨[], []⟩, .cons offset _ houtside, rfl, by simp [Draft.tokens]⟩
  | closeGroup offset hne =>
    subst hbranches
    obtain ⟨e, htree, htokens⟩ := Draft.exists_expression (mt List.map_eq_nil_iff.mpr hne)
    cases houtside with
    | cons offset outer houtside =>
      refine ⟨_, ⟨outer.sequences, .group e 0 :: outer.items⟩, houtside, ?_, ?_⟩
      · rw [← htree]
        rfl
      · rw [← htokens]
        simp [Draft.tokens, Item.tokens]
  | bar offset hne =>
    subst hbranches
    obtain ⟨s, htree, htokens⟩ := Draft.exists_sequence (mt List.map_eq_nil_iff.mpr hne)
    refine ⟨us, ⟨s :: sequences, []⟩, houtside, ?_, ?_⟩
    · rw [Branches.finish, ← htree]
      rfl
    · simp [Draft.tokens, htokens]
  | star offset =>
    obtain ⟨rfl, hitems⟩ := Branches.mk.inj hbranches
    obtain ⟨i, earlier, rfl, rfl, rfl⟩ := List.map_eq_cons_iff.mp hitems
    refine ⟨us, ⟨sequences, i.starred :: earlier⟩, houtside, ?_, ?_⟩
    · simp [Draft.branches, Item.tree_starred]
    · simp [Draft.tokens, Item.tokens_starred]

theorem read (h : ts.foldlM PartialRead.step .start = .ok p) : Drafted p (ts.map (·.token)) := by
  apply PartialRead.read_induction (P := fun p ts => Drafted p (ts.map (·.token))) start ?_ h
  intro p t q ts hp hstep
  simpa using hp.step hstep

theorem result {endOffset : Nat} {r : Regex} (hp : Drafted p tokens)
    (h : p.result endOffset = .ok r) :
    (tokens = [] ∧ r = .empty) ∨ ∃ e : Expression, e.tree = r ∧ e.tokens = tokens := by
  obtain ⟨branches, groups⟩ := p
  obtain ⟨us, d, houtside, rfl, rfl⟩ := hp
  unfold PartialRead.result at h
  split at h
  · cases h
  next hclosed =>
    cases houtside with
    | cons => cases h
    | nil =>
      by_cases hitems : d.items = []
      · have hsequences : d.sequences = [] := by
          simpa [Draft.branches, hitems] using hclosed
        left
        simpa [Draft.branches, Draft.tokens, hitems, hsequences, eq_comm] using h
      · obtain ⟨e, htree, htokens⟩ := Draft.exists_expression hitems
        right
        refine ⟨e, ?_, by simpa using htokens⟩
        rw [htree]
        simpa [Draft.branches, hitems] using h

end Drafted

/-- Every tree that is read is that of a derivation, except for the empty pattern. -/
theorem exists_derives {cs : List Char} {r : Regex} (h : Regex.ofChars cs = .ok r) :
    (cs = [] ∧ r = .empty) ∨ ∃ e : Expression, e.Derives cs ∧ e.tree = r := by
  obtain ⟨ts, p, hspelled, hread, hresult⟩ := Regex.exists_read_of_ofChars h
  rcases (Drafted.read hread).result hresult with ⟨hts, hr⟩ | ⟨e, htree, htokens⟩
  · obtain rfl := List.map_eq_nil_iff.mp hts
    cases hspelled
    exact .inl ⟨rfl, hr⟩
  · exact .inr ⟨e, ⟨ts, hspelled, htokens.symm⟩, htree⟩

/-- Characters have only one derivation. -/
theorem Expression.Derives.unique {e f : Expression} {cs : List Char} (he : e.Derives cs)
    (hf : f.Derives cs) : e = f := by
  obtain ⟨ts, hts, hets⟩ := he
  obtain ⟨us, hus, hfus⟩ := hf
  have hscan := (Token.scan_eq_ok_of_spelled hts).symm.trans (Token.scan_eq_ok_of_spelled hus)
  cases hscan
  exact Expression.tokens_injective (hets.symm.trans hfus)

/-- The reader accepts the empty pattern and those that have a derivation; the tree is that of
the derivation, of which there is only one. -/
theorem ofString_eq_ok_iff_derives (pattern : String) :
    (∀ r, Regex.ofString pattern = .ok r ↔
      (pattern = "" ∧ r = .empty) ∨ ∃ e : Expression, e.Derives pattern.toList ∧ e.tree = r) ∧
    ∀ e f : Expression, e.Derives pattern.toList → f.Derives pattern.toList → e = f := by
  refine ⟨fun r => ⟨?_, ?_⟩, fun e f => Expression.Derives.unique⟩
  · intro h
    rcases exists_derives h with ⟨hpattern, hr⟩ | hderives
    · exact .inl ⟨String.toList_eq_nil_iff.mp hpattern, hr⟩
    · exact .inr hderives
  · rintro (⟨rfl, rfl⟩ | ⟨e, hderives, rfl⟩)
    · rfl
    · exact hderives.ofChars_eq

theorem ofString_eq_ok_iff_derives_sample :
    ∃ e : Expression, e.Derives "(a|\\))*".toList ∧
      Regex.ofString "(a|\\))*" = .ok (.star (.alternation [.literal 'a', .literal ')'])) ∧
      ∀ f : Expression, f.Derives "(a|\\))*".toList → f = e := by
  let alternatives : Expression :=
    .bar (.single (.character 'a' 0)) (.single (.single (.character ')' 0)))
  let e : Expression := .single (.single (.group alternatives 1))
  have he : e.Derives "(a|\\))*".toList := ⟨_, Token.scan_eq_ok_iff.mp rfl, rfl⟩
  refine ⟨e, he, ?_, fun f hf => (ofString_eq_ok_iff_derives _).2 f e hf he⟩
  exact ((ofString_eq_ok_iff_derives _).1 _).mpr (.inr ⟨e, he, rfl⟩)

end FiniteState.Grammar
