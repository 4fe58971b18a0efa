import FiniteState.Proofs.Search
import Mathlib.Data.List.Induction
import Mathlib.Data.List.Shortlex
import Mathlib.Data.List.Sort
import Mathlib.Data.Prod.Lex

/-! # Order of discovery

A breadth-first search along symbols, tried in ascending order, finds each item by the least of the
words that lead to it, where shorter words come first and words of one length are in lexicographic
order. The items are found in the order of these words. The search itself keeps no words; one that
does finds the same items.
-/

namespace FiniteState

/-! ## Words -/

section Words

variable {σ : Type}

/-- The place of a word in the shortlex order. -/
def wordRank (w : List σ) : Nat ×ₗ List σ := toLex (w.length, w)

theorem wordRank_injective : Function.Injective (wordRank : List σ → Nat ×ₗ List σ) := by
  intro u v h
  exact congrArg (fun r => (ofLex r).2) h

variable [LinearOrder σ] {u v : List σ} {c d : σ}

theorem wordRank_lt_iff : wordRank u < wordRank v ↔ List.Shortlex (· < ·) u v := by
  rw [List.shortlex_def]
  exact Prod.Lex.lt_iff

theorem wordRank_lt_concat : wordRank u < wordRank (u ++ [c]) :=
  wordRank_lt_iff.mpr (.of_length_lt (by simp))

theorem wordRank_concat_lt (h : c < d) : wordRank (u ++ [c]) < wordRank (u ++ [d]) :=
  wordRank_lt_iff.mpr (.append_left ((List.shortlex_singleton_iff c d).mpr h) u)

/-- Lists of ascending words with the same entries are the same. -/
theorem eq_of_ascending_words {us vs : List (List σ)}
    (hus : us.Pairwise fun u v => wordRank u < wordRank v)
    (hvs : vs.Pairwise fun u v => wordRank u < wordRank v) (h : ∀ w, w ∈ us ↔ w ∈ vs) :
    us = vs := by
  refine List.map_injective_iff.mpr wordRank_injective ?_
  refine (List.pairwise_map.mpr hus).eq_of_mem_iff (List.pairwise_map.mpr hvs) ?_
  intro rank
  simp only [List.mem_map, h]

theorem lex_concat (hlength : u.length = v.length) (h : List.Lex (· < ·) u v) :
    List.Lex (· < ·) (u ++ [c]) (v ++ [d]) := by
  induction h with
  | nil => cases hlength
  | cons _ ih => exact .cons (ih (Nat.succ.inj hlength))
  | rel h => exact .rel h

/-- A word that comes before another still does when each gets one more symbol. -/
theorem wordRank_concat_lt_concat (h : wordRank u < wordRank v) :
    wordRank (u ++ [c]) < wordRank (v ++ [d]) := by
  rw [wordRank_lt_iff] at h ⊢
  rcases List.shortlex_def.mp h with hlength | ⟨hlength, hlex⟩
  · exact .of_length_lt (by simpa using hlength)
  · exact .of_lex (by simpa using hlength) (lex_concat hlength hlex)

theorem wordRank_concat_le_concat (h : wordRank u ≤ wordRank v) :
    wordRank (u ++ [c]) ≤ wordRank (v ++ [c]) := by
  rcases h.lt_or_eq with hlt | heq
  · exact (wordRank_concat_lt_concat hlt).le
  · rw [wordRank_injective heq]

end Words

namespace Search

variable {α σ : Type}

/-! ## Searches along symbols -/

/-- Where a word leads from an item, symbol by symbol, if it leads anywhere. -/
def follow (move : α → σ → Option α) (x : α) (w : List σ) : Option α := w.foldlM move x

section Follow

variable {move : α → σ → Option α} {x y : α} {w : List σ} {c : σ}

@[simp] theorem follow_nil : follow move x [] = some x := rfl

theorem follow_concat : follow move x (w ++ [c]) = (follow move x w).bind fun y => move y c := by
  unfold follow
  rw [List.foldlM_append]
  simp

end Follow

/-- A word leads to an item, and no word before it does. -/
structure IsLeastWord [LinearOrder σ] (move : α → σ → Option α) (root : α) (w : List σ) (x : α) :
    Prop where
  leads : follow move root w = some x
  least : ∀ v, follow move root v = some x → wordRank w ≤ wordRank v

variable [DecidableEq α]

/-- The entries of a list whose items are not known yet, one for each item, in the order of the
list. -/
def unseenBy {β : Type} (item : β → α) (known : List α) : List β → List β
  | [] => []
  | x :: rest =>
    if item x ∈ known then unseenBy item known rest
    else x :: unseenBy item (item x :: known) rest

section Unseen

variable {β : Type} {item : β → α} {known : List α} {xs : List β} {x : β}

theorem map_unseenBy : (unseenBy item known xs).map item = unseen known (xs.map item) := by
  induction xs generalizing known with
  | nil => rfl
  | cons x rest ih =>
    rw [unseenBy, List.map_cons, unseen]
    split
    · exact ih
    · rw [List.map_cons, ih]

theorem unseenBy_sublist : (unseenBy item known xs).Sublist xs := by
  induction xs generalizing known with
  | nil => exact .slnil
  | cons x rest ih =>
    unfold unseenBy
    split
    · exact ih.cons x
    · exact ih.cons_cons x

/-- An entry for an unknown item is kept, or one before it for the same item is. -/
theorem exists_mem_unseenBy {r : β → β → Prop} (hxs : xs.Pairwise r) (hx : x ∈ xs)
    (hknown : item x ∉ known) :
    ∃ y ∈ unseenBy item known xs, item y = item x ∧ (y = x ∨ r y x) := by
  induction xs generalizing known with
  | nil => cases hx
  | cons y rest ih =>
    obtain ⟨hy, hrest⟩ := List.pairwise_cons.mp hxs
    unfold unseenBy
    rcases List.mem_cons.mp hx with rfl | hx
    · rw [if_neg hknown]
      exact ⟨x, List.mem_cons_self, rfl, .inl rfl⟩
    · split
      · exact ih hrest hx hknown
      · by_cases hsame : item y = item x
        · exact ⟨y, List.mem_cons_self, hsame, .inr (hy x hx)⟩
        · have hunknown : item x ∉ item y :: known := by
            rw [List.mem_cons, not_or]
            exact ⟨fun h => hsame h.symm, hknown⟩
          obtain ⟨z, hz, hzx⟩ := ih hrest hx hunknown
          exact ⟨z, List.mem_cons_of_mem _ hz, hzx⟩

end Unseen

/-! ## Searches that keep words -/

/-- The items that the symbols lead to from an item, each with a word one symbol longer. -/
def moves (move : α → σ → Option α) (symbols : List σ) (p : List σ × α) : List (List σ × α) :=
  symbols.filterMap fun c => (move p.2 c).map fun y => (p.1 ++ [c], y)

/-- Expands the oldest waiting item and keeps the words of what it leads to. -/
def stepWords (move : α → σ → Option α) (symbols : List σ) (t : Search (List σ × α)) :
    Search (List σ × α) :=
  match t.waiting with
  | [] => t
  | p :: rest =>
    ⟨t.expanded ++ [p], rest ++ unseenBy (·.2) (t.found.map (·.2)) (moves move symbols p)⟩

/-- The search without its words. -/
def forgetWords (t : Search (List σ × α)) : Search α :=
  ⟨t.expanded.map (·.2), t.waiting.map (·.2)⟩

/-- What a search along symbols keeps if it keeps words: those of the items found lead to them and
are ascending, and what an expanded item leads to has been found by no greater word. -/
structure InWordOrder [LinearOrder σ] (move : α → σ → Option α) (root : α)
    (t : Search (List σ × α)) : Prop where
  root_mem : ([], root) ∈ t.found
  leads : ∀ p ∈ t.found, follow move root p.1 = some p.2
  ascending : t.found.Pairwise fun p q => wordRank p.1 < wordRank q.1
  /-- What a waiting item leads to comes after all that has been found. -/
  before : ∀ p ∈ t.found, ∀ q ∈ t.waiting, ∀ c, wordRank p.1 < wordRank (q.1 ++ [c])
  settled : ∀ p ∈ t.expanded, ∀ c y, move p.2 c = some y →
    ∃ q ∈ t.found, q.2 = y ∧ wordRank q.1 ≤ wordRank (p.1 ++ [c])

section Steps

variable {move : α → σ → Option α} {symbols : List σ} {root : α} {t : Search (List σ × α)}
  {p q : List σ × α} {rest : List (List σ × α)}

omit [DecidableEq α] in
theorem map_moves : (moves move symbols p).map (·.2) = symbols.filterMap (move p.2) := by
  simp [moves, List.map_filterMap, Function.comp_def]

omit [DecidableEq α] in
theorem mem_moves_iff : q ∈ moves move symbols p ↔
    ∃ c ∈ symbols, q.1 = p.1 ++ [c] ∧ move p.2 c = some q.2 := by
  simp only [moves, List.mem_filterMap, Option.map_eq_some_iff]
  constructor
  · rintro ⟨c, hc, y, hy, rfl⟩
    exact ⟨c, hc, rfl, hy⟩
  · rintro ⟨c, hc, hw, hy⟩
    exact ⟨c, hc, q.2, hy, Prod.ext hw.symm rfl⟩

omit [DecidableEq α] in
theorem found_forgetWords : (forgetWords t).found = t.found.map (·.2) := by
  rw [found, found, List.map_append]
  rfl

/-- Keeping words changes nothing about a step. -/
theorem forgetWords_stepWords : forgetWords (stepWords move symbols t) =
    (forgetWords t).step fun x => symbols.filterMap (move x) := by
  unfold stepWords step
  cases hw : t.waiting with
  | nil => simp [forgetWords, hw]
  | cons p rest =>
    simp only [forgetWords, hw, List.map_cons, List.map_append, map_unseenBy, map_moves,
      ← found_forgetWords]
    rfl

variable [LinearOrder σ]

omit [DecidableEq α] in
theorem pairwise_moves (hsymbols : symbols.Pairwise (· < ·)) :
    (moves move symbols p).Pairwise fun q r => wordRank q.1 < wordRank r.1 := by
  refine hsymbols.filterMap _ ?_
  intro c d hcd q hq r hr
  obtain ⟨_, _, rfl⟩ := Option.map_eq_some_iff.mp hq
  obtain ⟨_, _, rfl⟩ := Option.map_eq_some_iff.mp hr
  exact wordRank_concat_lt hcd

omit [DecidableEq α] in
/-- The invariant is kept if the oldest waiting item is expanded and new items are put last, in the
order of their words, so that all it leads to has been found. -/
theorem InWordOrder.expand (ht : t.InWordOrder move root) (hw : t.waiting = p :: rest)
    {new : List (List σ × α)}
    (hword : ∀ q ∈ new, ∃ c, q.1 = p.1 ++ [c] ∧ move p.2 c = some q.2)
    (hascending : new.Pairwise fun q r => wordRank q.1 < wordRank r.1)
    (hall : ∀ c y, move p.2 c = some y →
      ∃ q ∈ t.found ++ new, q.2 = y ∧ wordRank q.1 ≤ wordRank (p.1 ++ [c])) :
    InWordOrder move root ⟨t.expanded ++ [p], rest ++ new⟩ := by
  have hfound : found ⟨t.expanded ++ [p], rest ++ new⟩ = t.found ++ new := by simp [found, hw]
  have hp : p ∈ t.found := by simp [found, hw]
  have hpwaiting : p ∈ t.waiting := hw ▸ List.mem_cons_self
  -- All that waits now comes after the expanded item.
  have hlater : ∀ q ∈ rest ++ new, wordRank p.1 < wordRank q.1 := by
    intro q hq
    rcases List.mem_append.mp hq with hq | hq
    · have hwaiting : (p :: rest).Pairwise fun q r => wordRank q.1 < wordRank r.1 :=
        hw ▸ (List.pairwise_append.mp ht.ascending).2.1
      exact List.rel_of_pairwise_cons hwaiting hq
    · obtain ⟨c, hc, _⟩ := hword q hq
      exact hc ▸ wordRank_lt_concat
  refine ⟨?_, ?_, ?_, ?_, ?_⟩
  · rw [hfound]
    exact List.mem_append_left _ ht.root_mem
  · rw [hfound, List.forall_mem_append]
    refine ⟨ht.leads, ?_⟩
    intro q hq
    obtain ⟨c, hc, hmove⟩ := hword q hq
    rw [hc, follow_concat, ht.leads p hp, Option.bind_some, hmove]
  · rw [hfound, List.pairwise_append]
    refine ⟨ht.ascending, hascending, ?_⟩
    intro r hr q hq
    obtain ⟨c, hc, _⟩ := hword q hq
    exact hc ▸ ht.before r hr p hpwaiting c
  · rw [hfound, List.forall_mem_append]
    refine ⟨?_, ?_⟩
    · intro r hr q hq d
      calc wordRank r.1
          < wordRank (p.1 ++ [d]) := ht.before r hr p hpwaiting d
        _ < wordRank (q.1 ++ [d]) := wordRank_concat_lt_concat (hlater q hq)
    · intro r hr q hq d
      obtain ⟨c, hc, _⟩ := hword r hr
      exact hc ▸ wordRank_concat_lt_concat (hlater q hq)
  · rw [hfound, List.forall_mem_append, List.forall_mem_singleton]
    refine ⟨?_, hall⟩
    intro r hr c y hy
    obtain ⟨q, hq, hqy⟩ := ht.settled r hr c y hy
    exact ⟨q, List.mem_append_left _ hq, hqy⟩

variable (hsymbols : symbols.Pairwise (· < ·)) (hmove : ∀ x c y, move x c = some y → c ∈ symbols)

include hsymbols hmove

theorem InWordOrder.stepWords (ht : t.InWordOrder move root) :
    (stepWords move symbols t).InWordOrder move root := by
  unfold Search.stepWords
  cases hw : t.waiting with
  | nil => exact ht
  | cons p rest =>
    have hp : p ∈ t.waiting := hw ▸ List.mem_cons_self
    refine ht.expand hw ?_ ((pairwise_moves hsymbols).sublist unseenBy_sublist) ?_
    · intro q hq
      obtain ⟨c, _, hc⟩ := mem_moves_iff.mp (unseenBy_sublist.subset hq)
      exact ⟨c, hc⟩
    · intro c y hy
      by_cases hknown : y ∈ t.found.map (·.2)
      · obtain ⟨q, hq, hqy⟩ := List.mem_map.mp hknown
        exact ⟨q, List.mem_append_left _ hq, hqy, (ht.before q hq p hp c).le⟩
      · have hmem : (p.1 ++ [c], y) ∈ moves move symbols p :=
          mem_moves_iff.mpr ⟨c, hmove p.2 c y hy, rfl, hy⟩
        obtain ⟨q, hq, hqy, hle⟩ : ∃ q ∈ unseenBy (·.2) (t.found.map (·.2)) (moves move symbols p),
            q.2 = y ∧ (q = (p.1 ++ [c], y) ∨ wordRank q.1 < wordRank (p.1 ++ [c])) :=
          exists_mem_unseenBy (pairwise_moves hsymbols) hmem hknown
        refine ⟨q, List.mem_append_right _ hq, hqy, ?_⟩
        rcases hle with rfl | hlt
        · exact le_rfl
        · exact hlt.le

variable (root) in
/-- Whatever a search along symbols has found, it could have kept the words. -/
theorem exists_inWordOrder_run (fuel : Nat) : ∃ t : Search (List σ × α),
    forgetWords t = (start [root]).run (fun x => symbols.filterMap (move x)) fuel ∧
      t.InWordOrder move root := by
  refine run_induction (P := fun s => ∃ t : Search (List σ × α), forgetWords t = s ∧
    t.InWordOrder move root) ?_ fuel ?_
  · rintro _ ⟨t, rfl, ht⟩
    exact ⟨_, forgetWords_stepWords, ht.stepWords hsymbols hmove⟩
  · refine ⟨⟨[], [([], root)]⟩, rfl, ?_⟩
    constructor
    all_goals simp [found, wordRank_lt_iff, List.shortlex_def]

end Steps

/-! ## Least words -/

section Complete

variable [LinearOrder σ] {move : α → σ → Option α} {symbols : List σ} {root : α} {bound : Nat}

omit [DecidableEq α] in
/-- When nothing is waiting, every word leads to an item that has been found by no greater one. -/
theorem InWordOrder.exists_found {t : Search (List σ × α)} (ht : t.InWordOrder move root)
    (hwaiting : t.waiting = []) {w : List σ} {x : α} (hw : follow move root w = some x) :
    ∃ p ∈ t.found, p.2 = x ∧ wordRank p.1 ≤ wordRank w := by
  induction w using List.reverseRecOn generalizing x with
  | nil =>
    cases hw
    exact ⟨_, ht.root_mem, rfl, le_rfl⟩
  | append_singleton w c ih =>
    rw [follow_concat] at hw
    obtain ⟨y, hy, hyx⟩ := Option.bind_eq_some_iff.mp hw
    obtain ⟨p, hp, rfl, hle⟩ := ih hy
    have hexpanded : p ∈ t.expanded := by simpa [found, hwaiting] using hp
    obtain ⟨q, hq, hqx, hqle⟩ := ht.settled p hexpanded c x hyx
    exact ⟨q, hq, hqx, hqle.trans (wordRank_concat_le_concat hle)⟩

/-- A search along ascending symbols that ends has found the items in the order of their least
words. -/
theorem exists_leastWords {next : α → List α} (hnext : ∀ x, next x = symbols.filterMap (move x))
    (hsymbols : symbols.Pairwise (· < ·)) (hmove : ∀ x c y, move x c = some y → c ∈ symbols)
    (hends : Ends next bound [root]) :
    ∃ words : List (List σ), words.Pairwise (fun u v => wordRank u < wordRank v) ∧
      List.Forall₂ (IsLeastWord move root) words (reach next bound [root]) := by
  obtain rfl : next = fun x => symbols.filterMap (move x) := funext hnext
  obtain ⟨t, hforget, ht⟩ := exists_inWordOrder_run root hsymbols hmove bound
  have hreach : reach (fun x => symbols.filterMap (move x)) bound [root] = t.found.map (·.2) := by
    rw [reach, ← hforget, found_forgetWords]
  have hend : t.waiting = [] := by
    rw [Ends, ← hforget] at hends
    exact List.map_eq_nil_iff.mp hends
  refine ⟨t.found.map (·.1), List.pairwise_map.mpr ht.ascending, ?_⟩
  rw [hreach, List.forall₂_map_left_iff, List.forall₂_map_right_iff, List.forall₂_same]
  intro p hp
  refine ⟨ht.leads p hp, ?_⟩
  intro v hv
  obtain ⟨q, hq, hqp, hle⟩ := ht.exists_found hend hv
  -- No item is found twice, so the lesser word is the one kept.
  have hnodup : (t.found.map (·.2)).Nodup := hreach ▸ nodup_reach bound [root]
  rwa [List.inj_on_of_nodup_map hnodup hq hp hqp] at hle

end Complete

end Search

end FiniteState
