import FiniteState.Proofs.Regex.Canonical

/-! # Fragments without useless states

Every state of the fragment of a solid tree lies on a path from the entry to the exit. This goes
by the construction of the fragment, and each step needs more of its parts than that: no edge
enters the entry and none leaves the exit. The ids of the fragment are counted by the nodes of the
tree that take two of them each.
-/

namespace FiniteState

/-! ## Connected states -/

/-- Some path leads from one state to another. -/
def Connected (E : Set Edge) (x y : StateId) : Prop := ∃ w, Path E x w y

namespace Connected

variable {E F : Set Edge} {x y z : StateId}

theorem refl (E : Set Edge) (x : StateId) : Connected E x x := ⟨[], .refl x⟩

theorem mono (hsub : E ⊆ F) (h : Connected E x y) : Connected F x y :=
  h.imp fun _ hp => hp.mono hsub

theorem trans (hxy : Connected E x y) (hyz : Connected E y z) : Connected E x z := by
  obtain ⟨u, hu⟩ := hxy
  obtain ⟨v, hv⟩ := hyz
  exact ⟨u ++ v, hu.trans hv⟩

theorem silent (he : Fragment.silent x y ∈ E) : Connected E x y := ⟨[], .single he⟩

end Connected

/-- No edge enters the entry or leaves the exit, and every state lies between them. -/
structure TrimBetween (E : Set Edge) (states : Set StateId) (entry exit : StateId) : Prop where
  target_ne_entry : ∀ e ∈ E, e.target ≠ entry
  source_ne_exit : ∀ e ∈ E, e.source ≠ exit
  from_entry : ∀ q ∈ states, Connected E entry q
  to_exit : ∀ q ∈ states, Connected E q exit

/-- Besides the entry and the exit, which are connected, only inner states need to be looked at. -/
theorem TrimBetween.of_inner {E : Set Edge} {states inner : Set StateId} {entry exit : StateId}
    (htarget : ∀ e ∈ E, e.target ≠ entry) (hsource : ∀ e ∈ E, e.source ≠ exit)
    (hcross : Connected E entry exit)
    (hinner : ∀ q ∈ inner, Connected E entry q ∧ Connected E q exit)
    (hstates : ∀ q ∈ states, q = entry ∨ q = exit ∨ q ∈ inner) :
    TrimBetween E states entry exit := by
  refine ⟨htarget, hsource, ?_, ?_⟩
  · intro q hq
    rcases hstates q hq with rfl | rfl | hq
    · exact .refl E q
    · exact hcross
    · exact (hinner q hq).1
  · intro q hq
    rcases hstates q hq with rfl | rfl | hq
    · exact hcross
    · exact .refl E q
    · exact (hinner q hq).2

namespace Fragment

variable {alphabet : Alphabet} {n m : StateId} {f g : Fragment} {fs : List Fragment} {c : Char}

/-- A fragment whose states are those from the first id up to the next one, and none of them is
useless. -/
structure Trim (f : Fragment) (alphabet : Alphabet) (n : StateId) : Prop extends
    f.Spans alphabet n, TrimBetween f.edgeSet (Set.Ico n f.next) f.entry f.exit

/-- Trim fragments, each from the id after those of the one before. -/
inductive TrimInTurn (alphabet : Alphabet) : StateId → List Fragment → Prop where
  | nil (n : StateId) : TrimInTurn alphabet n []
  | cons {n : StateId} {f : Fragment} {fs : List Fragment} : f.Trim alphabet n →
      TrimInTurn alphabet f.next fs → TrimInTurn alphabet n (f :: fs)

/-- Every fragment realizes the words that it spells. -/
theorem TrimInTurn.realizeInTurn (hfs : TrimInTurn alphabet n fs) :
    ∃ Ls, RealizeInTurn alphabet n fs Ls := by
  induction hfs with
  | nil n => exact ⟨[], .nil n⟩
  | @cons n f fs hf _ ih =>
    obtain ⟨Ls, hLs⟩ := ih
    exact ⟨{w | Path f.edgeSet f.entry w f.exit} :: Ls, .cons ⟨hf.toSpans, fun _ => .rfl⟩ hLs⟩

/-! ## Single states and characters -/

/-- Two new states are the first of two ids and the one after it. -/
theorem eq_or_eq_succ {n q : Nat} (hle : n ≤ q) (hlt : q < n + 2) : q = n ∨ q = n + 1 := by
  omega

theorem trim_point (alphabet : Alphabet) (n : StateId) : (point n).Trim alphabet n where
  toSpans := (realizes_point alphabet n).toSpans
  target_ne_entry _ he := absurd he List.not_mem_nil
  source_ne_exit _ he := absurd he List.not_mem_nil
  from_entry q hq := by
    rw [Nat.eq_of_le_of_lt_succ hq.1 hq.2]
    exact .refl _ n
  to_exit q hq := by
    rw [Nat.eq_of_le_of_lt_succ hq.1 hq.2]
    exact .refl _ n

theorem trim_literal (hc : c ∈ alphabet) (n : StateId) : (literal n c).Trim alphabet n := by
  have hjoin : Connected (literal n c).edgeSet n (n + 1) :=
    ⟨[c], .consume (List.mem_singleton_self _) (.refl _)⟩
  refine ⟨(realizes_literal hc n).toSpans, .of_inner ?_ ?_ hjoin (fun _ => False.elim) ?_⟩
  · intro e he
    rw [List.mem_singleton.mp he]
    exact Nat.succ_ne_self n
  · intro e he
    rw [List.mem_singleton.mp he]
    exact (Nat.succ_ne_self n).symm
  · intro q hq
    exact (eq_or_eq_succ hq.1 hq.2).imp_right .inl

/-! ## Sequences -/

theorem edgeSet_subset_append_left : f.edgeSet ⊆ (f.append g).edgeSet :=
  fun _ he => mem_append_edges.mpr (.inl he)

theorem edgeSet_subset_append_right : g.edgeSet ⊆ (f.append g).edgeSet :=
  fun _ he => mem_append_edges.mpr (.inr (.inl he))

theorem Trim.append (hf : f.Trim alphabet n) (hg : g.Trim alphabet f.next) :
    (f.append g).Trim alphabet n := by
  have hentry : f.entry < f.next := hf.entry_mem.2
  have hexit : f.next ≤ g.exit := hg.exit_mem.1
  -- The silent edge joins everything in the first part to everything in the second one.
  have hjoin : Connected (f.append g).edgeSet f.exit g.entry :=
    .silent (mem_append_edges.mpr (.inr (.inr rfl)))
  have henter : ∀ q ∈ Set.Ico n f.next, Connected (f.append g).edgeSet f.entry q :=
    fun q hq => (hf.from_entry q hq).mono edgeSet_subset_append_left
  have hleave : ∀ q ∈ Set.Ico f.next g.next, Connected (f.append g).edgeSet q g.exit :=
    fun q hq => (hg.to_exit q hq).mono edgeSet_subset_append_right
  refine ⟨hf.toSpans.append hg.toSpans, ?_, ?_, ?_, ?_⟩
  · intro e he
    rcases mem_append_edges.mp he with he | he | rfl
    · exact hf.target_ne_entry e he
    · exact (hentry.trans_le (hg.between e he).target_mem.1).ne'
    · exact (hentry.trans_le hg.entry_mem.1).ne'
  · intro e he
    rcases mem_append_edges.mp he with he | he | rfl
    · exact ((hf.between e he).source_mem.2.trans_le hexit).ne
    · exact hg.source_ne_exit e he
    · exact (hf.exit_mem.2.trans_le hexit).ne
  · intro q hq
    rcases Nat.lt_or_ge q f.next with hlt | hle
    · exact henter q ⟨hq.1, hlt⟩
    · have hsecond : Connected (f.append g).edgeSet g.entry q :=
        (hg.from_entry q ⟨hle, hq.2⟩).mono edgeSet_subset_append_right
      exact (henter f.exit hf.exit_mem).trans (hjoin.trans hsecond)
  · intro q hq
    rcases Nat.lt_or_ge q f.next with hlt | hle
    · have hfirst : Connected (f.append g).edgeSet q f.exit :=
        (hf.to_exit q ⟨hq.1, hlt⟩).mono edgeSet_subset_append_left
      exact hfirst.trans (hjoin.trans (hleave g.entry hg.entry_mem))
    · exact hleave q ⟨hle, hq.2⟩

theorem Trim.foldl_append (hf : f.Trim alphabet n) (hfs : TrimInTurn alphabet f.next fs) :
    (fs.foldl Fragment.append f).Trim alphabet n := by
  induction fs generalizing f with
  | nil => exact hf
  | cons g fs ih =>
    cases hfs with
    | cons hg hfs => exact ih (hf.append hg) hfs

theorem trim_chain (hfs : TrimInTurn alphabet n fs) : (chain n fs).Trim alphabet n := by
  cases hfs with
  | nil => exact trim_point alphabet n
  | cons hf hfs => exact hf.foldl_append hfs

/-! ## Choices -/

/-- The states of all branches lie between the two states of the choice. -/
theorem TrimInTurn.connected (n : StateId) (hfs : TrimInTurn alphabet m fs) :
    ∀ q ∈ Set.Ico m (lastNext m fs), Connected {e | e ∈ branchEdges n fs} n q ∧
      Connected {e | e ∈ branchEdges n fs} q (n + 1) := by
  induction hfs with
  | nil m => exact fun q hq => absurd hq.2 (Nat.not_lt_of_le hq.1)
  | @cons m f fs hf _ ih =>
    intro q hq
    rcases Nat.lt_or_ge q f.next with hlt | hle
    · have hsub : f.edgeSet ⊆ {e | e ∈ branchEdges n (f :: fs)} :=
        fun e he => mem_branchEdges_cons.mpr (.inl (.inl he))
      have henter : Connected {e | e ∈ branchEdges n (f :: fs)} n f.entry :=
        .silent (mem_branchEdges_cons.mpr (.inl (.inr (.inl rfl))))
      have hleave : Connected {e | e ∈ branchEdges n (f :: fs)} f.exit (n + 1) :=
        .silent (mem_branchEdges_cons.mpr (.inl (.inr (.inr rfl))))
      exact ⟨henter.trans ((hf.from_entry q ⟨hq.1, hlt⟩).mono hsub),
        ((hf.to_exit q ⟨hq.1, hlt⟩).mono hsub).trans hleave⟩
    · have hsub : {e | e ∈ branchEdges n fs} ⊆ {e | e ∈ branchEdges n (f :: fs)} :=
        fun e he => mem_branchEdges_cons.mpr (.inr he)
      rw [lastNext_cons] at hq
      exact (ih q ⟨hle, hq.2⟩).imp (.mono hsub) (.mono hsub)

/-- A choice without branches would not connect its two states. -/
theorem trim_fork (hfs : TrimInTurn alphabet (n + 2) fs) (hne : fs ≠ []) :
    (fork n fs).Trim alphabet n := by
  obtain ⟨Ls, hLs⟩ := hfs.realizeInTurn
  have hcross : Connected (fork n fs).edgeSet n (n + 1) := by
    cases hfs with
    | nil => exact absurd rfl hne
    | @cons _ f fs hf hfs =>
      obtain ⟨_, hrest⟩ := hfs.realizeInTurn
      have hentry : f.entry ∈ Set.Ico (n + 2) (lastNext (n + 2) (f :: fs)) := by
        rw [lastNext_cons]
        exact ⟨hf.entry_mem.1, hf.entry_mem.2.trans_le hrest.le_lastNext⟩
      have hthrough := (TrimInTurn.cons hf hfs).connected n f.entry hentry
      exact hthrough.1.trans hthrough.2
  refine ⟨(realizes_fork hLs).toSpans, .of_inner ?_ ?_ hcross (hfs.connected n) ?_⟩
  · intro e he htarget
    rcases (hLs.branchEdges_fit he).2.2 with hn | hmem
    · exact Nat.succ_ne_self n (hn.symm.trans htarget)
    · exact absurd htarget (Nat.lt_of_succ_lt (Nat.lt_of_succ_le hmem.1)).ne'
  · intro e he hsource
    rcases (hLs.branchEdges_fit he).2.1 with ⟨hn, _⟩ | hmem
    · exact Nat.succ_ne_self n (hsource.symm.trans hn)
    · exact absurd hsource (Nat.lt_of_succ_le hmem.1).ne'
  · intro q hq
    rcases Nat.lt_or_ge q (n + 2) with hlt | hge
    · exact (eq_or_eq_succ hq.1 hlt).imp_right .inl
    · exact .inr (.inr ⟨hge, hq.2⟩)

/-! ## Repetition -/

theorem Trim.loop (hf : f.Trim alphabet n) : f.loop.Trim alphabet n := by
  have hrealizes : f.Realizes alphabet n {w | Path f.edgeSet f.entry w f.exit} :=
    ⟨hf.toSpans, fun _ => .rfl⟩
  have henter : Connected f.loop.edgeSet f.next f.entry :=
    .silent (mem_loop_edges.mpr (.inr (.inl rfl)))
  have hleave : Connected f.loop.edgeSet f.exit (f.next + 1) :=
    .silent (mem_loop_edges.mpr (.inr (.inr (.inr (.inl rfl)))))
  have hskip : Connected f.loop.edgeSet f.next (f.next + 1) :=
    .silent (mem_loop_edges.mpr (.inr (.inr (.inr (.inr rfl)))))
  have hinner : ∀ q ∈ Set.Ico n f.next,
      Connected f.loop.edgeSet f.next q ∧ Connected f.loop.edgeSet q (f.next + 1) := by
    intro q hq
    exact ⟨henter.trans ((hf.from_entry q hq).mono edgeSet_subset_loop),
      ((hf.to_exit q hq).mono edgeSet_subset_loop).trans hleave⟩
  refine ⟨hrealizes.loop.toSpans, .of_inner ?_ (loop_source_ne_exit hrealizes) hskip hinner ?_⟩
  · intro e he
    rcases mem_loop_edges.mp he with he | rfl | rfl | rfl | rfl
    · exact (hf.between e he).target_mem.2.ne
    · exact hf.entry_mem.2.ne
    · exact hf.entry_mem.2.ne
    · exact Nat.succ_ne_self _
    · exact Nat.succ_ne_self _
  · intro q hq
    rcases Nat.lt_or_ge q f.next with hlt | hge
    · exact .inr (.inr ⟨hq.1, hlt⟩)
    · exact (eq_or_eq_succ hge hq.2).imp_right .inl

/-! ## Trees -/

theorem trimInTurn_ofList {rs : List Regex} (h : ∀ r ∈ rs, ∀ n, (ofRegex n r).Trim alphabet n)
    (n : StateId) : TrimInTurn alphabet n (ofList n rs) := by
  induction rs generalizing n with
  | nil => exact .nil n
  | cons r rs ih =>
    obtain ⟨hr, hrs⟩ := List.forall_mem_cons.mp h
    exact .cons (hr n) (ih hrs _)

theorem ofList_eq_nil_iff {rs : List Regex} : ofList n rs = [] ↔ rs = [] := by
  cases rs <;> simp [ofList]

theorem forall_literals_of_literalsOf {rs : List Regex}
    (h : ∀ c ∈ Regex.literalsOf rs, c ∈ alphabet) : ∀ r ∈ rs, ∀ c ∈ r.literals, c ∈ alphabet := by
  intro r hr c hc
  rw [Regex.literalsOf_eq_flatMap] at h
  exact h c (List.mem_flatMap.mpr ⟨r, hr, hc⟩)

/-- The fragment of a solid tree has no useless states. -/
theorem trim_ofRegex {r : Regex} (hr : r.Solid) (h : ∀ c ∈ r.literals, c ∈ alphabet)
    (n : StateId) : (ofRegex n r).Trim alphabet n := by
  induction hr generalizing n with
  | literal c =>
    rw [ofRegex]
    exact trim_literal (h c (List.mem_singleton_self c)) n
  | concat _ _ ih =>
    rw [ofRegex]
    have hparts := forall_literals_of_literalsOf h
    exact trim_chain (trimInTurn_ofList (fun r hr => ih r hr (hparts r hr)) n)
  | @alternation rs hlength _ ih =>
    rw [ofRegex]
    have hparts := forall_literals_of_literalsOf h
    have hne : rs ≠ [] := List.ne_nil_of_length_pos (Nat.zero_lt_of_lt hlength)
    exact trim_fork (trimInTurn_ofList (fun r hr => ih r hr (hparts r hr)) (n + 2))
      (mt ofList_eq_nil_iff.mp hne)
  | star _ ih =>
    rw [ofRegex]
    exact (ih h n).loop

/-! ## Labels -/

theorem edges_subset_foldl_append (fs : List Fragment) (f : Fragment) :
    ∀ g ∈ f :: fs, g.edges ⊆ (fs.foldl Fragment.append f).edges := by
  induction fs generalizing f with
  | nil =>
    intro g hg
    rw [List.mem_singleton.mp hg]
    exact List.Subset.refl _
  | cons h fs ih =>
    intro g hg
    rw [List.foldl_cons]
    have hfirst := ih (f.append h) (f.append h) List.mem_cons_self
    rcases List.mem_cons.mp hg with rfl | hg
    · exact fun e he => hfirst (mem_append_edges.mpr (.inl he))
    · rcases List.mem_cons.mp hg with rfl | hg
      · exact fun e he => hfirst (mem_append_edges.mpr (.inr (.inl he)))
      · exact ih (f.append h) g (List.mem_cons_of_mem _ hg)

mutual

/-- Every literal of a tree labels an edge of its fragment. -/
theorem exists_edge_of_mem_literals (n : StateId) : (r : Regex) → c ∈ r.literals →
    ∃ e ∈ (ofRegex n r).edges, e.label = .symbol c
  | .literal d, h => by
    rw [List.mem_singleton.mp h]
    exact ⟨⟨n, .symbol d, n + 1⟩, List.mem_singleton_self _, rfl⟩
  | .concat rs, h => by
    obtain ⟨f, hf, e, he, hlabel⟩ := exists_edge_of_mem_literalsOf n rs h
    refine ⟨e, ?_, hlabel⟩
    rw [ofRegex]
    cases hfs : ofList n rs with
    | nil => exact absurd (hfs ▸ hf) List.not_mem_nil
    | cons g fs => exact edges_subset_foldl_append fs g f (hfs ▸ hf) he
  | .alternation rs, h => by
    obtain ⟨f, hf, e, he, hlabel⟩ := exists_edge_of_mem_literalsOf (n + 2) rs h
    rw [ofRegex]
    exact ⟨e, List.mem_flatMap.mpr ⟨f, hf, List.mem_append_left _ he⟩, hlabel⟩
  | .star r, h => by
    obtain ⟨e, he, hlabel⟩ := exists_edge_of_mem_literals n r h
    rw [ofRegex]
    exact ⟨e, edgeSet_subset_loop he, hlabel⟩

theorem exists_edge_of_mem_literalsOf (n : StateId) : (rs : List Regex) →
    c ∈ Regex.literalsOf rs → ∃ f ∈ ofList n rs, ∃ e ∈ f.edges, e.label = .symbol c
  | r :: rs, h => by
    rw [ofList]
    rcases List.mem_append.mp h with hr | hrs
    · exact ⟨_, List.mem_cons_self, exists_edge_of_mem_literals n r hr⟩
    · obtain ⟨f, hf, hedge⟩ := exists_edge_of_mem_literalsOf _ rs hrs
      exact ⟨f, List.mem_cons_of_mem _ hf, hedge⟩

end

end Fragment

/-! ## Sizes -/

namespace Regex

mutual

/-- How many of the nodes of a tree are literals, choices and repetitions. -/
def gadgets : Regex → Nat
  | .empty => 0
  | .literal _ => 1
  | .concat rs => gadgetsOf rs
  | .alternation rs => gadgetsOf rs + 1
  | .star r => r.gadgets + 1

def gadgetsOf : List Regex → Nat
  | [] => 0
  | r :: rs => r.gadgets + gadgetsOf rs

end

end Regex

namespace Fragment

theorem next_foldl_append (fs : List Fragment) (f : Fragment) :
    (fs.foldl append f).next = lastNext f.next fs := by
  induction fs generalizing f with
  | nil => rfl
  | cons g fs ih => rw [List.foldl_cons, ih, lastNext_cons, append]

theorem next_chain {n : StateId} {fs : List Fragment} (hne : fs ≠ []) :
    (chain n fs).next = lastNext n fs := by
  cases fs with
  | nil => exact absurd rfl hne
  | cons f fs => rw [chain, next_foldl_append, lastNext_cons]

theorem lastNext_ofList {rs : List Regex}
    (h : ∀ r ∈ rs, ∀ n, (ofRegex n r).next = n + 2 * r.gadgets) (n : StateId) :
    lastNext n (ofList n rs) = n + 2 * Regex.gadgetsOf rs := by
  induction rs generalizing n with
  | nil => rfl
  | cons r rs ih =>
    obtain ⟨hr, hrs⟩ := List.forall_mem_cons.mp h
    rw [ofList, lastNext_cons, ih hrs, hr, Regex.gadgetsOf, Nat.mul_add, Nat.add_assoc]

/-- Literals, choices and repetitions take two ids each. -/
theorem next_ofRegex {r : Regex} (hr : r.Solid) (n : StateId) :
    (ofRegex n r).next = n + 2 * r.gadgets := by
  induction hr generalizing n with
  | literal c => rfl
  | @concat rs hlength _ ih =>
    have hne : rs ≠ [] := List.ne_nil_of_length_pos (Nat.zero_lt_of_lt hlength)
    rw [ofRegex, next_chain (mt ofList_eq_nil_iff.mp hne), lastNext_ofList ih, Regex.gadgets]
  | @alternation rs _ _ ih =>
    change lastNext (n + 2) (ofList (n + 2) rs) = _
    rw [lastNext_ofList ih, Regex.gadgets, Nat.mul_succ, Nat.add_assoc, Nat.add_comm 2]
  | @star r _ ih =>
    change (ofRegex n r).next + 2 = _
    rw [ih, Regex.gadgets, Nat.mul_succ, Nat.add_assoc]

end Fragment

/-! ## Automata of trees -/

namespace Regex

variable {r : Regex}

theorem size_toAutomaton (h : r.Canonical) :
    r.toAutomaton.size = if r = .empty then 1 else 2 * r.gadgets := by
  have hsize : r.toAutomaton.size = (Fragment.ofRegex 0 r).next := by
    rw [← Automaton.length_ids, ids_toAutomaton, List.length_range]
  rw [hsize]
  rcases h with rfl | h
  · rfl
  · have hne : r ≠ .empty := by
      rintro rfl
      cases h
    rw [if_neg hne, Fragment.next_ofRegex h, Nat.zero_add]

theorem acceptingIds_toAutomaton (r : Regex) :
    r.toAutomaton.acceptingIds = [(Fragment.ofRegex 0 r).exit] := by
  have hexit := (realizes r).exit_mem.2
  have hstates : r.toAutomaton.acceptingIds = (List.range (Fragment.ofRegex 0 r).next).filter
      fun q => q = (Fragment.ofRegex 0 r).exit := by
    simp [Automaton.acceptingIds, toAutomaton, List.filter_map, Function.comp_def]
  rw [hstates, List.filter_eq, List.count_eq_one_of_mem List.nodup_range (List.mem_range.mpr hexit),
    List.replicate_one]

theorem trimBetween_toAutomaton (h : r.Canonical) :
    TrimBetween r.toAutomaton.edgeSet {q | q ∈ r.toAutomaton} (Fragment.ofRegex 0 r).entry
      (Fragment.ofRegex 0 r).exit := by
  have hstates : {q | q ∈ r.toAutomaton} = Set.Ico 0 (Fragment.ofRegex 0 r).next := by
    ext q
    simp [mem_toAutomaton_iff]
  rw [edgeSet_toAutomaton, hstates]
  rcases h with rfl | h
  · exact (Fragment.trim_point .empty 0).toTrimBetween
  · exact (Fragment.trim_ofRegex h (fun _ hc => Alphabet.mem_ofSymbols.mpr hc) 0).toTrimBetween

end Regex

end FiniteState
