import FiniteState.Proofs.Automaton.Path
import FiniteState.Proofs.Regex.Language
import FiniteState.Regex.Fragment
import Mathlib.Order.Interval.Set.Defs

/-! # Languages of fragments

A fragment realizes a language if the paths from its entry to its exit spell exactly the words of
the language, and its edges stay between the first id and the next one. The last part keeps
fragments that are joined apart: a path through the joined fragment enters a part and leaves it
at the exit of that part only.
-/

open Computability

namespace FiniteState

namespace Fragment

variable {alphabet : Alphabet} {n : StateId} {f g : Fragment} {L M : Language Char}
  {w : List Char} {x y : StateId}

def edgeSet (f : Fragment) : Set Edge := {e | e ∈ f.edges}

@[simp] theorem mem_edgeSet {e : Edge} : e ∈ f.edgeSet ↔ e ∈ f.edges := .rfl

/-- An edge with an allowed label that joins ids from the first one up to the next one. -/
structure Between (alphabet : Alphabet) (first next : StateId) (e : Edge) : Prop where
  allows : alphabet.Allows e.label
  source_mem : e.source ∈ Set.Ico first next
  target_mem : e.target ∈ Set.Ico first next

theorem Between.mono {m p q : StateId} {e : Edge} (he : Between alphabet n m e)
    (hsub : Set.Ico n m ⊆ Set.Ico p q) : Between alphabet p q e :=
  ⟨he.allows, hsub he.source_mem, hsub he.target_mem⟩

theorem between_silent {m : StateId} (hx : x ∈ Set.Ico n m) (hy : y ∈ Set.Ico n m) :
    Between alphabet n m (silent x y) := ⟨trivial, hx, hy⟩

/-- Entry, exit and edges lie between the first id and the next one. -/
structure Spans (f : Fragment) (alphabet : Alphabet) (n : StateId) : Prop where
  entry_mem : f.entry ∈ Set.Ico n f.next
  exit_mem : f.exit ∈ Set.Ico n f.next
  between : ∀ e ∈ f.edges, Between alphabet n f.next e

theorem Spans.le_next (hf : f.Spans alphabet n) : n ≤ f.next :=
  hf.exit_mem.1.trans hf.exit_mem.2.le

/-- The paths from entry to exit spell the words of a language. -/
structure Realizes (f : Fragment) (alphabet : Alphabet) (n : StateId) (L : Language Char) : Prop
    extends f.Spans alphabet n where
  path_iff : ∀ w, Path f.edgeSet f.entry w f.exit ↔ w ∈ L

/-- Fragments realize languages one by one, each from the id after those of the one before. -/
inductive RealizeInTurn (alphabet : Alphabet) :
    StateId → List Fragment → List (Language Char) → Prop where
  | nil (n : StateId) : RealizeInTurn alphabet n [] []
  | cons {n : StateId} {f : Fragment} {L : Language Char} {fs : List Fragment}
      {Ls : List (Language Char)} : f.Realizes alphabet n L →
      RealizeInTurn alphabet f.next fs Ls → RealizeInTurn alphabet n (f :: fs) (L :: Ls)

/-! ## Single states and characters -/

theorem realizes_point (alphabet : Alphabet) (n : StateId) :
    (point n).Realizes alphabet n 1 where
  entry_mem := ⟨Nat.le_refl n, Nat.lt_succ_self n⟩
  exit_mem := ⟨Nat.le_refl n, Nat.lt_succ_self n⟩
  between _ he := absurd he List.not_mem_nil
  path_iff w := by
    rw [Language.mem_one]
    constructor
    · intro hp
      exact (hp.eq_of_forall_not_mem fun _ he => absurd he List.not_mem_nil).1
    · rintro rfl
      exact .refl n

theorem realizes_literal {c : Char} (hc : c ∈ alphabet) (n : StateId) :
    (literal n c).Realizes alphabet n {[c]} where
  entry_mem := ⟨Nat.le_refl n, by simp [literal]⟩
  exit_mem := ⟨Nat.le_succ n, by simp [literal]⟩
  between e he := by
    rw [List.mem_singleton.mp he]
    exact ⟨hc, ⟨Nat.le_refl n, by simp [literal]⟩, ⟨Nat.le_succ n, by simp [literal]⟩⟩
  path_iff w := by
    have hmem (e : Edge) : e ∈ (literal n c).edgeSet ↔ e = ⟨n, .symbol c, n + 1⟩ :=
      List.mem_singleton
    change Path _ n w (n + 1) ↔ w = [c]
    constructor
    · intro hp
      cases hp with
      | silent he => cases (hmem _).mp he
      | consume he hp =>
        cases (hmem _).mp he
        have hend := hp.eq_of_forall_not_mem fun e he => by
          rw [(hmem e).mp he]
          exact Nat.ne_of_lt (Nat.lt_succ_self n)
        rw [hend.1]
    · rintro rfl
      exact .consume ((hmem _).mpr rfl) (.refl _)

/-! ## Sequences -/

theorem mem_append_edges {e : Edge} :
    e ∈ (f.append g).edges ↔ e ∈ f.edges ∨ e ∈ g.edges ∨ e = silent f.exit g.entry := by
  simp only [append, List.mem_append, List.mem_singleton, or_assoc]

theorem Spans.append (hf : f.Spans alphabet n) (hg : g.Spans alphabet f.next) :
    (f.append g).Spans alphabet n := by
  have hlow : Set.Ico n f.next ⊆ Set.Ico n g.next := Set.Ico_subset_Ico_right hg.le_next
  have hhigh : Set.Ico f.next g.next ⊆ Set.Ico n g.next := Set.Ico_subset_Ico_left hf.le_next
  refine ⟨hlow hf.entry_mem, hhigh hg.exit_mem, ?_⟩
  intro e he
  rcases mem_append_edges.mp he with he | he | rfl
  · exact (hf.between e he).mono hlow
  · exact (hg.between e he).mono hhigh
  · exact between_silent (hlow hf.exit_mem) (hhigh hg.entry_mem)

/-- The path leaves the first part at its exit and then stays in the second one. -/
theorem path_append_iff (hf : f.Spans alphabet n) (hg : g.Spans alphabet f.next) :
    Path (f.append g).edgeSet f.entry w g.exit ↔
      ∃ u v, w = u ++ v ∧ Path f.edgeSet f.entry u f.exit ∧ Path g.edgeSet g.entry v g.exit := by
  constructor
  · intro hp
    have hfirst : ∀ e ∈ (f.append g).edgeSet, e.source < f.next →
        (e ∈ f.edgeSet ∧ e.target < f.next) ∨
          (e.source = f.exit ∧ e.label = .epsilon ∧ e.target = g.entry) := by
      intro e he hlt
      rcases mem_append_edges.mp he with he | he | rfl
      · exact .inl ⟨he, (hf.between e he).target_mem.2⟩
      · exact absurd (hg.between e he).source_mem.1 (Nat.not_le_of_lt hlt)
      · exact .inr ⟨rfl, rfl, rfl⟩
    have hsecond : ∀ e ∈ (f.append g).edgeSet, f.next ≤ e.source →
        e ∈ g.edgeSet ∧ f.next ≤ e.target := by
      intro e he hle
      rcases mem_append_edges.mp he with he | he | rfl
      · exact absurd (hf.between e he).source_mem.2 (Nat.not_lt_of_le hle)
      · exact ⟨he, (hg.between e he).target_mem.1⟩
      · exact absurd hf.exit_mem.2 (Nat.not_lt_of_le hle)
    rcases hp.leave (P := fun z => z < f.next) (Q := fun z => z = g.entry) hfirst
      hf.entry_mem.2 with ⟨hlt, _⟩ | ⟨u, v, _, rfl, hu, rfl, hv⟩
    · exact absurd hg.exit_mem.1 (Nat.not_le_of_lt hlt)
    · exact ⟨u, v, rfl, hu, hv.stay (P := fun z => f.next ≤ z) hsecond hg.entry_mem.1⟩
  · intro h
    obtain ⟨u, v, rfl, hu, hv⟩ := h
    have hfsub : f.edgeSet ⊆ (f.append g).edgeSet := fun e he => mem_append_edges.mpr (.inl he)
    have hgsub : g.edgeSet ⊆ (f.append g).edgeSet :=
      fun e he => mem_append_edges.mpr (.inr (.inl he))
    have hjoin : silent f.exit g.entry ∈ (f.append g).edgeSet :=
      mem_append_edges.mpr (.inr (.inr rfl))
    exact (hu.mono hfsub).trans (.silent hjoin (hv.mono hgsub))

theorem Realizes.append (hf : f.Realizes alphabet n L) (hg : g.Realizes alphabet f.next M) :
    (f.append g).Realizes alphabet n (L * M) where
  toSpans := hf.toSpans.append hg.toSpans
  path_iff w := by
    refine (path_append_iff hf.toSpans hg.toSpans).trans ?_
    simp only [hf.path_iff, hg.path_iff, Language.mem_mul]
    constructor
    · intro h
      obtain ⟨u, v, rfl, hu, hv⟩ := h
      exact ⟨u, hu, v, hv, rfl⟩
    · intro h
      obtain ⟨u, hu, v, hv, rfl⟩ := h
      exact ⟨u, v, rfl, hu, hv⟩

theorem Realizes.foldl_append {fs : List Fragment} {Ls : List (Language Char)}
    (hf : f.Realizes alphabet n L) (hfs : RealizeInTurn alphabet f.next fs Ls) :
    (fs.foldl Fragment.append f).Realizes alphabet n (L * Ls.prod) := by
  induction fs generalizing f L Ls with
  | nil =>
    cases hfs
    simpa using hf
  | cons g fs ih =>
    cases hfs with
    | cons hg hfs =>
      rw [List.foldl_cons, List.prod_cons, ← mul_assoc]
      exact ih (hf.append hg) hfs

theorem realizes_chain {fs : List Fragment} {Ls : List (Language Char)}
    (hfs : RealizeInTurn alphabet n fs Ls) : (chain n fs).Realizes alphabet n Ls.prod := by
  cases hfs with
  | nil => exact realizes_point alphabet n
  | cons hf hfs =>
    rw [List.prod_cons]
    exact hf.foldl_append hfs

/-! ## Choices -/

/-- The edges of branches between the two states of a choice. -/
def branchEdges (n : StateId) (branches : List Fragment) : List Edge :=
  branches.flatMap fun f => f.edges ++ [silent n f.entry, silent f.exit (n + 1)]

theorem mem_branchEdges_cons {fs : List Fragment} {e : Edge} :
    e ∈ branchEdges n (f :: fs) ↔ (e ∈ f.edges ∨ e = silent n f.entry ∨
      e = silent f.exit (n + 1)) ∨ e ∈ branchEdges n fs := by
  simp only [branchEdges, List.flatMap_cons, List.mem_append, List.mem_cons, List.not_mem_nil,
    or_false]

section Branches

variable {m : StateId} {fs : List Fragment} {Ls : List (Language Char)}

/-- The id after those of fragments in turn, which starts at `m`. -/
def lastNext (m : StateId) (fs : List Fragment) : StateId := (fs.getLast?.map (·.next)).getD m

theorem lastNext_cons : lastNext m (f :: fs) = lastNext f.next fs := by
  simp only [lastNext, List.getLast?_cons]
  cases fs.getLast? <;> rfl

theorem RealizeInTurn.le_lastNext (hfs : RealizeInTurn alphabet m fs Ls) : m ≤ lastNext m fs := by
  induction hfs with
  | nil => exact Nat.le_refl _
  | cons hf _ ih =>
    rw [lastNext_cons]
    exact hf.le_next.trans ih

/-- What the edges of branches with ids from `m` join. -/
theorem RealizeInTurn.branchEdges_fit (hfs : RealizeInTurn alphabet m fs Ls) {e : Edge}
    (he : e ∈ branchEdges n fs) : alphabet.Allows e.label ∧
      (e.source = n ∧ e.label = .epsilon ∨ e.source ∈ Set.Ico m (lastNext m fs)) ∧
      (e.target = n + 1 ∨ e.target ∈ Set.Ico m (lastNext m fs)) := by
  induction hfs with
  | nil => cases he
  | @cons m f L fs Ls hf hfs ih =>
    rw [lastNext_cons]
    have hlow : Set.Ico m f.next ⊆ Set.Ico m (lastNext f.next fs) :=
      Set.Ico_subset_Ico_right hfs.le_lastNext
    have hhigh : Set.Ico f.next (lastNext f.next fs) ⊆ Set.Ico m (lastNext f.next fs) :=
      Set.Ico_subset_Ico_left hf.le_next
    rcases mem_branchEdges_cons.mp he with (he | rfl | rfl) | he
    · obtain ⟨hallows, hsource, htarget⟩ := hf.between e he
      exact ⟨hallows, .inr (hlow hsource), .inr (hlow htarget)⟩
    · exact ⟨trivial, .inl ⟨rfl, rfl⟩, .inr (hlow hf.entry_mem)⟩
    · exact ⟨trivial, .inr (hlow hf.exit_mem), .inl rfl⟩
    · obtain ⟨hallows, hsource, htarget⟩ := ih he
      exact ⟨hallows, hsource.imp_right fun h => hhigh h, htarget.imp_right fun h => hhigh h⟩

section FirstBranch

variable (hf : f.Realizes alphabet m L) (hfs : RealizeInTurn alphabet f.next fs Ls) (hm : n + 2 ≤ m)

include hf hfs hm

/-- From the entry of the first branch only the words of this branch lead to the end. -/
theorem mem_of_path_first (hp : Path {e | e ∈ branchEdges n (f :: fs)} f.entry w (n + 1)) :
    w ∈ L := by
  have hbranch : ∀ e ∈ {e | e ∈ branchEdges n (f :: fs)}, e.source ∈ Set.Ico m f.next →
      (e ∈ f.edgeSet ∧ e.target ∈ Set.Ico m f.next) ∨
        (e.source = f.exit ∧ e.label = .epsilon ∧ e.target = n + 1) := by
    intro e he hmem
    rcases mem_branchEdges_cons.mp he with (he | rfl | rfl) | he
    · exact .inl ⟨he, (hf.between e he).target_mem⟩
    · exact absurd hmem.1 (Nat.not_le_of_lt (Nat.lt_of_succ_lt hm))
    · exact .inr ⟨rfl, rfl, rfl⟩
    · rcases (hfs.branchEdges_fit he).2.1 with ⟨hn, _⟩ | hn
      · exact absurd (hn ▸ hmem.1) (Nat.not_le_of_lt (Nat.lt_of_succ_lt hm))
      · exact absurd hmem.2 (Nat.not_lt_of_le hn.1)
  have hend : ∀ e ∈ {e | e ∈ branchEdges n (f :: fs)}, e.source ≠ n + 1 := by
    intro e he hsource
    rcases ((RealizeInTurn.cons hf hfs).branchEdges_fit he).2.1 with ⟨hn, _⟩ | hn
    · exact Nat.succ_ne_self n (hsource.symm.trans hn)
    · exact absurd (hsource ▸ hn.1) (Nat.not_le_of_lt hm)
  rcases hp.leave (P := fun z => z ∈ Set.Ico m f.next) (Q := fun z => z = n + 1) hbranch
    hf.entry_mem with ⟨hmem, _⟩ | ⟨u, v, _, rfl, hu, rfl, hv⟩
  · exact absurd hmem.1 (Nat.not_le_of_lt hm)
  · rw [(hv.eq_of_forall_not_mem hend).1, List.append_nil]
    exact (hf.path_iff u).mp hu

/-- From the states of the other branches no path enters the first one. -/
theorem path_of_path_rest (hx : x = n + 1 ∨ f.next ≤ x)
    (hp : Path {e | e ∈ branchEdges n (f :: fs)} x w (n + 1)) :
    Path {e | e ∈ branchEdges n fs} x w (n + 1) := by
  have hlt : n + 1 < f.next := (Nat.lt_of_succ_le hm).trans_le hf.le_next
  apply hp.stay (P := fun z => z = n + 1 ∨ f.next ≤ z) ?_ hx
  intro e he hsource
  have houtside : e.source ∉ Set.Ico m f.next := by
    intro hmem
    rcases hsource with hn | hle
    · exact absurd (hn ▸ hmem.1) (Nat.not_le_of_lt hm)
    · exact absurd hmem.2 (Nat.not_lt_of_le hle)
  rcases mem_branchEdges_cons.mp he with (he | rfl | rfl) | he
  · exact absurd (hf.between e he).source_mem houtside
  · rcases hsource with hn | hle
    · exact absurd hn.symm (Nat.succ_ne_self n)
    · exact absurd hle (Nat.not_le_of_lt (Nat.lt_of_succ_lt hlt))
  · exact absurd hf.exit_mem houtside
  · exact ⟨he, (hfs.branchEdges_fit he).2.2.imp_right fun h => h.1⟩

end FirstBranch

/-- The path enters one branch and stays there until it leaves at its exit. -/
theorem RealizeInTurn.path_branchEdges_iff (hfs : RealizeInTurn alphabet m fs Ls)
    (hm : n + 2 ≤ m) :
    Path {e | e ∈ branchEdges n fs} n w (n + 1) ↔ w ∈ Ls.sum := by
  induction hfs with
  | nil =>
    refine iff_of_false (fun hp => ?_) (Language.notMem_zero w)
    have hend := hp.eq_of_forall_not_mem fun e he => absurd he List.not_mem_nil
    exact Nat.succ_ne_self n hend.2
  | @cons m f L fs Ls hf hfs ih =>
    have hn : n ∉ Set.Ico m f.next := fun hmem =>
      absurd hmem.1 (Nat.not_le_of_lt (Nat.lt_of_succ_lt hm))
    rw [List.sum_cons, Language.mem_add, ← ih (hm.trans hf.le_next)]
    constructor
    · intro hp
      rcases hp.exists_first (Nat.succ_ne_self n).symm with ⟨r, he, hp⟩ | ⟨c, v, r, _, he, _⟩
      · rcases mem_branchEdges_cons.mp he with (he | he | he) | he
        · exact absurd (hf.between _ he).source_mem hn
        · cases he
          exact .inl (mem_of_path_first hf hfs hm hp)
        · cases he
          exact absurd hf.exit_mem hn
        · have htarget := (hfs.branchEdges_fit he).2.2.imp_right fun h => h.1
          exact .inr (.silent he (path_of_path_rest hf hfs hm htarget hp))
      · -- All edges that leave the entry of the choice are silent.
        rcases ((RealizeInTurn.cons hf hfs).branchEdges_fit he).2.1 with ⟨_, hlabel⟩ | hmem
        · cases hlabel
        · exact absurd hmem.1 (Nat.not_le_of_lt (Nat.lt_of_succ_lt hm))
    · rintro (hw | hp)
      · have hsub : f.edgeSet ⊆ {e | e ∈ branchEdges n (f :: fs)} :=
          fun e he => mem_branchEdges_cons.mpr (.inl (.inl he))
        have henter : silent n f.entry ∈ branchEdges n (f :: fs) :=
          mem_branchEdges_cons.mpr (.inl (.inr (.inl rfl)))
        have hexit : silent f.exit (n + 1) ∈ branchEdges n (f :: fs) :=
          mem_branchEdges_cons.mpr (.inl (.inr (.inr rfl)))
        have hpath := (((hf.path_iff w).mpr hw).mono hsub).trans (.single hexit)
        rw [List.append_nil] at hpath
        exact .silent henter hpath
      · exact hp.mono fun e he => mem_branchEdges_cons.mpr (.inr he)

theorem realizes_fork (hfs : RealizeInTurn alphabet (n + 2) fs Ls) :
    (fork n fs).Realizes alphabet n Ls.sum := by
  have hnext : n + 2 ≤ (fork n fs).next := hfs.le_lastNext
  have hentry : n ∈ Set.Ico n (fork n fs).next := ⟨Nat.le_refl n, Nat.lt_of_succ_lt hnext⟩
  have hexit : n + 1 ∈ Set.Ico n (fork n fs).next := ⟨Nat.le_succ n, hnext⟩
  have hsub : Set.Ico (n + 2) (lastNext (n + 2) fs) ⊆ Set.Ico n (fork n fs).next :=
    Set.Ico_subset_Ico_left (Nat.le_add_right n 2)
  refine ⟨⟨hentry, hexit, ?_⟩, fun _ => hfs.path_branchEdges_iff (Nat.le_refl _)⟩
  intro e he
  obtain ⟨hallows, hsource, htarget⟩ := hfs.branchEdges_fit he
  refine ⟨hallows, ?_, ?_⟩
  · rcases hsource with ⟨hn, _⟩ | hmem
    · exact hn ▸ hentry
    · exact hsub hmem
  · rcases htarget with hn | hmem
    · exact hn ▸ hexit
    · exact hsub hmem

end Branches

/-! ## Repetition -/

theorem mem_loop_edges {e : Edge} :
    e ∈ f.loop.edges ↔ e ∈ f.edges ∨ e = silent f.next f.entry ∨ e = silent f.exit f.entry ∨
      e = silent f.exit (f.next + 1) ∨ e = silent f.next (f.next + 1) := by
  simp only [loop, List.mem_append, List.mem_cons, List.not_mem_nil, or_false]

theorem edgeSet_subset_loop : f.edgeSet ⊆ f.loop.edgeSet :=
  fun _ he => mem_loop_edges.mpr (.inl he)

theorem append_mem_kstar {u v : List Char} (hu : u ∈ L) (hv : v ∈ L∗) : u ++ v ∈ L∗ := by
  have hle : L * L∗ ≤ L∗ := mul_kstar_le_kstar
  exact hle (Language.append_mem_mul hu hv)

section Loop

variable (hf : f.Realizes alphabet n L)

include hf

/-- No edge leaves the exit of a loop. -/
theorem loop_source_ne_exit : ∀ e ∈ f.loop.edgeSet, e.source ≠ f.next + 1 := by
  intro e he hsource
  have hexit := hf.exit_mem.2
  rcases mem_loop_edges.mp he with he | rfl | rfl | rfl | rfl
  · exact Nat.ne_of_lt (Nat.lt_succ_of_lt (hf.between e he).source_mem.2) hsource
  · exact Nat.succ_ne_self _ hsource.symm
  · exact Nat.ne_of_lt (Nat.lt_succ_of_lt hexit) hsource
  · exact Nat.ne_of_lt (Nat.lt_succ_of_lt hexit) hsource
  · exact Nat.succ_ne_self _ hsource.symm

/-- From a state of the repeated part the path gets to the exit of this part, and from there on
it spells repetitions. The induction is on the path, since a repetition may spell nothing. -/
theorem exists_repetitions (hx : x ∈ Set.Ico n f.next) (hy : y = f.next + 1)
    (hp : Path f.loop.edgeSet x w y) :
    ∃ u v, w = u ++ v ∧ Path f.edgeSet x u f.exit ∧ v ∈ L∗ := by
  induction hp with
  | refl z => exact absurd hx.2 (Nat.not_lt_of_le (hy ▸ Nat.le_succ _))
  | @silent x z y w he hp ih =>
    rcases mem_loop_edges.mp he with he | he | he | he | he
    · obtain ⟨u, v, rfl, hu, hv⟩ := ih (hf.between _ he).target_mem hy
      exact ⟨u, v, rfl, .silent he hu, hv⟩
    · cases he
      exact absurd hx.2 (Nat.lt_irrefl _)
    · -- Back at the entry, what follows is a repetition with further ones after it.
      cases he
      obtain ⟨u, v, rfl, hu, hv⟩ := ih hf.entry_mem hy
      exact ⟨[], u ++ v, rfl, .refl _, append_mem_kstar ((hf.path_iff u).mp hu) hv⟩
    · cases he
      have hend := hp.eq_of_forall_not_mem (loop_source_ne_exit hf)
      exact ⟨[], [], hend.1, .refl _, Language.nil_mem_kstar L⟩
    · cases he
      exact absurd hx.2 (Nat.lt_irrefl _)
  | @consume x z y c w he hp ih =>
    rcases mem_loop_edges.mp he with he | he | he | he | he
    · obtain ⟨u, v, rfl, hu, hv⟩ := ih (hf.between _ he).target_mem hy
      exact ⟨c :: u, v, rfl, .consume he hu, hv⟩
    -- The edges around the part are silent.
    all_goals cases he

/-- After a repetition any number of further ones can follow. -/
theorem path_of_repetitions {words : List (List Char)} (hwords : ∀ u ∈ words, u ∈ L) :
    Path f.loop.edgeSet f.exit words.flatten (f.next + 1) := by
  induction words with
  | nil => exact .single (mem_loop_edges.mpr (.inr (.inr (.inr (.inl rfl)))))
  | cons u words ih =>
    rw [List.forall_mem_cons] at hwords
    have hback : silent f.exit f.entry ∈ f.loop.edgeSet :=
      mem_loop_edges.mpr (.inr (.inr (.inl rfl)))
    have hu := ((hf.path_iff u).mpr hwords.1).mono edgeSet_subset_loop
    exact .silent hback (hu.trans (ih hwords.2))

theorem path_loop_iff : Path f.loop.edgeSet f.next w (f.next + 1) ↔ w ∈ L∗ := by
  have henter : silent f.next f.entry ∈ f.loop.edgeSet := mem_loop_edges.mpr (.inr (.inl rfl))
  have hskip : silent f.next (f.next + 1) ∈ f.loop.edgeSet :=
    mem_loop_edges.mpr (.inr (.inr (.inr (.inr rfl))))
  constructor
  · intro hp
    have hexit : f.next ≠ f.exit := hf.exit_mem.2.ne'
    rcases hp.exists_first (Nat.succ_ne_self f.next).symm with ⟨r, he, hp⟩ | ⟨c, v, r, _, he, _⟩
    · rcases mem_loop_edges.mp he with he | he | he | he | he
      · exact absurd (hf.between _ he).source_mem.2 (Nat.lt_irrefl _)
      · cases he
        obtain ⟨u, v, rfl, hu, hv⟩ := exists_repetitions hf hf.entry_mem rfl hp
        exact append_mem_kstar ((hf.path_iff u).mp hu) hv
      · exact absurd (Edge.mk.inj he).1 hexit
      · exact absurd (Edge.mk.inj he).1 hexit
      · cases he
        rw [(hp.eq_of_forall_not_mem (loop_source_ne_exit hf)).1]
        exact Language.nil_mem_kstar L
    · rcases mem_loop_edges.mp he with he | he | he | he | he
      · exact absurd (hf.between _ he).source_mem.2 (Nat.lt_irrefl _)
      all_goals exact Label.noConfusion (Edge.mk.inj he).2.1
  · intro h
    obtain ⟨words, rfl, hwords⟩ := h
    cases words with
    | nil => exact .single hskip
    | cons u words =>
      rw [List.forall_mem_cons] at hwords
      have hu := ((hf.path_iff u).mpr hwords.1).mono edgeSet_subset_loop
      exact .silent henter (hu.trans (path_of_repetitions hf hwords.2))

theorem Realizes.loop : f.loop.Realizes alphabet n L∗ := by
  have hsub : Set.Ico n f.next ⊆ Set.Ico n f.loop.next :=
    Set.Ico_subset_Ico_right (Nat.le_add_right f.next 2)
  have hentry : f.next ∈ Set.Ico n f.loop.next :=
    ⟨hf.le_next, Nat.lt_add_of_pos_right Nat.two_pos⟩
  have hexit : f.next + 1 ∈ Set.Ico n f.loop.next :=
    ⟨Nat.le_succ_of_le hf.le_next, Nat.lt_succ_self _⟩
  refine ⟨⟨hentry, hexit, ?_⟩, fun _ => path_loop_iff hf⟩
  intro e he
  rcases mem_loop_edges.mp he with he | rfl | rfl | rfl | rfl
  · exact (hf.between e he).mono hsub
  · exact between_silent hentry (hsub hf.entry_mem)
  · exact between_silent (hsub hf.exit_mem) (hsub hf.entry_mem)
  · exact between_silent (hsub hf.exit_mem) hexit
  · exact between_silent hentry hexit

end Loop

/-! ## Trees -/

mutual

/-- The fragment of a tree realizes the language of the tree. -/
theorem realizes_ofRegex (n : StateId) : (r : Regex) → (∀ c ∈ r.literals, c ∈ alphabet) →
    (ofRegex n r).Realizes alphabet n r.language
  | .empty, _ => by
    rw [ofRegex, Regex.language]
    exact realizes_point alphabet n
  | .literal c, h => by
    rw [ofRegex, Regex.language]
    exact realizes_literal (h c (List.mem_singleton_self c)) n
  | .concat rs, h => by
    rw [ofRegex, Regex.language]
    exact realizes_chain (realizeInTurn_ofList n rs h)
  | .alternation rs, h => by
    rw [ofRegex, Regex.language]
    exact realizes_fork (realizeInTurn_ofList (n + 2) rs h)
  | .star r, h => by
    rw [ofRegex, Regex.language]
    exact (realizes_ofRegex n r h).loop

theorem realizeInTurn_ofList (n : StateId) : (rs : List Regex) →
    (∀ c ∈ Regex.literalsOf rs, c ∈ alphabet) →
    RealizeInTurn alphabet n (ofList n rs) (Regex.languages rs)
  | [], _ => by
    rw [ofList, Regex.languages]
    exact .nil n
  | r :: rs, h => by
    rw [Regex.literalsOf, List.forall_mem_append] at h
    rw [ofList, Regex.languages]
    exact .cons (realizes_ofRegex n r h.1) (realizeInTurn_ofList _ rs h.2)

end

end Fragment

end FiniteState
