import FiniteState.Proofs.Automaton.Built
import FiniteState.Proofs.Automaton.Residual
import Mathlib.Data.List.Chain

/-! # Accepting runs

A run on a word goes from configuration to configuration, and the runs that consume the word are
the paths that spell it. A run that comes back to a configuration can leave out what lies between
the two visits. Whatever silent cycles an automaton has, a word is therefore accepted if any run
accepts it, and then a run without repetition does.
-/

namespace FiniteState

/-- Entries that steps of a relation join are joined by a chain that repeats none. -/
theorem exists_nodup_chain {α : Type} {r : α → α → Prop} {x y : α}
    (h : Relation.ReflTransGen r x y) :
    ∃ chain : List α, chain.IsChain r ∧ chain.Nodup ∧ chain.head? = some x ∧
      chain.getLast? = some y := by
  induction h using Relation.ReflTransGen.head_induction_on with
  | refl => exact ⟨[y], List.isChain_singleton y, List.nodup_singleton y, rfl, rfl⟩
  | @head x z hxz _ ih =>
    obtain ⟨chain, hchain, hnodup, hhead, hlast⟩ := ih
    by_cases hx : x ∈ chain
    · -- The chain comes back to its new beginning, so it is cut off there.
      obtain ⟨before, after, rfl⟩ := List.append_of_mem hx
      refine ⟨x :: after, hchain.right_of_append, (List.nodup_append.mp hnodup).2.1, rfl, ?_⟩
      rw [List.getLast?_append_of_ne_nil _ (List.cons_ne_nil x after)] at hlast
      exact hlast
    · refine ⟨x :: chain, hchain.cons ?_, List.nodup_cons.mpr ⟨hx, hnodup⟩, rfl, ?_⟩
      · intro w hw
        cases hhead.symm.trans hw
        exact hxz
      · rw [List.getLast?_cons, hlast, Option.getD_some]

namespace Automaton

variable {a : Automaton} {q t : StateId} {n : Nat} {word : List Char}

/-- One step of a run on a word: along a silent edge, or along one that consumes the next
character. -/
inductive RunStep (a : Automaton) (word : List Char) : Configuration → Configuration → Prop where
  | silent {n : Nat} {q t : StateId} :
      ⟨q, .epsilon, t⟩ ∈ a.edges → RunStep a word ⟨n, q⟩ ⟨n, t⟩
  | consume {n : Nat} {q t : StateId} {c : Char} :
      word[n]? = some c → ⟨q, .symbol c, t⟩ ∈ a.edges → RunStep a word ⟨n, q⟩ ⟨n + 1, t⟩

/-- A run on a word, listed by its configurations, from the start to an accepting state. -/
structure AcceptingRun (a : Automaton) (word : List Char) (run : List Configuration) : Prop where
  steps : run.IsChain (a.RunStep word)
  head_initial : ∃ c ∈ a.initial, run.head? = some c
  last_final : ∃ c, a.isFinal word c = true ∧ run.getLast? = some c

/-! ## Runs and paths -/

/-- A path that spells the rest of the word leads a run to the end of the word. -/
theorem runs_of_path (hp : Path a.edgeSet q (word.drop n) t) (hn : n ≤ word.length) :
    Relation.ReflTransGen (a.RunStep word) ⟨n, q⟩ ⟨word.length, t⟩ := by
  generalize hrest : word.drop n = rest at hp
  induction hp generalizing n with
  | refl q =>
    rw [Nat.le_antisymm hn (List.drop_eq_nil_iff.mp hrest)]
  | silent he _ ih => exact .head (.silent he) (ih hn hrest)
  | @consume q r t c rest he _ ih =>
    have hnext : word[n]? = some c := by
      rw [← List.head?_drop, hrest, List.head?_cons]
    have hlt : n < word.length := (List.getElem?_eq_some_iff.mp hnext).1
    refine .head (.consume hnext he) (ih hlt ?_)
    rw [← List.tail_drop, hrest, List.tail_cons]

/-- What a run consumes from a configuration to the end of the word is spelled by a path. -/
theorem path_of_runs {c : Configuration}
    (h : Relation.ReflTransGen (a.RunStep word) c ⟨word.length, t⟩) :
    Path a.edgeSet c.state (word.drop c.consumed) t := by
  induction h using Relation.ReflTransGen.head_induction_on with
  | refl =>
    rw [List.drop_length]
    exact .refl t
  | head hstep _ ih =>
    cases hstep with
    | silent he => exact .silent he ih
    | consume hnext he =>
      obtain ⟨hlt, rfl⟩ := List.getElem?_eq_some_iff.mp hnext
      rw [List.drop_eq_getElem_cons hlt]
      exact .consume he ih

theorem isFinal_iff {c : Configuration} :
    a.isFinal word c = true ↔ c.consumed = word.length ∧ a.isAccepting c.state = true := by
  simp [isFinal]

/-- Runs begin at the start. -/
theorem state_of_mem_initial {c : Configuration} (hc : c ∈ a.initial) : a.start = some c.state := by
  obtain ⟨q, hq, rfl⟩ := List.mem_map.mp hc
  simpa using hq

/-- A path that spells the word is a run on it, which need not repeat a configuration. -/
theorem exists_nodup_acceptingRun (hstart : a.start = some q) (hp : Path a.edgeSet q word t)
    (ht : a.isAccepting t = true) : ∃ run, a.AcceptingRun word run ∧ run.Nodup := by
  obtain ⟨run, hsteps, hnodup, hhead, hlast⟩ :=
    exists_nodup_chain (runs_of_path (n := 0) hp (Nat.zero_le _))
  refine ⟨run, ⟨hsteps, ⟨_, ?_, hhead⟩, ⟨_, isFinal_iff.mpr ⟨rfl, ht⟩, hlast⟩⟩, hnodup⟩
  simp [initial, hstart]

theorem AcceptingRun.exists_path {run : List Configuration} (hrun : a.AcceptingRun word run) :
    ∃ q ∈ a.start, ∃ t, Path a.edgeSet q word t ∧ a.isAccepting t = true := by
  obtain ⟨hsteps, ⟨c, hc, hhead⟩, ⟨⟨n, t⟩, hfinal, hlast⟩⟩ := hrun
  obtain ⟨q, hq, rfl⟩ := List.mem_map.mp hc
  obtain ⟨rfl, ht⟩ := isFinal_iff.mp hfinal
  refine ⟨q, state_of_mem_initial hc, t, ?_, ht⟩
  cases run with
  | nil => cases hhead
  | cons d run =>
    cases hhead
    have hend : (⟨0, q⟩ :: run).getLast (List.cons_ne_nil _ _) = ⟨word.length, t⟩ := by
      rw [List.getLast?_eq_some_getLast (List.cons_ne_nil _ _)] at hlast
      exact Option.some.inj hlast
    exact path_of_runs (List.relationReflTransGen_of_exists_isChain_cons run hsteps hend)

theorem WellFormed.accepts_iff_acceptingRun (ha : a.WellFormed) :
    a.accepts word = true ↔ ∃ run, a.AcceptingRun word run := by
  rw [ha.accepts_iff_path]
  constructor
  · intro h
    obtain ⟨q, hq, t, hp, ht⟩ := h
    obtain ⟨run, hrun, _⟩ := exists_nodup_acceptingRun hq hp ht
    exact ⟨run, hrun⟩
  · intro h
    obtain ⟨run, hrun⟩ := h
    exact hrun.exists_path

/-! ## What runs visit -/

/-- What the start has and every step of a run hands on holds for all that an accepting run
visits. -/
theorem AcceptingRun.forall_mem {P : StateId → Prop} {run : List Configuration}
    (hrun : a.AcceptingRun word run) (hstart : ∀ q ∈ a.start, P q)
    (hedge : ∀ e ∈ a.edges, P e.source → P e.target) : ∀ c ∈ run, P c.state := by
  obtain ⟨c, hc, hhead⟩ := hrun.head_initial
  refine hrun.steps.induction (fun c => P c.state) run ?_ ?_
  · intro c d hstep hc
    cases hstep with
    | silent he => exact hedge _ he hc
    | consume _ he => exact hedge _ he hc
  · intro hne
    rw [List.head?_eq_some_head hne] at hhead
    rw [Option.some.inj hhead]
    exact hstart _ (state_of_mem_initial hc)

/-- Accepting runs visit reachable states only. -/
theorem AcceptingRun.mem_reachable {run : List Configuration} (hrun : a.AcceptingRun word run) :
    ∀ c ∈ run, c.state ∈ a.reachable := by
  refine hrun.forall_mem (fun q hq => ⟨q, hq, [], .refl q⟩) ?_
  intro e he h
  obtain ⟨q, hq, w, hp⟩ := h
  obtain ⟨v, hv⟩ := Path.exists_word_iff.mpr (.single ⟨e.label, he⟩)
  exact ⟨q, hq, w ++ v, hp.trans hv⟩

/-! ## Acceptance -/

/-- A word is accepted exactly if some path spells it that leads from the start to an accepting
state; this takes characters of the alphabet. Any run that gets there shows it, however often it
goes around silent cycles, and one that visits no configuration twice is enough. -/
theorem accepts_iff_exists_path (ha : a.Built) (word : List Char) :
    (a.accepts word = true ↔
      ∃ q, a.start = some q ∧ ∃ t, Path a.edgeSet q word t ∧ a.isAccepting t = true) ∧
    (∀ c ∈ word, c ∉ a.alphabet → a.accepts word = false) ∧
    (∀ run, a.AcceptingRun word run → a.accepts word = true) ∧
    (a.accepts word = true → ∃ run, a.AcceptingRun word run ∧ run.Nodup) := by
  have haccepts : a.accepts word = true ↔
      ∃ q ∈ a.start, ∃ t, Path a.edgeSet q word t ∧ a.isAccepting t = true :=
    ha.wellFormed.accepts_iff_path
  refine ⟨haccepts, ?_, ?_, ?_⟩
  · intro c hc hforeign
    rw [Bool.eq_false_iff]
    intro h
    obtain ⟨q, _, t, hp, _⟩ := haccepts.mp h
    exact hforeign (ha.wellFormed.mem_words_of_path hp c hc)
  · intro run hrun
    exact haccepts.mpr hrun.exists_path
  · intro h
    obtain ⟨q, hq, t, hp, ht⟩ := haccepts.mp h
    exact exists_nodup_acceptingRun hq hp ht

/-- A silent cycle between two states, each of which can also consume a character. -/
def silentLoop : Automaton := .ofEdits (.ofSymbols ['a', 'b'])
  [.addState "p" false, .addState "q" false, .addState "r" true, .addEdge 0 .epsilon 1,
    .addEdge 1 .epsilon 0, .addEdge 1 (.symbol 'a') 0, .addEdge 0 (.symbol 'b') 2]

theorem accepts_iff_exists_path_silentLoop :
    silentLoop.accepts ['a', 'b'] = true ∧
      (∃ run, silentLoop.AcceptingRun ['a', 'b'] run ∧ run.Nodup) ∧
      silentLoop.accepts ['a', 'z'] = false := by
  have hbuilt : silentLoop.Built := built_ofEdits _ _
  have hthere : ⟨0, .epsilon, 1⟩ ∈ silentLoop.edges := by decide
  have hback : ⟨1, .epsilon, 0⟩ ∈ silentLoop.edges := by decide
  have ha : ⟨1, .symbol 'a', 0⟩ ∈ silentLoop.edges := by decide
  have hb : ⟨0, .symbol 'b', 2⟩ ∈ silentLoop.edges := by decide
  -- The path goes around the cycle once before it consumes anything.
  have hp : Path silentLoop.edgeSet 0 ['a', 'b'] 2 :=
    .silent hthere (.silent hback (.silent hthere (.consume ha (.consume hb (.refl 2)))))
  obtain ⟨hpath, _, _, hrun⟩ := accepts_iff_exists_path hbuilt ['a', 'b']
  have haccepts : silentLoop.accepts ['a', 'b'] = true :=
    hpath.mpr ⟨0, by decide, 2, hp, by decide⟩
  have hforeign := (accepts_iff_exists_path hbuilt ['a', 'z']).2.1
  exact ⟨haccepts, hrun haccepts, hforeign 'z' (by decide) (by decide)⟩

end Automaton

end FiniteState
