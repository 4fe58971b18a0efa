import FiniteState.Proofs.Automaton.AcceptingRun
import Mathlib.Data.Finset.Insert

/-! # Depth-first search for an accepting run

Runs can be searched with a stack: the latest configuration is taken from it and, unless it ends an
accepting run, the ones that a step leads to are put on it, except for those that have been on it
before. Since these are finitely many, the search ends whatever silent cycles there are, and its
answer is whether the word is accepted.
-/

namespace FiniteState

/-- Where a depth-first search stands, and what it has done. -/
structure DepthFirst where
  /-- The configurations to go on from, latest first. -/
  stack : List Configuration
  /-- The configurations that are not put on the stack again. -/
  seen : Finset Configuration
  /-- All that has been put on the stack, latest first. -/
  pushed : List Configuration
  /-- All that has been taken from the stack, latest first. -/
  popped : List Configuration
  /-- The answer, once there is one. -/
  verdict : Option Bool

/-- The configurations that a step of a run on a word leads to. Those that consume a character come
last, so that the search goes on from them first. -/
def Automaton.stepsFrom (a : Automaton) (word : List Char) (c : Configuration) :
    List Configuration :=
  let silent := (a.targets c.state .epsilon).reverse.map fun t => ⟨c.consumed, t⟩
  match word[c.consumed]? with
  | none => silent
  | some x =>
    silent ++ (a.targets c.state (.symbol x)).reverse.map fun t => ⟨c.consumed + 1, t⟩

namespace DepthFirst

def push (s : DepthFirst) (c : Configuration) : DepthFirst :=
  if c ∈ s.seen then s
  else { s with stack := c :: s.stack, seen := insert c s.seen, pushed := c :: s.pushed }

def pushAll (s : DepthFirst) (cs : List Configuration) : DepthFirst := cs.foldl push s

/-- Takes the latest configuration from the stack. An empty stack and the end of an accepting run
give an answer, after which nothing changes. -/
def round (a : Automaton) (word : List Char) (s : DepthFirst) : DepthFirst :=
  match s.verdict, s.stack with
  | some _, _ => s
  | none, [] => { s with verdict := some false }
  | none, c :: rest =>
    let s := { s with stack := rest, popped := c :: s.popped }
    if a.isFinal word c then { s with verdict := some true } else s.pushAll (a.stepsFrom word c)

/-- The search after a number of rounds. -/
def after (a : Automaton) (word : List Char) : Nat → DepthFirst
  | 0 => pushAll ⟨[], ∅, [], [], none⟩ a.initial
  | rounds + 1 => (after a word rounds).round a word

end DepthFirst

namespace Automaton

variable {a : Automaton} {word : List Char} {c d : Configuration}

theorem mem_stepsFrom_iff : d ∈ a.stepsFrom word c ↔ a.RunStep word c d := by
  obtain ⟨n, q⟩ := c
  constructor
  · intro h
    unfold stepsFrom at h
    split at h
    next =>
      obtain ⟨t, ht, rfl⟩ := List.mem_map.mp h
      exact .silent (a.mem_targets.mp (List.mem_reverse.mp ht))
    next x hx =>
      rcases List.mem_append.mp h with h | h
      · obtain ⟨t, ht, rfl⟩ := List.mem_map.mp h
        exact .silent (a.mem_targets.mp (List.mem_reverse.mp ht))
      · obtain ⟨t, ht, rfl⟩ := List.mem_map.mp h
        exact .consume hx (a.mem_targets.mp (List.mem_reverse.mp ht))
  · intro h
    cases h with
    | silent he =>
      unfold stepsFrom
      split <;> simp [he]
    | consume hnext he => simp [stepsFrom, hnext, he]

/-- Configurations of runs on a word within the automaton. -/
def configurations (a : Automaton) (word : List Char) : List Configuration :=
  (List.range (word.length + 1)).flatMap fun n => a.ids.map fun q => ⟨n, q⟩

theorem length_configurations (a : Automaton) (word : List Char) :
    (a.configurations word).length = (word.length + 1) * a.size := by
  simp [configurations, List.length_flatMap, length_ids]

theorem mem_configurations_iff :
    c ∈ a.configurations word ↔ c.consumed ≤ word.length ∧ c.state ∈ a := by
  obtain ⟨n, q⟩ := c
  simp only [configurations, List.mem_flatMap, List.mem_map, List.mem_range, Nat.lt_succ_iff,
    Configuration.mk.injEq]
  constructor
  · rintro ⟨_, hn, _, hq, rfl, rfl⟩
    exact ⟨hn, hq⟩
  · rintro ⟨hn, hq⟩
    exact ⟨n, hn, q, hq, rfl, rfl⟩

theorem WellFormed.mem_configurations_of_initial (ha : a.WellFormed) (hc : c ∈ a.initial) :
    c ∈ a.configurations word := by
  obtain ⟨q, hq, rfl⟩ := List.mem_map.mp hc
  exact mem_configurations_iff.mpr ⟨Nat.zero_le _, ha.start_mem q (Option.mem_toList.mp hq)⟩

theorem WellFormed.mem_configurations_of_runStep (ha : a.WellFormed)
    (hc : c ∈ a.configurations word) (h : a.RunStep word c d) : d ∈ a.configurations word := by
  have hbound := (mem_configurations_iff.mp hc).1
  refine mem_configurations_iff.mpr ?_
  cases h with
  | silent he => exact ⟨hbound, (ha.edges_fit _ he).target_mem⟩
  | consume hnext he =>
    exact ⟨(List.getElem?_eq_some_iff.mp hnext).1, (ha.edges_fit _ he).target_mem⟩

theorem WellFormed.mem_configurations_of_runs (ha : a.WellFormed)
    (hc : c ∈ a.configurations word) (h : Relation.ReflTransGen (a.RunStep word) c d) :
    d ∈ a.configurations word := by
  induction h with
  | refl => exact hc
  | tail _ hstep ih => exact ha.mem_configurations_of_runStep ih hstep

/-- A word is accepted if some run on it leads from the beginning to the end of an accepting one. -/
theorem WellFormed.accepts_iff_exists_final (ha : a.WellFormed) : a.accepts word = true ↔
    ∃ i ∈ a.initial, ∃ c, Relation.ReflTransGen (a.RunStep word) i c ∧ a.isFinal word c = true := by
  rw [ha.accepts_iff_path]
  constructor
  · intro h
    obtain ⟨q, hq, t, hp, ht⟩ := h
    exact ⟨⟨0, q⟩, List.mem_map.mpr ⟨q, Option.mem_toList.mpr hq, rfl⟩, ⟨word.length, t⟩,
      runs_of_path (n := 0) hp (Nat.zero_le _), isFinal_iff.mpr ⟨rfl, ht⟩⟩
  · intro h
    obtain ⟨i, hi, ⟨n, t⟩, hrun, hfinal⟩ := h
    obtain ⟨rfl, ht⟩ := isFinal_iff.mp hfinal
    obtain ⟨q, hq, rfl⟩ := List.mem_map.mp hi
    exact ⟨q, state_of_mem_initial hi, t, path_of_runs hrun, ht⟩

end Automaton

namespace DepthFirst

variable {a : Automaton} {word : List Char} {s : DepthFirst} {c d : Configuration}
  {cs : List Configuration}

/-! ## The stack and its history -/

/-- The history agrees with the stack, and nothing has been put on it twice. -/
structure Recorded (s : DepthFirst) : Prop where
  mem_seen_iff : ∀ c, c ∈ s.seen ↔ c ∈ s.pushed
  pushed_nodup : s.pushed.Nodup
  perm : (s.stack ++ s.popped).Perm s.pushed

theorem Recorded.push (hs : s.Recorded) (c : Configuration) : (s.push c).Recorded := by
  unfold DepthFirst.push
  split
  next => exact hs
  next hc =>
    refine ⟨?_, ?_, hs.perm.cons c⟩
    · intro d
      rw [Finset.mem_insert, List.mem_cons, hs.mem_seen_iff]
    · exact List.nodup_cons.mpr ⟨mt (hs.mem_seen_iff c).mpr hc, hs.pushed_nodup⟩

theorem Recorded.pushAll (hs : s.Recorded) (cs : List Configuration) :
    (s.pushAll cs).Recorded := by
  induction cs generalizing s with
  | nil => exact hs
  | cons c cs ih => exact ih (hs.push c)

theorem Recorded.mem_pushed_push (hs : s.Recorded) :
    d ∈ (s.push c).pushed ↔ d = c ∨ d ∈ s.pushed := by
  unfold DepthFirst.push
  split
  next hc =>
    rw [hs.mem_seen_iff] at hc
    exact ⟨.inr, fun h => h.elim (fun heq => heq ▸ hc) id⟩
  next => exact List.mem_cons

theorem Recorded.mem_pushed_pushAll (hs : s.Recorded) :
    d ∈ (s.pushAll cs).pushed ↔ d ∈ cs ∨ d ∈ s.pushed := by
  induction cs generalizing s with
  | nil => simp [DepthFirst.pushAll]
  | cons c cs ih =>
    have hrest : d ∈ ((s.push c).pushAll cs).pushed ↔ d ∈ cs ∨ d ∈ (s.push c).pushed :=
      ih (hs.push c)
    rw [DepthFirst.pushAll, List.foldl_cons]
    exact hrest.trans (by rw [hs.mem_pushed_push, List.mem_cons, or_left_comm, or_assoc])

/-- What no push changes is kept when several are made. -/
theorem pushAll_keeps {α : Type} (f : DepthFirst → α) (h : ∀ s c, f (s.push c) = f s)
    (s : DepthFirst) (cs : List Configuration) : f (s.pushAll cs) = f s := by
  induction cs generalizing s with
  | nil => rfl
  | cons c cs ih => exact (ih (s.push c)).trans (h s c)

@[simp] theorem popped_pushAll (s : DepthFirst) (cs : List Configuration) :
    (s.pushAll cs).popped = s.popped := by
  refine pushAll_keeps popped (fun s c => ?_) s cs
  unfold push
  split <;> rfl

@[simp] theorem verdict_pushAll (s : DepthFirst) (cs : List Configuration) :
    (s.pushAll cs).verdict = s.verdict := by
  refine pushAll_keeps verdict (fun s c => ?_) s cs
  unfold push
  split <;> rfl

/-! ## What a round keeps -/

/-- What is true between two rounds: all that has been pushed is the end of a run, and what has been
popped did not end an accepting one and has been expanded, unless the search is over. -/
structure Searching (a : Automaton) (word : List Char) (s : DepthFirst) : Prop where
  recorded : s.Recorded
  initial_pushed : ∀ c ∈ a.initial, c ∈ s.pushed
  reached : ∀ c ∈ s.pushed, ∃ i ∈ a.initial, Relation.ReflTransGen (a.RunStep word) i c
  expanded : s.verdict ≠ some true →
    ∀ c ∈ s.popped, a.isFinal word c = false ∧ ∀ d, a.RunStep word c d → d ∈ s.pushed
  exists_final : s.verdict = some true → ∃ c ∈ s.pushed, a.isFinal word c = true
  stack_eq_nil : s.verdict = some false → s.stack = []

theorem searching_begin (a : Automaton) (word : List Char) :
    (after a word 0).Searching a word := by
  have hempty : (⟨[], ∅, [], [], none⟩ : DepthFirst).Recorded :=
    ⟨fun c => by simp, List.nodup_nil, .nil⟩
  have hpushed (c : Configuration) : c ∈ (after a word 0).pushed ↔ c ∈ a.initial := by
    rw [after, hempty.mem_pushed_pushAll]
    exact or_iff_left List.not_mem_nil
  have hverdict : (after a word 0).verdict = none := verdict_pushAll _ _
  have hpopped : (after a word 0).popped = [] := popped_pushAll _ _
  refine ⟨hempty.pushAll _, fun c => (hpushed c).mpr, ?_, ?_, ?_, ?_⟩
  · intro c hc
    exact ⟨c, (hpushed c).mp hc, .refl⟩
  · simp [hpopped]
  · simp [hverdict]
  · simp [hverdict]

theorem Recorded.pop {rest : List Configuration} (hs : s.Recorded) (hstack : s.stack = c :: rest) :
    ({ s with stack := rest, popped := c :: s.popped } : DepthFirst).Recorded where
  mem_seen_iff := hs.mem_seen_iff
  pushed_nodup := hs.pushed_nodup
  perm := by
    have hperm := hs.perm
    rw [hstack] at hperm
    exact List.perm_middle.trans hperm

theorem Recorded.mem_pushed_of_stack (hs : s.Recorded) (hc : c ∈ s.stack) : c ∈ s.pushed :=
  hs.perm.subset (List.mem_append_left _ hc)

theorem Searching.round (hs : s.Searching a word) : (s.round a word).Searching a word := by
  unfold DepthFirst.round
  split
  next => exact hs
  next hverdict hstack =>
    refine ⟨⟨hs.recorded.mem_seen_iff, hs.recorded.pushed_nodup, hs.recorded.perm⟩,
      hs.initial_pushed, hs.reached, fun _ => hs.expanded (by simp [hverdict]), by simp,
      fun _ => hstack⟩
  next c rest hverdict hstack =>
    have hpop := hs.recorded.pop hstack
    have hc : c ∈ s.pushed := hs.recorded.mem_pushed_of_stack (by simp [hstack])
    have hexpanded := hs.expanded (by simp [hverdict])
    dsimp only
    split
    next hfinal =>
      exact ⟨⟨hpop.mem_seen_iff, hpop.pushed_nodup, hpop.perm⟩, hs.initial_pushed, hs.reached,
        fun h => absurd rfl h, fun _ => ⟨c, hc, hfinal⟩, nofun⟩
    next hfinal =>
      refine ⟨hpop.pushAll _, ?_, ?_, ?_, by simp [hverdict], by simp [hverdict]⟩
      · intro d hd
        exact hpop.mem_pushed_pushAll.mpr (.inr (hs.initial_pushed d hd))
      · intro d hd
        rcases hpop.mem_pushed_pushAll.mp hd with hd | hd
        · obtain ⟨i, hi, hic⟩ := hs.reached c hc
          exact ⟨i, hi, hic.tail (Automaton.mem_stepsFrom_iff.mp hd)⟩
        · exact hs.reached d hd
      · intro _ d hd
        rw [popped_pushAll, List.mem_cons] at hd
        rcases hd with rfl | hd
        · refine ⟨by simpa using hfinal, fun e he => ?_⟩
          exact hpop.mem_pushed_pushAll.mpr (.inl (Automaton.mem_stepsFrom_iff.mpr he))
        · obtain ⟨hd, hsteps⟩ := hexpanded d hd
          exact ⟨hd, fun e he => hpop.mem_pushed_pushAll.mpr (.inr (hsteps e he))⟩

theorem searching_after (a : Automaton) (word : List Char) (rounds : Nat) :
    (after a word rounds).Searching a word := by
  induction rounds with
  | zero => exact searching_begin a word
  | succ rounds ih => exact ih.round

namespace Searching

variable (hs : s.Searching a word) (ha : a.WellFormed)

include hs

/-- An exhausted search has been everywhere that runs lead to. -/
theorem popped_of_runs (hverdict : s.verdict = some false) {i : Configuration} (hi : i ∈ a.initial)
    (h : Relation.ReflTransGen (a.RunStep word) i c) : c ∈ s.popped := by
  have hpopped {d : Configuration} (hd : d ∈ s.pushed) : d ∈ s.popped := by
    have hmem := hs.recorded.perm.mem_iff.mpr hd
    rwa [hs.stack_eq_nil hverdict, List.nil_append] at hmem
  induction h with
  | refl => exact hpopped (hs.initial_pushed i hi)
  | tail _ hstep ih => exact hpopped ((hs.expanded (by simp [hverdict]) _ ih).2 _ hstep)

include ha

/-- Only configurations within the automaton and the word are pushed. -/
theorem pushed_subset : s.pushed ⊆ a.configurations word := by
  intro c hc
  obtain ⟨i, hi, hrun⟩ := hs.reached c hc
  exact ha.mem_configurations_of_runs (ha.mem_configurations_of_initial hi) hrun

theorem length_popped_le : s.popped.length ≤ (word.length + 1) * a.size := by
  have hpushed := hs.recorded.pushed_nodup.length_le_of_subset (hs.pushed_subset ha)
  have hlength := hs.recorded.perm.length_eq
  rw [a.length_configurations word] at hpushed
  rw [List.length_append] at hlength
  omega

/-- The answer is whether the word is accepted. -/
theorem verdict_eq {accepted : Bool} (hverdict : s.verdict = some accepted) :
    accepted = a.accepts word := by
  cases accepted with
  | true =>
    obtain ⟨c, hc, hfinal⟩ := hs.exists_final hverdict
    obtain ⟨i, hi, hrun⟩ := hs.reached c hc
    exact (ha.accepts_iff_exists_final.mpr ⟨i, hi, c, hrun, hfinal⟩).symm
  | false =>
    symm
    rw [Bool.eq_false_iff, Ne, ha.accepts_iff_exists_final]
    rintro ⟨i, hi, c, hrun, hfinal⟩
    have hc := hs.popped_of_runs hverdict hi hrun
    rw [(hs.expanded (by simp [hverdict]) c hc).1] at hfinal
    cases hfinal

end Searching

/-! ## The end of the search -/

/-- A round without an answer has popped a configuration. -/
theorem length_popped_round (h : (s.round a word).verdict = none) :
    s.verdict = none ∧ (s.round a word).popped.length = s.popped.length + 1 := by
  unfold round at h ⊢
  split at h
  next hverdict => simp [hverdict] at h
  next => cases h
  next c rest hverdict hstack =>
    dsimp only at h ⊢
    split at h
    next => cases h
    next hfinal => simp [hverdict, hfinal]

theorem length_popped_after {rounds : Nat} (h : (after a word rounds).verdict = none) :
    (after a word rounds).popped.length = rounds := by
  induction rounds with
  | zero => exact congrArg List.length (popped_pushAll _ _)
  | succ rounds ih =>
    obtain ⟨hverdict, hlength⟩ := length_popped_round h
    rw [after, hlength, ih hverdict]

/-- There is an answer once every configuration can have been popped. -/
theorem verdict_after (ha : a.WellFormed) (word : List Char) :
    (after a word ((word.length + 1) * a.size + 1)).verdict = some (a.accepts word) := by
  have hs := searching_after a word ((word.length + 1) * a.size + 1)
  cases hverdict : (after a word ((word.length + 1) * a.size + 1)).verdict with
  | none =>
    have hle := hs.length_popped_le ha
    rw [length_popped_after hverdict] at hle
    omega
  | some accepted => rw [hs.verdict_eq ha hverdict]

/-- The search pops no more configurations than there are positions in the word and states, and then
answers whether the word is accepted. None is pushed twice, and all that are on the stack at any
time are within the word and the automaton. -/
theorem after_bounded (ha : a.Built) (word : List Char) :
    (∃ rounds, (after a word rounds).verdict = some (a.accepts word)) ∧
    ∀ rounds, (after a word rounds).popped.length ≤ (word.length + 1) * a.size ∧
      (after a word rounds).pushed.Nodup ∧
      ((after a word rounds).stack ++ (after a word rounds).popped).Perm
        (after a word rounds).pushed ∧
      ∀ c ∈ (after a word rounds).stack, c.consumed ≤ word.length ∧ c.state ∈ a := by
  refine ⟨⟨_, verdict_after ha.wellFormed word⟩, fun rounds => ?_⟩
  have hs := searching_after a word rounds
  refine ⟨hs.length_popped_le ha.wellFormed, hs.recorded.pushed_nodup, hs.recorded.perm, ?_⟩
  intro c hc
  exact Automaton.mem_configurations_iff.mp
    (hs.pushed_subset ha.wellFormed (hs.recorded.mem_pushed_of_stack hc))

/-- After three rounds one configuration waits at the end of the word and one before its last
character. -/
theorem after_bounded_silentLoop :
    (∃ rounds, (after .silentLoop ['a', 'b'] rounds).verdict = some true) ∧
      (after .silentLoop ['a', 'b'] 3).stack = [⟨2, 2⟩, ⟨1, 1⟩] ∧
      (∀ c ∈ (after .silentLoop ['a', 'b'] 3).stack, c.consumed ≤ 2 ∧ c.state < 3) ∧
      (after .silentLoop ['a', 'b'] 3).popped.length ≤ 9 := by
  have hbuilt : Automaton.silentLoop.Built := Automaton.built_ofEdits _ _
  obtain ⟨hends, hrounds⟩ := after_bounded hbuilt ['a', 'b']
  obtain ⟨hpopped, _, _, hstack⟩ := hrounds 3
  have haccepts : Automaton.silentLoop.accepts ['a', 'b'] = true := by decide
  rw [haccepts] at hends
  refine ⟨hends, by decide, ?_, hpopped⟩
  intro c hc
  obtain ⟨hconsumed, hstate⟩ := hstack c hc
  exact ⟨hconsumed, hbuilt.wellFormed.lt_nextId c.state hstate⟩

end DepthFirst

end FiniteState
