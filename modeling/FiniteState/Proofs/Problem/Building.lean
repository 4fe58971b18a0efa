import FiniteState.Problem.Format
import FiniteState.Proofs.Automaton.Listed

/-! # What formats build from lists

The building blocks of the formats on automata that are given by lists. Each of them succeeds
exactly if what it needs is listed, and makes one list longer.
-/

namespace FiniteState

/-- A fold of steps that each check an entry and otherwise only update a summary of what is built
succeeds exactly if all entries pass. -/
theorem foldlM_eq_ok_iff {ε α β γ : Type} {f : β → α → Except ε β} (build : γ → β)
    {update : γ → α → γ} {passes : α → Prop}
    (hstep : ∀ c x b, f (build c) x = .ok b ↔ passes x ∧ build (update c x) = b)
    {xs : List α} {c : γ} {b : β} :
    xs.foldlM f (build c) = .ok b ↔ (∀ x ∈ xs, passes x) ∧ build (xs.foldl update c) = b := by
  induction xs generalizing c with
  | nil => simp [pure, Except.pure]
  | cons x xs ih =>
    simp only [List.foldlM_cons, Except.bind_eq_ok_iff, hstep, List.forall_mem_cons,
      List.foldl_cons, and_assoc]
    constructor
    · rintro ⟨_, hx, rfl, hrest⟩
      exact ⟨hx, ih.mp hrest⟩
    · rintro ⟨hx, hrest⟩
      exact ⟨_, hx, rfl, ih.mpr hrest⟩

namespace Problem

variable {alphabet : Alphabet} {names finals more : List String} {edges : OrderedSet Edge}
  {b : Automaton}

/-! ## States -/

theorem declareStates_listed_eq_ok_iff (hnames : names.Nodup) :
    declareStates (.listed alphabet names [] edges) more = .ok b ↔
      (names ++ more).Nodup ∧ .listed alphabet (names ++ more) [] edges = b := by
  induction more generalizing names with
  | nil => simp [declareStates, pure, Except.pure, hnames]
  | cons name more ih =>
    rw [declareStates, List.foldlM_cons, List.append_cons names name more]
    by_cases hname : name ∈ names
    · have hdouble : ¬(names ++ [name] ++ more).Nodup := by
        intro h
        exact (List.nodup_append.mp (List.nodup_append.mp h).1).2.2 name hname name
          (List.mem_singleton_self name) rfl
      have htaken : (Automaton.listed alphabet names [] edges).addState name false =
          .error (.nameTaken name) := if_pos (by rwa [Automaton.names_listed])
      rw [htaken]
      exact iff_of_false nofun fun h => hdouble h.1
    · have hlonger : (names ++ [name]).Nodup := by
        rw [← List.concat_eq_append]
        exact hnames.concat hname
      rw [Automaton.addState_listed hname]
      exact ih hlonger

theorem declareStates_new_eq_ok_iff :
    declareStates (.new alphabet) names = .ok b ↔
      names.Nodup ∧ .listed alphabet names [] ∅ = b := by
  rw [← Automaton.listed_nil]
  exact declareStates_listed_eq_ok_iff .nil

theorem setAccepting_resolve_listed_eq_ok_iff (hnames : names.Nodup) {name : String} :
    (do
      (Automaton.listed alphabet names finals edges).setAccepting
        (← (Automaton.listed alphabet names finals edges).resolve name) true) = .ok b ↔
      name ∈ names ∧ .listed alphabet names (finals ++ [name]) edges = b := by
  rw [Except.bind_eq_ok_iff]
  constructor
  · rintro ⟨q, hq, hmarked⟩
    obtain ⟨hname, rfl⟩ := (Automaton.resolve_listed_eq_ok_iff hnames).mp hq
    rw [Automaton.setAccepting_listed hnames hname] at hmarked
    exact ⟨hname, Except.ok.inj hmarked⟩
  · rintro ⟨hname, rfl⟩
    exact ⟨_, Automaton.resolve_listed hnames hname, Automaton.setAccepting_listed hnames hname⟩

theorem acceptDeclared_listed_eq_ok_iff (hnames : names.Nodup) :
    acceptDeclared (.listed alphabet names [] edges) finals = .ok b ↔
      (∀ name ∈ finals, name ∈ names) ∧ .listed alphabet names finals edges = b := by
  have hlisted : finals.foldl (fun finals name => finals ++ [name]) [] = finals := by
    rw [List.foldl_append_eq_append, ← List.flatMap_def, List.flatMap_singleton', List.nil_append]
  have hfold : acceptDeclared (.listed alphabet names [] edges) finals = .ok b ↔
      (∀ name ∈ finals, name ∈ names) ∧ .listed alphabet names
        (finals.foldl (fun finals name => finals ++ [name]) []) edges = b :=
    foldlM_eq_ok_iff (fun finals => Automaton.listed alphabet names finals edges)
      fun _ _ _ => setAccepting_resolve_listed_eq_ok_iff hnames
  rwa [hlisted] at hfold

/-- States that are made accepting by being named are listed after those there are. -/
theorem acceptNamed_listed {seen : List String} (h : ∀ name ∈ finals, name ∈ seen) :
    acceptNamed (.listed alphabet seen.eraseDups finals edges) more =
      .ok (.listed alphabet (seen ++ more).eraseDups (finals ++ more) edges) := by
  induction more generalizing seen finals with
  | nil =>
    rw [List.append_nil, List.append_nil]
    rfl
  | cons name more ih =>
    have hname : name ∈ (seen ++ [name]).eraseDups :=
      List.mem_eraseDups.mpr (List.mem_append_right _ (List.mem_singleton_self name))
    have hmarked : (do
        let b := (Automaton.listed alphabet seen.eraseDups finals edges).addUnlessNamed name
        b.setAccepting (← b.resolve name) true) =
        .ok (.listed alphabet (seen ++ [name]).eraseDups (finals ++ [name]) edges) := by
      rw [Automaton.addUnlessNamed_listed h]
      exact (setAccepting_resolve_listed_eq_ok_iff (nodup_eraseDups _)).mpr ⟨hname, rfl⟩
    have hlonger : ∀ final ∈ finals ++ [name], final ∈ seen ++ [name] := by
      intro final hfinal
      rcases List.mem_append.mp hfinal with hfinal | hfinal
      · exact List.mem_append_left _ (h final hfinal)
      · exact List.mem_append_right _ hfinal
    rw [acceptNamed, List.foldlM_cons, hmarked, List.append_cons seen name more,
      List.append_cons finals name more]
    exact ih hlonger

theorem ensureTargets_listed {seen : List String} (h : ∀ name ∈ finals, name ∈ seen)
    (ts : List Transition) :
    ensureTargets (.listed alphabet seen.eraseDups finals edges) ts =
      .listed alphabet (seen ++ ts.map (·.target)).eraseDups finals edges := by
  induction ts generalizing seen with
  | nil => simp [ensureTargets]
  | cons t ts ih =>
    rw [ensureTargets, List.foldl_cons, Automaton.addUnlessNamed_listed h, List.map_cons,
      List.append_cons seen t.target (ts.map (·.target))]
    exact ih fun name hname => List.mem_append_left _ (h name hname)

/-! ## Transitions -/

namespace Transition

variable {t : Transition}

/-- The edge of a transition between states that have the numbers of their names. -/
def edge (names : List String) (t : Transition) : Edge :=
  ⟨names.idxOf t.source, t.label, names.idxOf t.target⟩

/-- A transition between listed states with an allowed label. -/
structure Fits (alphabet : Alphabet) (names : List String) (t : Transition) : Prop where
  allowed : alphabet.Allows t.label
  source_mem : t.source ∈ names
  target_mem : t.target ∈ names

/-- The edges after a transition has replaced those with its source and symbol. -/
def replace (names : List String) (edges : OrderedSet Edge) (t : Transition) : OrderedSet Edge :=
  match t.label with
  | .symbol _ => (edges.filter fun f =>
      ¬(f.source = names.idxOf t.source ∧ f.label = t.label)).insert (t.edge names)
  | .epsilon => edges.insert (t.edge names)

/-- Nothing is replaced if no other edge has the source and the label. -/
theorem replace_eq_insert (h : ∀ f ∈ edges, f.source = names.idxOf t.source → f.label = t.label →
    f = t.edge names) : t.replace names edges = edges.insert (t.edge names) := by
  unfold replace
  split
  next =>
    refine OrderedSet.ext fun f => ?_
    rw [OrderedSet.mem_insert, OrderedSet.mem_insert, OrderedSet.mem_filter, decide_eq_true_eq]
    constructor
    · exact Or.imp_right And.left
    · rintro (rfl | hf)
      · exact .inl rfl
      · by_cases hsame : f.source = names.idxOf t.source ∧ f.label = t.label
        · exact .inl (h f hf hsame.1 hsame.2)
        · exact .inr ⟨hf, hsame⟩
  next => rfl

theorem mem_of_mem_replace {e : Edge} (h : e ∈ t.replace names edges) :
    e = t.edge names ∨ e ∈ edges := by
  unfold replace at h
  split at h
  next => exact (OrderedSet.mem_insert.mp h).imp_right fun he => (OrderedSet.mem_filter.mp he).1
  next => exact OrderedSet.mem_insert.mp h

theorem Fits.fits_listed (h : t.Fits alphabet names) :
    (Automaton.listed alphabet names finals edges).Fits (t.edge names) :=
  ⟨h.allowed, Automaton.mem_listed.mpr (List.idxOf_lt_length_iff.mpr h.source_mem),
    Automaton.mem_listed.mpr (List.idxOf_lt_length_iff.mpr h.target_mem)⟩

/-- Both ends are looked up before the automaton is changed. -/
theorem resolve_listed_eq_ok_iff (hnames : names.Nodup) {edges' : OrderedSet Edge}
    {f : StateId → StateId → Except AutomatonError Automaton}
    (hf : f (names.idxOf t.source) (names.idxOf t.target) = .ok b ↔
      (Automaton.listed alphabet names finals edges).Fits (t.edge names) ∧
        .listed alphabet names finals edges' = b) :
    (do
      let source ← (Automaton.listed alphabet names finals edges).resolve t.source
      let target ← (Automaton.listed alphabet names finals edges).resolve t.target
      f source target) = .ok b ↔
      t.Fits alphabet names ∧ .listed alphabet names finals edges' = b := by
  simp only [Except.bind_eq_ok_iff, Automaton.resolve_listed_eq_ok_iff hnames]
  constructor
  · rintro ⟨_, ⟨hsource, rfl⟩, _, ⟨htarget, rfl⟩, hb⟩
    obtain ⟨hfits, hb⟩ := hf.mp hb
    exact ⟨⟨hfits.allowed, hsource, htarget⟩, hb⟩
  · rintro ⟨ht, hb⟩
    exact ⟨_, ⟨ht.source_mem, rfl⟩, _, ⟨ht.target_mem, rfl⟩, hf.mpr ⟨ht.fits_listed, hb⟩⟩

theorem addTo_listed_eq_ok_iff (hnames : names.Nodup) :
    t.addTo (.listed alphabet names finals edges) = .ok b ↔
      t.Fits alphabet names ∧ .listed alphabet names finals (edges.insert (t.edge names)) = b :=
  resolve_listed_eq_ok_iff hnames Automaton.addEdge_eq_ok_iff

theorem replaceIn_listed_eq_ok_iff (hnames : names.Nodup) :
    t.replaceIn (.listed alphabet names finals edges) = .ok b ↔
      t.Fits alphabet names ∧ .listed alphabet names finals (t.replace names edges) = b := by
  apply resolve_listed_eq_ok_iff hnames
  unfold replace edge
  cases t.label with
  | symbol c => exact Automaton.replaceEdges_eq_ok_iff
  | epsilon => exact Automaton.addEdge_eq_ok_iff

end Transition

variable {ts : List Transition}

theorem foldlM_addTo_listed_eq_ok_iff (hnames : names.Nodup) :
    ts.foldlM (fun a t => t.addTo a) (.listed alphabet names finals edges) = .ok b ↔
      (∀ t ∈ ts, t.Fits alphabet names) ∧
        .listed alphabet names finals
          ((ts.map (·.edge names)).foldl (fun s e => s.insert e) edges) = b := by
  rw [List.foldl_map]
  exact foldlM_eq_ok_iff (Automaton.listed alphabet names finals)
    fun _ _ _ => Transition.addTo_listed_eq_ok_iff hnames

theorem foldlM_replaceIn_listed_eq_ok_iff (hnames : names.Nodup) :
    ts.foldlM (fun a t => t.replaceIn a) (.listed alphabet names finals edges) = .ok b ↔
      (∀ t ∈ ts, t.Fits alphabet names) ∧
        .listed alphabet names finals
          (ts.foldl (fun edges t => t.replace names edges) edges) = b :=
  foldlM_eq_ok_iff (Automaton.listed alphabet names finals)
    fun _ _ _ => Transition.replaceIn_listed_eq_ok_iff hnames

theorem mem_of_mem_foldl_replace {e : Edge}
    (h : e ∈ ts.foldl (fun edges t => t.replace names edges) edges) :
    (∃ t ∈ ts, t.edge names = e) ∨ e ∈ edges := by
  induction ts generalizing edges with
  | nil => exact .inr h
  | cons t ts ih =>
    rcases ih h with ⟨u, hu, rfl⟩ | h
    · exact .inl ⟨u, List.mem_cons_of_mem t hu, rfl⟩
    · rcases Transition.mem_of_mem_replace h with rfl | h
      · exact .inl ⟨t, List.mem_cons_self, rfl⟩
      · exact .inr h

/-- If all the edges determine their targets, replacing is adding. -/
theorem foldl_replace_eq {E : Set Edge} (hE : ∀ e ∈ E, ∀ f ∈ E, f.source = e.source →
    f.label = e.label → f = e) (hedges : ∀ e ∈ edges, e ∈ E) (hts : ∀ t ∈ ts, t.edge names ∈ E) :
    ts.foldl (fun edges t => t.replace names edges) edges =
      (ts.map (·.edge names)).foldl (fun s e => s.insert e) edges := by
  induction ts generalizing edges with
  | nil => rfl
  | cons t ts ih =>
    obtain ⟨ht, hrest⟩ := List.forall_mem_cons.mp hts
    rw [List.foldl_cons, List.map_cons, List.foldl_cons,
      Transition.replace_eq_insert fun f hf => hE _ ht f (hedges f hf)]
    refine ih ?_ hrest
    intro e he
    rcases OrderedSet.mem_insert.mp he with rfl | he
    · exact ht
    · exact hedges e he

end Problem

end FiniteState
