import FiniteState.Proofs.Regex.Step

/-! # Faults of patterns

Whether a token is misplaced depends on the token before it and on the groups that are open. The
first misplaced token is the error of a pattern. Only if there is none does the end count: an
alternative must not be open there, nor a group. An unpaired backslash comes before all of this.
-/

namespace FiniteState.Regex

variable {ts before : List PlacedToken} {t : PlacedToken} {f : ParseFault} {p : PartialRead}
  {cs : List Char}

/-! ## The law -/

def lastToken? (ts : List PlacedToken) : Option Token := ts.getLast?.map (·.token)

/-- The offsets of the groups that the tokens leave open, innermost first. -/
def openOffsets (ts : List PlacedToken) : List Nat :=
  ts.foldl (fun offsets t =>
    match t.token with
    | .openGroup => t.offset :: offsets
    | .closeGroup => offsets.tail
    | _ => offsets) []

/-- An alternative begins at the start of the pattern, after an opening parenthesis and after a
bar. -/
def BeginsAlternative (ts : List PlacedToken) : Prop :=
  lastToken? ts = none ∨ lastToken? ts = some .openGroup ∨ lastToken? ts = some .bar

/-- The tokens that cannot follow others, and what is wrong with them. -/
inductive Misplaced (before : List PlacedToken) : Token → ParseFault → Prop where
  | star : BeginsAlternative before → Misplaced before .star .nothingToRepeat
  | bar : BeginsAlternative before → Misplaced before .bar .emptyAlternative
  | closeAlternative : lastToken? before = some .bar →
      Misplaced before .closeGroup .emptyAlternative
  | closeEmpty : lastToken? before = some .openGroup → Misplaced before .closeGroup .emptyGroup
  | closeNothing : lastToken? before ≠ some .bar → lastToken? before ≠ some .openGroup →
      openOffsets before = [] → Misplaced before .closeGroup .unmatchedClose

/-- No token is misplaced. -/
def WellPlaced (ts : List PlacedToken) : Prop :=
  ∀ before t after f, ts = before ++ t :: after → ¬Misplaced before t.token f

/-- The error of a pattern. -/
inductive Rejected (cs : List Char) : ParseError → Prop where
  | unpaired : Token.EndsUnpaired cs → Rejected cs ⟨.danglingEscape, cs.length - 1⟩
  | misplaced {before after : List PlacedToken} {t : PlacedToken} {f : ParseFault} :
      Token.Spelled 0 cs (before ++ t :: after) → WellPlaced before →
        Misplaced before t.token f → Rejected cs ⟨f, t.offset⟩
  | openAlternative {ts : List PlacedToken} : Token.Spelled 0 cs ts → WellPlaced ts →
      lastToken? ts = some .bar → Rejected cs ⟨.emptyAlternative, cs.length⟩
  | openGroup {ts : List PlacedToken} {offset : Nat} {outer : List Nat} :
      Token.Spelled 0 cs ts → WellPlaced ts → lastToken? ts ≠ some .bar →
        openOffsets ts = offset :: outer → Rejected cs ⟨.unclosedGroup, offset⟩

/-- Patterns without a fault. -/
def Readable (cs : List Char) : Prop :=
  ∃ ts, Token.Spelled 0 cs ts ∧ WellPlaced ts ∧ lastToken? ts ≠ some .bar ∧ openOffsets ts = []

/-! ## One more token -/

@[simp] theorem lastToken?_concat (ts : List PlacedToken) (t : PlacedToken) :
    lastToken? (ts ++ [t]) = some t.token := by
  simp [lastToken?]

theorem openOffsets_concat (ts : List PlacedToken) (t : PlacedToken) :
    openOffsets (ts ++ [t]) =
      match t.token with
      | .openGroup => t.offset :: openOffsets ts
      | .closeGroup => (openOffsets ts).tail
      | _ => openOffsets ts := by
  rw [openOffsets, List.foldl_concat]
  rfl

theorem beginsAlternative_concat_iff :
    BeginsAlternative (ts ++ [t]) ↔ t.token = .openGroup ∨ t.token = .bar := by
  simp [BeginsAlternative]

theorem openOffsets_ne_nil (h : lastToken? ts = some .openGroup) : openOffsets ts ≠ [] := by
  rcases List.eq_nil_or_concat ts with rfl | ⟨us, t, rfl⟩
  · cases h
  · rw [List.concat_eq_append, lastToken?_concat, Option.some.injEq] at h
    rw [List.concat_eq_append, openOffsets_concat, h]
    exact List.cons_ne_nil _ _

theorem openOffsets_eq_nil (h : lastToken? ts = none) : openOffsets ts = [] := by
  have hts : ts = [] := by simpa [lastToken?] using h
  subst hts
  rfl

theorem wellPlaced_nil : WellPlaced [] := by
  intro before t after f h
  simp at h

theorem wellPlaced_concat_iff :
    WellPlaced (ts ++ [t]) ↔ WellPlaced ts ∧ ∀ f, ¬Misplaced ts t.token f := by
  constructor
  · intro h
    refine ⟨?_, fun f => h ts t [] f rfl⟩
    rintro before u after f rfl
    exact h before u (after ++ [t]) f (by simp)
  · rintro ⟨hts, ht⟩ before u after f h
    rcases List.eq_nil_or_concat after with rfl | ⟨after, v, rfl⟩
    · obtain ⟨rfl, hut⟩ := List.append_inj' h rfl
      cases hut
      exact ht f
    · rw [List.concat_eq_append, ← List.cons_append, ← List.append_assoc] at h
      exact hts before u after f (List.append_inj' h rfl).1

/-- If some token is misplaced, one is the first. -/
theorem wellPlaced_or_exists_first (ts : List PlacedToken) :
    WellPlaced ts ∨ ∃ before t after f,
      ts = before ++ t :: after ∧ WellPlaced before ∧ Misplaced before t.token f := by
  induction ts using List.reverseRecOn with
  | nil => exact .inl wellPlaced_nil
  | append_singleton ts t ih =>
    rcases ih with hts | ⟨before, u, after, f, rfl, hbefore, hu⟩
    · by_cases ht : ∃ f, Misplaced ts t.token f
      · obtain ⟨f, ht⟩ := ht
        exact .inr ⟨ts, t, [], f, rfl, hts, ht⟩
      · exact .inl (wellPlaced_concat_iff.mpr ⟨hts, not_exists.mp ht⟩)
    · exact .inr ⟨before, u, after ++ [t], f, by simp, hbefore, hu⟩

/-! ## What reading keeps -/

/-- A partial read knows of the tokens before it what decides on the next one. -/
structure PartialRead.Follows (p : PartialRead) (ts : List PlacedToken) : Prop where
  offsets : p.groups.map (·.offset) = openOffsets ts
  items_eq_nil_iff : p.branches.items = [] ↔ BeginsAlternative ts
  finished_eq_nil_iff :
    p.branches.items = [] → (p.branches.finished = [] ↔ lastToken? ts ≠ some .bar)

namespace PartialRead.Follows

theorem start : PartialRead.start.Follows [] where
  offsets := rfl
  items_eq_nil_iff := iff_of_true rfl (.inl rfl)
  finished_eq_nil_iff _ := iff_of_true rfl nofun

theorem groups_eq_nil_iff (hp : p.Follows before) : p.groups = [] ↔ openOffsets before = [] := by
  rw [← hp.offsets, List.map_eq_nil_iff]

/-- A misplaced token is an error at its own offset. -/
theorem step_error (hp : p.Follows before) (h : Misplaced before t.token f) :
    p.step t = .error ⟨f, t.offset⟩ := by
  generalize htoken : t.token = token at h
  unfold PartialRead.step
  rw [htoken]
  cases h with
  | star hbegins =>
    simp only [hp.items_eq_nil_iff.mpr hbegins]
  | bar hbegins =>
    simp only [hp.items_eq_nil_iff.mpr hbegins, List.isEmpty_nil, if_true]
  | closeAlternative hlast =>
    have hitems := hp.items_eq_nil_iff.mpr (.inr (.inr hlast))
    have hfinished : p.branches.finished ≠ [] := fun h =>
      (hp.finished_eq_nil_iff hitems).mp h hlast
    simp [hitems, emptyFault, hfinished]
  | closeEmpty hlast =>
    have hitems := hp.items_eq_nil_iff.mpr (.inr (.inl hlast))
    have hfinished : p.branches.finished = [] :=
      (hp.finished_eq_nil_iff hitems).mpr (by simp [hlast])
    have hgroups : p.groups ≠ [] := mt hp.groups_eq_nil_iff.mp (openOffsets_ne_nil hlast)
    simp [hitems, emptyFault, hfinished, hgroups]
  | closeNothing hbar _ hopen =>
    have hgroups := hp.groups_eq_nil_iff.mpr hopen
    by_cases hitems : p.branches.items = []
    · have hfinished := (hp.finished_eq_nil_iff hitems).mpr hbar
      simp [hitems, emptyFault, hfinished, hgroups]
    · simp [hitems, hgroups]

/-- Any other token is read. -/
theorem exists_step (hp : p.Follows before) (h : ∀ f, ¬Misplaced before t.token f) :
    ∃ q, p.Step t q ∧ q.Follows (before ++ [t]) := by
  obtain ⟨token, offset⟩ := t
  obtain ⟨branches, groups⟩ := p
  cases token with
  | character c =>
    refine ⟨_, .character c offset, ?_, ?_, fun hitems => absurd hitems (List.cons_ne_nil _ _)⟩
    · rw [openOffsets_concat]
      exact hp.offsets
    · simp [beginsAlternative_concat_iff, Branches.push]
  | openGroup =>
    refine ⟨_, .openGroup offset, ?_, ?_, ?_⟩
    · rw [openOffsets_concat, List.map_cons, hp.offsets]
    · simp [beginsAlternative_concat_iff, Branches.none]
    · simp [Branches.none]
  | closeGroup =>
    have hbar : lastToken? before ≠ some .bar := fun hlast => h _ (.closeAlternative hlast)
    have hopen : lastToken? before ≠ some .openGroup := fun hlast => h _ (.closeEmpty hlast)
    have hoffsets : openOffsets before ≠ [] := fun hnil => h _ (.closeNothing hbar hopen hnil)
    have hitems : branches.items ≠ [] := by
      rw [Ne, hp.items_eq_nil_iff, BeginsAlternative, not_or, not_or]
      exact ⟨mt openOffsets_eq_nil hoffsets, hopen, hbar⟩
    obtain ⟨g, outer, rfl⟩ := List.exists_cons_of_ne_nil (mt hp.groups_eq_nil_iff.mp hoffsets)
    refine ⟨_, .closeGroup offset hitems, ?_, ?_,
      fun hitems => absurd hitems (List.cons_ne_nil _ _)⟩
    · rw [openOffsets_concat, ← hp.offsets]
      rfl
    · simp [beginsAlternative_concat_iff, Branches.push]
  | bar =>
    have hitems : branches.items ≠ [] :=
      mt hp.items_eq_nil_iff.mp fun hbegins => h _ (.bar hbegins)
    refine ⟨_, .bar offset hitems, ?_, ?_, ?_⟩
    · rw [openOffsets_concat]
      exact hp.offsets
    · simp [beginsAlternative_concat_iff, Branches.finish]
    · simp [Branches.finish]
  | star =>
    have hitems : branches.items ≠ [] :=
      mt hp.items_eq_nil_iff.mp fun hbegins => h _ (.star hbegins)
    obtain ⟨finished, items⟩ := branches
    obtain ⟨r, rest, rfl⟩ := List.exists_cons_of_ne_nil hitems
    refine ⟨_, .star offset, ?_, ?_, fun hitems => absurd hitems (List.cons_ne_nil _ _)⟩
    · rw [openOffsets_concat]
      exact hp.offsets
    · simp [beginsAlternative_concat_iff]

end PartialRead.Follows

/-! ## Whole patterns -/

/-- Tokens of which none is misplaced are read to the end. -/
theorem WellPlaced.read (h : WellPlaced ts) :
    ∃ p, ts.foldlM PartialRead.step .start = .ok p ∧ p.Follows ts := by
  induction ts using List.reverseRecOn with
  | nil => exact ⟨_, rfl, .start⟩
  | append_singleton ts t ih =>
    obtain ⟨hts, ht⟩ := wellPlaced_concat_iff.mp h
    obtain ⟨p, hread, hp⟩ := ih hts
    obtain ⟨q, hstep, hq⟩ := hp.exists_step ht
    refine ⟨q, ?_, hq⟩
    rw [PartialRead.read_append hread, PartialRead.read_cons hstep]
    rfl

/-- Once all tokens are read and no alternative is open, the innermost open group decides. -/
theorem PartialRead.Follows.result_eq (hp : p.Follows ts) (hlast : lastToken? ts ≠ some .bar)
    (endOffset : Nat) : p.result endOffset =
      match openOffsets ts with
      | offset :: _ => .error ⟨.unclosedGroup, offset⟩
      | [] => .ok (if p.branches.items.isEmpty then .empty else p.branches.close) := by
  have hclosed : (p.branches.items.isEmpty && !p.branches.finished.isEmpty) = false := by
    by_cases hitems : p.branches.items = []
    · simp [(hp.finished_eq_nil_iff hitems).mpr hlast]
    · simp [hitems]
  rw [← hp.offsets, PartialRead.result, hclosed]
  cases p.groups <;> rfl

/-- A rejected pattern has the error that the law gives. -/
theorem Rejected.ofChars_eq {e : ParseError} (h : Rejected cs e) : ofChars cs = .error e := by
  cases h with
  | unpaired hunpaired =>
    have hscan : Token.scan 0 cs = .error ⟨.danglingEscape, 0 + cs.length - 1⟩ :=
      Token.scan_eq_error_iff.mpr ⟨hunpaired, rfl⟩
    rw [ofChars, hscan, Nat.zero_add]
    rfl
  | @misplaced before after t f hspelled hbefore ht =>
    obtain ⟨p, hread, hp⟩ := hbefore.read
    rw [ofChars_eq_of_spelled hspelled, ofTokens, PartialRead.read_append hread, List.foldlM_cons,
      hp.step_error ht]
    rfl
  | openAlternative hspelled hts hlast =>
    obtain ⟨p, hread, hp⟩ := hts.read
    have hitems := hp.items_eq_nil_iff.mpr (.inr (.inr hlast))
    have hfinished : p.branches.finished ≠ [] := fun h =>
      (hp.finished_eq_nil_iff hitems).mp h hlast
    rw [ofChars_eq_of_spelled hspelled, ofTokens, hread]
    simp [bind, Except.bind, PartialRead.result, hitems, hfinished]
  | openGroup hspelled hts hlast hopen =>
    obtain ⟨p, hread, hp⟩ := hts.read
    rw [ofChars_eq_of_spelled hspelled, ofTokens, hread]
    change p.result cs.length = _
    rw [hp.result_eq hlast, hopen]

theorem Readable.exists_ofChars_eq (h : Readable cs) : ∃ r, ofChars cs = .ok r := by
  obtain ⟨ts, hspelled, hts, hlast, hopen⟩ := h
  obtain ⟨p, hread, hp⟩ := hts.read
  rw [ofChars_eq_of_spelled hspelled, ofTokens, hread]
  change ∃ r, p.result cs.length = .ok r
  rw [hp.result_eq hlast, hopen]
  exact ⟨_, rfl⟩

/-- The law leaves no pattern out. -/
theorem readable_or_rejected (cs : List Char) : Readable cs ∨ ∃ e, Rejected cs e := by
  cases Token.scans 0 cs with
  | unpaired hunpaired => exact .inr ⟨_, .unpaired hunpaired⟩
  | @tokens ts _ hspelled =>
    rcases wellPlaced_or_exists_first ts with hts | ⟨before, t, after, f, rfl, hbefore, ht⟩
    · by_cases hlast : lastToken? ts = some .bar
      · exact .inr ⟨_, .openAlternative hspelled hts hlast⟩
      · cases hopen : openOffsets ts with
        | nil => exact .inl ⟨ts, hspelled, hts, hlast, hopen⟩
        | cons offset outer => exact .inr ⟨_, .openGroup hspelled hts hlast hopen⟩
    · exact .inr ⟨_, .misplaced hspelled hbefore ht⟩

/-- A pattern is read exactly if nothing is wrong with it, and otherwise its error is the one that
the law gives. -/
theorem ofString_outcome (pattern : String) :
    (∀ e, ofString pattern = .error e ↔ Rejected pattern.toList e) ∧
      ((∃ r, ofString pattern = .ok r) ↔ Readable pattern.toList) := by
  have hrejected (e : ParseError) (h : Rejected pattern.toList e) :
      ofString pattern = .error e := h.ofChars_eq
  have hreadable (h : Readable pattern.toList) : ∃ r, ofString pattern = .ok r :=
    h.exists_ofChars_eq
  rcases readable_or_rejected pattern.toList with hpattern | ⟨e, hpattern⟩
  · obtain ⟨r, hr⟩ := hreadable hpattern
    refine ⟨fun e => ⟨?_, hrejected e⟩, fun _ => hpattern, hreadable⟩
    intro h
    cases hr.symm.trans h
  · have he := hrejected e hpattern
    refine ⟨fun e' => ⟨?_, hrejected e'⟩, ?_, hreadable⟩
    · intro h
      cases he.symm.trans h
      exact hpattern
    · rintro ⟨r, hr⟩
      cases he.symm.trans hr

end FiniteState.Regex
