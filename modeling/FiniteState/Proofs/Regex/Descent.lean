import FiniteState.Pattern
import FiniteState.Proofs.Regex.Assembly
import FiniteState.Proofs.Regex.Derivation
import FiniteState.Proofs.Stateful

/-! # Reading patterns by recursive descent

A pattern can also be read by functions that call each other: an expression reads sequences between
bars, a sequence reads items, an item reads a character or a group, and a group reads an expression.
Each function relies on what its callers have looked at before, and some of its steps must never be
taken. None is, whatever the pattern: reading ends with the tree or with the error that reading from
left to right gives. Nor does the automaton of the tree need a step that is refused. The calls are
counted by fuel, of which the length of the pattern bounds what is needed.
-/

namespace FiniteState.Regex

/-- A step that must never be taken. -/
inductive Misstep where
  /-- An item begins with a bar or a closing parenthesis. -/
  | itemAtOperator
  /-- An item begins at the end of the pattern. -/
  | itemAtEnd
  /-- The only part is taken although there are none. -/
  | noPart
  /-- The automaton of a tree cannot be built. -/
  | refusedStep
deriving DecidableEq, Repr

/-- Why reading stops without a tree. -/
inductive Stop where
  | fault (e : ParseError)
  | misstep (m : Misstep)
  /-- Functions call each other more often than is allowed for. -/
  | outOfFuel
deriving DecidableEq, Repr

/-- Reads from the tokens that are left. -/
abbrev Descent (α : Type) := ExceptT Stop (StateM (List PlacedToken)) α

namespace Descent

/-- The next token, which is left in place. -/
def peek? : Descent (Option Token) := do
  return (← get).head?.map (·.token)

/-- Takes the next token. -/
def next? : Descent (Option PlacedToken) := do
  let tokens ← get
  set tokens.tail
  return tokens.head?

/-- The offset of the next token, or that of the end. -/
def position (endOffset : Nat) : Descent Nat := do
  return ((← get).head?.map (·.offset)).getD endOffset

/-- The only part, or the tree of all parts. -/
def single (tree : List Regex → Regex) (parts : List Regex) : Descent Regex :=
  if parts.length = 1 then
    match parts with
    | [] => throw (.misstep .noPart)
    | r :: _ => return r
  else return tree parts

/-- A tree under the stars at the beginning of some tokens, and the tokens after them. -/
def starred (r : Regex) : List PlacedToken → Regex × List PlacedToken
  | [] => (r, [])
  | t :: tokens => if t.token = .star then starred (.star r) tokens else (r, t :: tokens)

/-- Takes all stars that follow a tree. -/
def stars (r : Regex) : Descent Regex := do
  let (r, tokens) := starred r (← get)
  set tokens
  return r

/-- What is wrong where an alternative without items ends. -/
def emptyFault (inGroup more : Bool) (alternatives : List Regex) : ParseFault :=
  if more || !alternatives.isEmpty then .emptyAlternative
  else if inGroup then .emptyGroup
  else .unmatchedClose

section Grammar

variable (endOffset : Nat)

mutual

/-- Reads the alternatives up to the end of a group or of the pattern. -/
def expression (inGroup : Bool) : Nat → List Regex → Descent Regex
  | 0, _ => throw .outOfFuel
  | fuel + 1, alternatives => do
    let offset ← position endOffset
    let items ← sequence fuel []
    let more : Bool := (← peek?) = some .bar
    if items.isEmpty then
      throw (.fault ⟨emptyFault inGroup more alternatives, offset⟩)
    else
      let alternative ← single .concat items
      if more then
        let _ ← next?
        expression inGroup fuel (alternatives ++ [alternative])
      else
        single .alternation (alternatives ++ [alternative])

/-- Reads items up to a bar, a closing parenthesis or the end. -/
def sequence : Nat → List Regex → Descent (List Regex)
  | 0, _ => throw .outOfFuel
  | fuel + 1, items => do
    match ← peek? with
    | none | some .bar | some .closeGroup => return items
    | some _ => sequence fuel (items ++ [← item fuel])

/-- Reads a character or a group with the stars after it. -/
def item : Nat → Descent Regex
  | 0 => throw .outOfFuel
  | fuel + 1 => do
    match ← next? with
    | none => throw (.misstep .itemAtEnd)
    | some ⟨.character c, _⟩ => stars (.literal c)
    | some ⟨.openGroup, offset⟩ => stars (← group offset fuel)
    | some ⟨.star, offset⟩ => throw (.fault ⟨.nothingToRepeat, offset⟩)
    | some ⟨.bar, _⟩ | some ⟨.closeGroup, _⟩ => throw (.misstep .itemAtOperator)

/-- Reads the group that has been opened at an offset. -/
def group (offset : Nat) : Nat → Descent Regex
  | 0 => throw .outOfFuel
  | fuel + 1 => do
    if (← peek?).isNone then
      throw (.fault ⟨.unclosedGroup, offset⟩)
    else
      let r ← expression true fuel []
      match ← next? with
      | some ⟨.closeGroup, _⟩ => return r
      | _ => throw (.fault ⟨.unclosedGroup, offset⟩)

end

/-- Reads a whole pattern. -/
def pattern (fuel : Nat) : Descent Regex := do
  if (← peek?).isNone then
    return .empty
  else
    let r ← expression endOffset false fuel []
    match ← next? with
    | none => return r
    | some t => throw (.fault ⟨.unmatchedClose, t.offset⟩)

end Grammar

end Descent

namespace PartialRead

/-! ## Reading on -/

variable {endOffset : Nat} {p q r : PartialRead} {t : PlacedToken} {ts us vs : List PlacedToken}
  {e : ParseError}

/-- What reading from left to right comes to if it goes on with some tokens, which are all that
are left. -/
def readOn (endOffset : Nat) (p : PartialRead) (ts : List PlacedToken) : Except ParseError Regex :=
  ts.foldlM step p >>= (·.result endOffset)

theorem readOn_eq_error_of_step (h : p.step t = .error e) :
    readOn endOffset p (t :: ts) = .error e := by
  rw [readOn, List.foldlM_cons, h]
  rfl

/-- Steps lead from tokens that are left to fewer of them. -/
inductive Reads : PartialRead → List PlacedToken → PartialRead → List PlacedToken → Prop where
  | refl (p : PartialRead) (ts : List PlacedToken) : Reads p ts p ts
  | step {p q r : PartialRead} {t : PlacedToken} {ts us : List PlacedToken} :
      Step p t q → Reads q ts r us → Reads p (t :: ts) r us

namespace Reads

theorem trans (h : Reads p ts q us) (h' : Reads q us r vs) : Reads p ts r vs := by
  induction h with
  | refl => exact h'
  | step hstep _ ih => exact .step hstep (ih h')

theorem length_le (h : Reads p ts q us) : us.length ≤ ts.length := by
  induction h with
  | refl => exact Nat.le_refl _
  | step _ _ ih => exact Nat.le_succ_of_le ih

theorem readOn_eq (h : Reads p ts q us) : readOn endOffset p ts = readOn endOffset q us := by
  induction h with
  | refl => rfl
  | step hstep _ ih => rw [readOn, read_cons hstep, ← readOn, ih]

end Reads

end PartialRead

namespace Descent

open Grammar PartialRead

variable {endOffset fuel : Nat} {ts us : List PlacedToken} {groups : List OpenGroup} {α β : Type}

/-! ## What each function relies on -/

/-- Reading stops with the error that reading from left to right gives. -/
def Reports (outcome : Except ParseError Regex) (stop : Stop) : Prop :=
  ∃ e, stop = .fault e ∧ outcome = .error e

def tokens (ts : List PlacedToken) : List Token := ts.map (·.token)

/-- A computation reads some of the tokens that are left as reading from left to right does, or it
stops with the same error. -/
def Follows (endOffset : Nat) (m : Descent α) (p : PartialRead) (ts : List PlacedToken)
    (after : α → List PlacedToken → PartialRead → Prop) : Prop :=
  Ensures m ts (fun x us => ∃ q, Reads p ts q us ∧ after x us q)
    (Reports (readOn endOffset p ts))

namespace Follows

variable {m : Descent α} {f : α → Descent β} {x : α} {p q : PartialRead} {t : PlacedToken}
  {e : ParseError} {after after' : α → List PlacedToken → PartialRead → Prop}
  {final : β → List PlacedToken → PartialRead → Prop}

theorem done (h : after x ts p) : Follows endOffset (pure x) p ts after :=
  ensures_pure ⟨p, .refl p ts, h⟩

theorem fault (h : readOn endOffset p ts = .error e) :
    Follows endOffset (throw (.fault e) : Descent α) p ts after :=
  ⟨e, rfl, h⟩

theorem mono (hm : Follows endOffset m p ts after)
    (h : ∀ x us q, Reads p ts q us → after x us q → after' x us q) :
    Follows endOffset m p ts after' := by
  refine Ensures.mono hm ?_
  rintro x us ⟨q, hreads, hafter⟩
  exact ⟨q, hreads, h x us q hreads hafter⟩

/-- What is read first can be taken as read. -/
theorem of_reads (hreads : Reads p ts q us)
    (hm : Ensures m us (fun x vs => ∃ r, Reads q us r vs ∧ after x vs r)
      (Reports (readOn endOffset q us))) :
    Ensures m us (fun x vs => ∃ r, Reads p ts r vs ∧ after x vs r)
      (Reports (readOn endOffset p ts)) := by
  rw [hreads.readOn_eq]
  refine hm.mono ?_
  rintro x vs ⟨r, hrest, hafter⟩
  exact ⟨r, hreads.trans hrest, hafter⟩

theorem bind (hm : Follows endOffset m p ts after)
    (hf : ∀ x us q, Reads p ts q us → after x us q → Follows endOffset (f x) q us final) :
    Follows endOffset (m >>= f) p ts final := by
  refine Ensures.bind hm ?_
  rintro x us ⟨q, hreads, hafter⟩
  exact of_reads hreads (hf x us q hreads hafter)

theorem peek {f : Option Token → Descent β}
    (h : Follows endOffset (f (ts.head?.map (·.token))) p ts final) :
    Follows endOffset (peek? >>= f) p ts final := h

theorem position {f : Nat → Descent β}
    (h : Follows endOffset (f ((ts.head?.map (·.offset)).getD endOffset)) p ts final) :
    Follows endOffset (Descent.position endOffset >>= f) p ts final := h

section Next

variable {f : Option PlacedToken → Descent β}

theorem next_nil (h : Follows endOffset (f none) p [] final) :
    Follows endOffset (next? >>= f) p [] final := h

theorem next_step (hstep : Step p t q) (h : Follows endOffset (f (some t)) q ts final) :
    Follows endOffset (next? >>= f) p (t :: ts) final := by
  change Ensures (f (some t)) ts _ _
  exact of_reads (.step hstep (.refl q ts)) h

theorem next_fault (hstep : p.step t = .error e) (h : f (some t) = throw (.fault e)) :
    Follows endOffset (next? >>= f) p (t :: ts) final := by
  change Ensures (f (some t)) ts _ _
  rw [h]
  exact ⟨e, rfl, readOn_eq_error_of_step hstep⟩

end Next

end Follows

/-! ## Single steps -/

@[simp] theorem single_concat (rs : List Regex) : single .concat rs = pure (.sequence rs) := by
  match rs with
  | [] | [_] => rfl
  | _ :: _ :: _ => simp [single, Regex.sequence]

@[simp] theorem single_alternation (rs : List Regex) :
    single .alternation rs = pure (.choice rs) := by
  match rs with
  | [] | [_] => rfl
  | _ :: _ :: _ => simp [single, Regex.choice]

theorem reads_starred (b : Branches) (groups : List OpenGroup) (r : Regex)
    (ts : List PlacedToken) :
    Reads ⟨b.push r, groups⟩ ts ⟨b.push (starred r ts).1, groups⟩ (starred r ts).2 := by
  induction ts generalizing r with
  | nil => exact .refl _ _
  | cons t ts ih =>
    obtain ⟨token, offset⟩ := t
    rw [starred]
    split
    next hstar =>
      cases hstar
      exact .step (.star offset) (ih (.star r))
    next => exact .refl _ _

theorem endsItem_starred (r : Regex) (ts : List PlacedToken) :
    EndsItem (tokens (starred r ts).2) := by
  induction ts generalizing r with
  | nil => exact nofun
  | cons t ts ih =>
    rw [starred]
    split
    next => exact ih (.star r)
    next hstar => simpa [EndsItem, tokens] using hstar

theorem follows_stars (b : Branches) (groups : List OpenGroup) (r : Regex)
    (ts : List PlacedToken) :
    Follows endOffset (stars r) ⟨b.push r, groups⟩ ts fun r' us q =>
      q = ⟨b.push r', groups⟩ ∧ EndsItem (tokens us) :=
  ⟨_, reads_starred b groups r ts, rfl, endsItem_starred r ts⟩

/-- Where an alternative without items ends, reading from left to right stops as well. -/
theorem readOn_empty {alternatives : List Regex} (hends : EndsSequence (tokens ts))
    (hts : alternatives = [] → ts ≠ []) :
    readOn endOffset ⟨⟨alternatives.reverse, []⟩, groups⟩ ts =
      .error ⟨emptyFault (!groups.isEmpty) (ts.head?.map (·.token) = some .bar) alternatives,
        (ts.head?.map (·.offset)).getD endOffset⟩ := by
  match ts with
  | [] =>
    have hne : alternatives ≠ [] := fun h => hts h rfl
    simp [readOn, result, emptyFault, hne]
  | ⟨token, offset⟩ :: ts =>
    apply readOn_eq_error_of_step
    rcases hends token rfl with rfl | rfl
    · rfl
    · simp [PartialRead.step, PartialRead.emptyFault, emptyFault]

theorem finish_reverse (alternatives rs : List Regex) :
    (Branches.mk alternatives.reverse rs.reverse).finish =
      ⟨(alternatives ++ [Regex.sequence rs]).reverse, []⟩ := by
  simp [Branches.finish, Branches.current]

theorem close_reverse (alternatives rs : List Regex) :
    (Branches.mk alternatives.reverse rs.reverse).close =
      choice (alternatives ++ [Regex.sequence rs]) := by
  rw [Branches.close, finish_reverse, List.reverse_reverse]

/-! ## The functions together -/

/-- How far an expression is read. -/
structure ExpressionRead (groups : List OpenGroup) (r : Regex) (us : List PlacedToken)
    (q : PartialRead) : Prop where
  exists_branches : ∃ b, q = ⟨b, groups⟩ ∧ b.items ≠ [] ∧ b.close = r
  ends : EndsExpression (tokens us)

/-- How far a sequence is read, of which the given items have been read before. -/
structure SequenceRead (finished items : List Regex) (groups : List OpenGroup)
    (ts : List PlacedToken) (rs : List Regex) (us : List PlacedToken) (q : PartialRead) :
    Prop where
  eq_items : q = ⟨⟨finished, rs.reverse⟩, groups⟩
  ends : EndsSequence (tokens us)
  unread : rs = [] → items = [] ∧ us = ts

/-- How far an item is read. -/
structure ItemRead (b : Branches) (groups : List OpenGroup) (ts : List PlacedToken) (r : Regex)
    (us : List PlacedToken) (q : PartialRead) : Prop where
  eq_push : q = ⟨b.push r, groups⟩
  ends : EndsItem (tokens us)
  length_lt : us.length < ts.length

-- Of four calls in a row one takes a token, so the tokens that are left bound the fuel.
mutual

theorem follows_expression (fuel : Nat) (alternatives : List Regex) (groups : List OpenGroup)
    (ts : List PlacedToken) (hfuel : 4 * ts.length + 2 ≤ fuel)
    (hts : alternatives = [] → ts ≠ []) :
    Follows endOffset (expression endOffset (!groups.isEmpty) fuel alternatives)
      ⟨⟨alternatives.reverse, []⟩, groups⟩ ts (ExpressionRead groups) := by
  match fuel with
  | 0 => omega
  | fuel + 1 =>
    rw [expression]
    refine .position ?_
    refine (follows_sequence fuel alternatives.reverse [] groups ts (by omega) nofun).bind ?_
    rintro rs us q hreads ⟨rfl, hends, hunread⟩
    refine .peek ?_
    by_cases hrs : rs = []
    · obtain ⟨-, rfl⟩ := hunread hrs
      subst hrs
      exact .fault (readOn_empty hends hts)
    have hbranches : ∃ b, (⟨⟨alternatives.reverse, rs.reverse⟩, groups⟩ : PartialRead) =
        ⟨b, groups⟩ ∧ b.items ≠ [] ∧ b.close = choice (alternatives ++ [Regex.sequence rs]) :=
      ⟨_, rfl, mt List.reverse_eq_nil_iff.mp hrs, close_reverse alternatives rs⟩
    simp only [List.isEmpty_iff, hrs, if_false, single_concat, single_alternation, pure_bind]
    match us with
    | [] => exact .done ⟨hbranches, nofun⟩
    | ⟨token, offset⟩ :: us =>
      rcases hends token rfl with rfl | rfl
      · have hlt : us.length < ts.length := hreads.length_le
        refine .next_step (.bar offset (mt List.reverse_eq_nil_iff.mp hrs)) ?_
        rw [finish_reverse]
        exact follows_expression fuel _ groups us (by omega) (by simp)
      · exact .done ⟨hbranches, by simp [EndsExpression, tokens]⟩

theorem follows_sequence (fuel : Nat) (finished items : List Regex) (groups : List OpenGroup)
    (ts : List PlacedToken) (hfuel : 4 * ts.length + 1 ≤ fuel)
    (hstar : items ≠ [] → EndsItem (tokens ts)) :
    Follows endOffset (sequence endOffset fuel items) ⟨⟨finished, items.reverse⟩, groups⟩ ts
      (SequenceRead finished items groups ts) := by
  match fuel with
  | 0 => omega
  | fuel + 1 =>
    rw [sequence]
    refine .peek ?_
    by_cases hends : EndsSequence (tokens ts)
    · match ts with
      | [] => exact .done ⟨rfl, hends, fun h => ⟨h, rfl⟩⟩
      | ⟨token, offset⟩ :: ts =>
        rcases hends token rfl with rfl | rfl
        all_goals exact .done ⟨rfl, hends, fun h => ⟨h, rfl⟩⟩
    have hnext : Follows endOffset (do sequence endOffset fuel (items ++ [← item endOffset fuel]))
        ⟨⟨finished, items.reverse⟩, groups⟩ ts (SequenceRead finished items groups ts) := by
      refine (follows_item fuel ⟨finished, items.reverse⟩ groups ts (by omega) hends
        fun h => hstar (mt List.reverse_eq_nil_iff.mpr h)).bind ?_
      rintro r us q - ⟨rfl, hitem, hlt⟩
      have hrest := follows_sequence fuel finished (items ++ [r]) groups us (by omega)
        fun _ => hitem
      rw [List.reverse_concat] at hrest
      refine hrest.mono ?_
      rintro rs vs q - ⟨rfl, hends, hunread⟩
      exact ⟨rfl, hends, fun h => absurd (hunread h).1 (by simp)⟩
    match ts with
    | [] => exact absurd nofun hends
    | ⟨token, offset⟩ :: ts =>
      cases token with
      | character | openGroup | star => exact hnext
      | bar | closeGroup => exact absurd (by simp [EndsSequence, tokens]) hends

theorem follows_item (fuel : Nat) (b : Branches) (groups : List OpenGroup)
    (ts : List PlacedToken) (hfuel : 4 * ts.length ≤ fuel) (hbegins : ¬EndsSequence (tokens ts))
    (hstar : b.items ≠ [] → EndsItem (tokens ts)) :
    Follows endOffset (item endOffset fuel) ⟨b, groups⟩ ts (ItemRead b groups ts) := by
  match fuel, ts with
  | _, [] => exact absurd nofun hbegins
  | 0, _ :: _ => simp at hfuel
  | fuel + 1, ⟨token, offset⟩ :: ts =>
    rw [item]
    cases token with
    | character c =>
      refine .next_step (.character c offset) ?_
      refine (follows_stars b groups (.literal c) ts).mono ?_
      rintro r us q hreads ⟨rfl, hends⟩
      exact ⟨rfl, hends, Nat.lt_succ_of_le hreads.length_le⟩
    | openGroup =>
      have hfuel' : 4 * ts.length + 3 ≤ fuel := by
        rw [List.length_cons] at hfuel
        omega
      refine .next_step (.openGroup offset) ?_
      refine (follows_group fuel ⟨offset, b⟩ groups ts hfuel').bind ?_
      rintro r us q hgroup rfl
      refine (follows_stars b groups r us).mono ?_
      rintro r vs q hreads ⟨rfl, hends⟩
      exact ⟨rfl, hends, Nat.lt_succ_of_le (hreads.length_le.trans hgroup.length_le)⟩
    | star =>
      have hitems : b.items = [] := by
        by_contra hne
        exact hstar hne .star rfl rfl
      exact .next_fault (by simp [PartialRead.step, hitems]) rfl
    | bar | closeGroup => exact absurd (by simp [EndsSequence, tokens]) hbegins

theorem follows_group (fuel : Nat) (g : OpenGroup) (outer : List OpenGroup)
    (ts : List PlacedToken) (hfuel : 4 * ts.length + 3 ≤ fuel) :
    Follows endOffset (group endOffset g.offset fuel) ⟨.none, g :: outer⟩ ts fun r _ q =>
      q = ⟨g.before.push r, outer⟩ := by
  match fuel, ts with
  | 0, _ => omega
  | fuel + 1, [] =>
    rw [group]
    exact .peek (.fault rfl)
  | fuel + 1, t :: ts =>
    rw [group]
    refine .peek ?_
    have hne : t :: ts ≠ [] := List.cons_ne_nil t ts
    refine (follows_expression fuel [] (g :: outer) (t :: ts) (by omega) fun _ => hne).bind ?_
    rintro r us q - ⟨⟨b, rfl, hitems, rfl⟩, hends⟩
    match us with
    | [] => exact .next_nil (.fault (by simp [readOn, result, hitems]))
    | ⟨token, offset⟩ :: us =>
      obtain rfl := hends token rfl
      exact .next_step (.closeGroup offset hitems) (.done rfl)

end

theorem follows_pattern (hfuel : 4 * ts.length + 2 ≤ fuel) :
    Follows endOffset (pattern endOffset fuel) .start ts fun r us q =>
      readOn endOffset q us = .ok r := by
  rw [pattern]
  refine .peek ?_
  match ts with
  | [] => exact .done rfl
  | t :: ts =>
    have hne : t :: ts ≠ [] := List.cons_ne_nil t ts
    refine (follows_expression fuel [] [] (t :: ts) hfuel fun _ => hne).bind ?_
    rintro r us q - ⟨⟨b, rfl, hitems, rfl⟩, hends⟩
    match us with
    | [] => exact .next_nil (.done (by simp [readOn, result, hitems]))
    | ⟨token, offset⟩ :: us =>
      obtain rfl := hends token rfl
      exact .next_fault (by simp [PartialRead.step, hitems]) rfl

/-- Recursive descent comes to the same as reading from left to right. -/
theorem outcome_pattern (hfuel : 4 * ts.length + 2 ≤ fuel) :
    (runFrom (pattern endOffset fuel) ts).1 = (ofTokens endOffset ts).mapError .fault := by
  have hfollows : Follows endOffset (pattern endOffset fuel) .start ts _ := follows_pattern hfuel
  have hread : ofTokens endOffset ts = readOn endOffset .start ts := rfl
  rw [hread]
  generalize hrun : (runFrom (pattern endOffset fuel) ts).1 = outcome
  cases outcome with
  | ok r =>
    obtain ⟨us, q, hreads, hresult⟩ := hfollows.of_ok hrun
    rw [hreads.readOn_eq, hresult]
    rfl
  | error stop =>
    obtain ⟨e, rfl, herror⟩ := hfollows.of_error hrun
    rw [herror]
    rfl

-- Only the callers keep an item from beginning with an operator.
example : (runFrom (item 1 1) [⟨.bar, 0⟩]).1 = .error (.misstep .itemAtOperator) := rfl

end Descent

end FiniteState.Regex

namespace FiniteState.Pattern

open Regex Descent

variable {fuel : Nat} {text : String}

/-- Builds the automaton of a tree step by step. -/
def build (text : String) (regex : Regex) : Except Stop Pattern :=
  match regex.assemble with
  | some nfa => .ok ⟨text, regex, nfa⟩
  | none => .error (.misstep .refusedStep)

/-- Reads a pattern by recursive descent and builds the automaton of its tree. -/
def construct (fuel : Nat) (text : String) : Except Stop Pattern := do
  let tokens ← (Token.scan 0 text.toList).mapError .fault
  let regex ← (runFrom (pattern text.toList.length fuel) tokens).1
  build text regex

theorem construct_eq_bind (hfuel : 4 * text.toList.length + 2 ≤ fuel) :
    construct fuel text = (Regex.ofString text).mapError .fault >>= build text := by
  rw [construct, Regex.ofString, ofChars]
  cases hscan : Token.scan 0 text.toList with
  | error e => rfl
  | ok tokens =>
    have hlength : tokens.length ≤ text.toList.length :=
      (Token.scan_eq_ok_iff.mp hscan).length_le
    have hread : (runFrom (pattern text.toList.length fuel) tokens).1 =
        (ofTokens text.toList.length tokens).mapError .fault := outcome_pattern (by omega)
    change (runFrom (pattern text.toList.length fuel) tokens).1 >>= build text = _
    rw [hread]
    rfl

theorem construct_eq (hfuel : 4 * text.toList.length + 2 ≤ fuel) :
    construct fuel text = (ofString text).mapError .fault := by
  rw [construct_eq_bind hfuel, ofString]
  cases hregex : Regex.ofString text with
  | error e => rfl
  | ok r =>
    change build text r = .ok ⟨text, r, r.toAutomaton⟩
    rw [build, assemble_eq (proper_of_ofString hregex)]

/-- However malformed a pattern is, its construction ends with a pattern or with an error in it, the
same one that reading from left to right gives. No function that reads is called where it must not
be, no part is taken where there are none, and no step of the automaton is refused. -/
theorem construct_ends (fuel : Nat) (text : String) (hfuel : 4 * text.toList.length + 2 ≤ fuel) :
    (∃ p, construct fuel text = .ok p ∧ ofString text = .ok p) ∨
      ∃ e, construct fuel text = .error (.fault e) ∧ ofString text = .error e := by
  rw [construct_eq hfuel]
  cases ofString text with
  | ok p => exact .inl ⟨p, rfl, rfl⟩
  | error e => exact .inr ⟨e, rfl, rfl⟩

theorem construct_ends_nested :
    (∃ p, construct 38 "(a|b*)*c" = .ok p ∧ p.accepts "bbac" = true) ∧
      construct 38 "a(b(|c)*" = .error (.fault ⟨.emptyAlternative, 4⟩) := by
  have hgood : ofString "(a|b*)*c" = .ok ⟨"(a|b*)*c", _, _⟩ := rfl
  have hbad : ofString "a(b(|c)*" = .error ⟨.emptyAlternative, 4⟩ := rfl
  constructor
  · obtain ⟨p, hconstruct, hp⟩ | ⟨e, _, he⟩ := construct_ends 38 "(a|b*)*c" (by decide)
    · refine ⟨p, hconstruct, ?_⟩
      cases hgood.symm.trans hp
      decide
    · cases hgood.symm.trans he
  · obtain ⟨p, _, hp⟩ | ⟨e, hconstruct, he⟩ := construct_ends 38 "a(b(|c)*" (by decide)
    · cases hbad.symm.trans hp
    · cases hbad.symm.trans he
      exact hconstruct

end FiniteState.Pattern
