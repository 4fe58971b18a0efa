/-! # Computations on a state that may fail

Such a computation leaves a state also when it fails. The rules below run it step by step, and say
what a sequence of steps ensures if each of them does, what it leaves if it fails, and when two
sequences come to the same.
-/

namespace FiniteState

variable {ε σ α β : Type}

/-- What a computation comes to from a state, and the state that it leaves. -/
def runFrom (m : ExceptT ε (StateM σ) α) (s : σ) : Except ε α × σ := StateT.run (ExceptT.run m) s

variable {m : ExceptT ε (StateM σ) α} {f : α → ExceptT ε (StateM σ) β} {s t : σ} {x : α} {e : ε}

@[simp] theorem runFrom_pure : runFrom (pure x : ExceptT ε (StateM σ) α) s = (.ok x, s) := rfl

@[simp] theorem runFrom_throw : runFrom (throw e : ExceptT ε (StateM σ) α) s = (.error e, s) := rfl

@[simp] theorem runFrom_get : runFrom (get : ExceptT ε (StateM σ) σ) s = (.ok s, s) := rfl

@[simp] theorem runFrom_set : runFrom (set t : ExceptT ε (StateM σ) PUnit) s = (.ok ⟨⟩, t) := rfl

@[simp] theorem runFrom_modify (g : σ → σ) :
    runFrom (modify g : ExceptT ε (StateM σ) PUnit) s = (.ok ⟨⟩, g s) := rfl

@[simp] theorem runFrom_bind : runFrom (m >>= f) s =
    match runFrom m s with
    | (.ok x, t) => runFrom (f x) t
    | (.error e, t) => (.error e, t) := by
  change (match runFrom m s with | (y, t) => StateT.run (ExceptT.bindCont f y) t) = _
  rcases runFrom m s with ⟨_ | _, _⟩ <;> rfl

@[simp] theorem runFrom_map (g : α → β) :
    runFrom (g <$> m) s = ((runFrom m s).1.map g, (runFrom m s).2) := by
  rw [map_eq_pure_bind, runFrom_bind]
  rcases runFrom m s with ⟨_ | _, _⟩ <;> rfl

/-- Two computations, one after the other, succeed exactly if both do. -/
theorem runFrom_bind_eq_ok_iff {y : β} {u : σ} : runFrom (m >>= f) s = (.ok y, u) ↔
    ∃ x t, runFrom m s = (.ok x, t) ∧ runFrom (f x) t = (.ok y, u) := by
  rw [runFrom_bind]
  rcases runFrom m s with ⟨_ | x, t⟩
  · simp
  · constructor
    · intro h
      exact ⟨x, t, rfl, h⟩
    · rintro ⟨_, _, hm, h⟩
      cases hm
      exact h

theorem runFrom_pure_eq_ok_iff {y : α} {u : σ} :
    runFrom (pure x : ExceptT ε (StateM σ) α) s = (.ok y, u) ↔ x = y ∧ s = u := by
  simp

/-! ## What a computation ensures -/

/-- From a state, a computation ends in a good way or fails in a bad one that is allowed for. -/
def Ensures (m : ExceptT ε (StateM σ) α) (s : σ) (good : α → σ → Prop) (bad : ε → Prop) : Prop :=
  match runFrom m s with
  | (.ok x, t) => good x t
  | (.error e, _) => bad e

variable {good : α → σ → Prop} {good' : β → σ → Prop} {bad : ε → Prop}

theorem ensures_pure (h : good x s) : Ensures (pure x) s good bad := h

theorem ensures_get {good : σ → σ → Prop} (h : good s s) : Ensures get s good bad := h

theorem Ensures.bind (hm : Ensures m s good bad)
    (hf : ∀ x t, good x t → Ensures (f x) t good' bad) : Ensures (m >>= f) s good' bad := by
  unfold Ensures at hm ⊢
  rw [runFrom_bind]
  split at hm
  next x t hrun => exact hf x t hm
  next => exact hm

theorem Ensures.mono {better : α → σ → Prop} (hm : Ensures m s better bad)
    (h : ∀ x t, better x t → good x t) : Ensures m s good bad := by
  unfold Ensures at hm ⊢
  split at hm
  next x t hrun => exact h x t hm
  next => exact hm

/-- A computation that succeeds does so in a good way. -/
theorem Ensures.of_ok (hm : Ensures m s good bad) (h : (runFrom m s).1 = .ok x) :
    ∃ t, good x t := by
  unfold Ensures at hm
  split at hm
  next y t hrun =>
    rw [hrun] at h
    cases h
    exact ⟨t, hm⟩
  next e t hrun =>
    rw [hrun] at h
    cases h

/-- A computation that fails does so in a way that is allowed for. -/
theorem Ensures.of_error (hm : Ensures m s good bad) (h : (runFrom m s).1 = .error e) : bad e := by
  unfold Ensures at hm
  split at hm
  next x t hrun =>
    rw [hrun] at h
    cases h
  next e' t hrun =>
    rw [hrun] at h
    cases h
    exact hm

/-! ## What a computation leaves -/

/-- From a state, a computation ends in a good way, or fails in a bad one that is allowed for, where
the state that it leaves counts as well. -/
def Leaves (m : ExceptT ε (StateM σ) α) (s : σ) (good : α → σ → Prop) (bad : ε → σ → Prop) : Prop :=
  match runFrom m s with
  | (.ok x, t) => good x t
  | (.error e, t) => bad e t

variable {left : ε → σ → Prop}

theorem leaves_pure (h : good x s) : Leaves (pure x) s good left := h

theorem Leaves.bind (hm : Leaves m s good left)
    (hf : ∀ x t, good x t → Leaves (f x) t good' left) : Leaves (m >>= f) s good' left := by
  unfold Leaves at hm ⊢
  rw [runFrom_bind]
  split at hm
  next x t hrun => exact hf x t hm
  next => exact hm

/-! ## Two computations side by side -/

/-- From two states, two computations end in ways that are alike, or fail with the same error. -/
def Parallel (m m' : ExceptT ε (StateM σ) α) (s s' : σ) (alike : α → α → σ → σ → Prop) : Prop :=
  match runFrom m s, runFrom m' s' with
  | (.ok x, t), (.ok x', t') => alike x x' t t'
  | (.error e, _), (.error e', _) => e = e'
  | _, _ => False

variable {m' : ExceptT ε (StateM σ) α} {f' : α → ExceptT ε (StateM σ) β} {s' : σ} {x' : α}
  {alike : α → α → σ → σ → Prop} {alike' : β → β → σ → σ → Prop}

theorem parallel_pure (h : alike x x' s s') :
    Parallel (pure x : ExceptT ε (StateM σ) α) (pure x') s s' alike := h

theorem Parallel.bind (hm : Parallel m m' s s' alike)
    (hf : ∀ x x' t t', alike x x' t t' → Parallel (f x) (f' x') t t' alike') :
    Parallel (m >>= f) (m' >>= f') s s' alike' := by
  unfold Parallel at hm
  split at hm
  next x t x' t' hrun hrun' =>
    have hrest := hf x x' t t' hm
    unfold Parallel at hrest ⊢
    rw [runFrom_bind, runFrom_bind, hrun, hrun']
    exact hrest
  next e t e' t' hrun hrun' =>
    unfold Parallel
    rw [runFrom_bind, runFrom_bind, hrun, hrun']
    exact hm
  next => exact hm.elim

theorem Parallel.mono {closer : α → α → σ → σ → Prop} (hm : Parallel m m' s s' closer)
    (h : ∀ x x' t t', closer x x' t t' → alike x x' t t') : Parallel m m' s s' alike := by
  unfold Parallel at hm ⊢
  split at hm
  next x t x' t' hrun hrun' => exact h x x' t t' hm
  next => exact hm
  next => exact hm.elim

/-- Computations that end alike only with the same result come to the same. -/
theorem Parallel.outcome_eq (hm : Parallel m m' s s' alike)
    (h : ∀ x x' t t', alike x x' t t' → x = x') : (runFrom m s).1 = (runFrom m' s').1 := by
  unfold Parallel at hm
  split at hm
  next x t x' t' hrun hrun' =>
    rw [hrun, hrun']
    exact congrArg Except.ok (h x x' t t' hm)
  next e t e' t' hrun hrun' =>
    rw [hrun, hrun']
    exact congrArg Except.error hm
  next => exact hm.elim

end FiniteState
