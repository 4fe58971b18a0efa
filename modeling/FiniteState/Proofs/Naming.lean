import FiniteState.Naming
import FiniteState.Proofs.Listing
import Mathlib.Data.List.Range

/-! # Unused names

The bounded search for marks always ends with an unused name, since one of more marked names
than there are names in use is free. Distinct names are therefore distinct.
-/

namespace FiniteState.Naming

theorem marked_injective (base : String) : Function.Injective (marked base) := by
  intro m n h
  have hmarks := congrArg (fun name : String => name.toList.length) h
  simpa [marked] using hmarks

theorem unused_not_mem (taken : List String) (base : String) : unused taken base ∉ taken := by
  unfold unused marksNeeded
  cases hfind : (List.range taken.length).find? (fun marks => marked base marks ∉ taken) with
  | some marks => simpa using List.find?_some hfind
  | none =>
    rw [List.find?_eq_none] at hfind
    intro hlast
    -- All of the first `taken.length + 1` marked names would be taken.
    have hsubset : (List.range (taken.length + 1)).map (marked base) ⊆ taken := by
      intro name hname
      obtain ⟨marks, hmarks, rfl⟩ := List.mem_map.mp hname
      rcases Nat.lt_succ_iff_lt_or_eq.mp (List.mem_range.mp hmarks) with hlt | rfl
      · simpa using hfind marks (List.mem_range.mpr hlt)
      · exact hlast
    have hlength := (List.nodup_range.map (marked_injective base)).length_le_of_subset hsubset
    simp only [List.length_map, List.length_range] at hlength
    omega

/-- Fewer marks than needed do not make a name unused. -/
theorem marked_mem_of_lt {taken : List String} {base : String} {marks : Nat}
    (h : marks < marksNeeded taken base) : marked base marks ∈ taken := by
  unfold marksNeeded at h
  cases hfind : (List.range taken.length).find? (fun marks => marked base marks ∉ taken) with
  | some needed =>
    rw [hfind, Option.getD_some] at h
    obtain ⟨_, _, hbefore⟩ := List.find?_range_eq_some.mp hfind
    simpa using hbefore marks h
  | none =>
    rw [hfind, Option.getD_none] at h
    simpa using List.find?_eq_none.mp hfind marks (List.mem_range.mpr h)

/-- What makes a name unused depends only on which names are taken. -/
theorem unused_congr {first second : List String} (h : ∀ n, n ∈ first ↔ n ∈ second)
    (base : String) : unused first base = unused second base := by
  refine congrArg (marked base) ?_
  rcases Nat.lt_trichotomy (marksNeeded first base) (marksNeeded second base) with hlt | heq | hlt
  · exact absurd ((h _).mpr (marked_mem_of_lt hlt)) (unused_not_mem first base)
  · exact heq
  · exact absurd ((h _).mp (marked_mem_of_lt hlt)) (unused_not_mem second base)

/-- A name that nothing has needs no marks. -/
theorem unused_eq_self {taken : List String} {base : String} (h : base ∉ taken) :
    unused taken base = base := by
  have hbare : marked base 0 = base := String.append_empty
  have hzero : marksNeeded taken base = 0 := by
    by_contra hpos
    have htaken := marked_mem_of_lt (Nat.pos_of_ne_zero hpos)
    exact h (hbare ▸ htaken)
  rw [unused, hzero, hbare]

theorem not_mem_of_mem_distinctFrom {taken wanted : List String} {name : String}
    (h : name ∈ distinctFrom taken wanted) : name ∉ taken := by
  induction wanted generalizing taken with
  | nil => simp [distinctFrom] at h
  | cons base rest ih =>
    rcases List.mem_cons.mp h with rfl | h
    · exact unused_not_mem taken base
    · exact fun htaken => ih h (List.mem_cons_of_mem _ htaken)

theorem nodup_distinctFrom (taken wanted : List String) : (distinctFrom taken wanted).Nodup := by
  induction wanted generalizing taken with
  | nil => exact .nil
  | cons base rest ih =>
    refine List.nodup_cons.mpr ⟨?_, ih _⟩
    intro hmem
    exact not_mem_of_mem_distinctFrom hmem List.mem_cons_self

theorem nodup_distinct (wanted : List String) : (distinct wanted).Nodup :=
  nodup_distinctFrom [] wanted

/-- The names given before are taken for those that follow. -/
theorem distinctFrom_append (taken first second : List String) :
    distinctFrom taken (first ++ second) = distinctFrom taken first ++
      distinctFrom ((distinctFrom taken first).reverse ++ taken) second := by
  induction first generalizing taken with
  | nil => rfl
  | cons base first ih => simp [distinctFrom, ih]

theorem distinct_append_cons (first rest : List String) (base : String) :
    ∃ later, distinct (first ++ base :: rest) =
      distinct first ++ unused (distinct first) base :: later := by
  have htaken : unused ((distinct first).reverse ++ []) base = unused (distinct first) base :=
    unused_congr (by simp) base
  rw [distinct, distinctFrom_append, distinctFrom, ← distinct, htaken]
  exact ⟨_, rfl⟩

theorem distinct_concat (wanted : List String) (base : String) :
    distinct (wanted ++ [base]) = distinct wanted ++ [unused (distinct wanted) base] := by
  obtain ⟨later, hlater⟩ := distinct_append_cons wanted [] base
  have hlength := congrArg List.length hlater
  simp only [length_distinct, List.length_append, List.length_cons, List.length_nil] at hlength
  have hnil : later = [] := List.length_eq_zero_iff.mp (by omega)
  rw [hlater, hnil]

/-- Each name gets the marks that it needs after those before it. -/
theorem getElem?_distinct {wanted : List String} {base : String} {i : Nat}
    (h : wanted[i]? = some base) :
    (distinct wanted)[i]? = some (unused ((distinct wanted).take i) base) := by
  obtain ⟨hi, rfl⟩ := List.getElem?_eq_some_iff.mp h
  have hsplit : wanted = wanted.take i ++ wanted[i] :: wanted.drop (i + 1) := by simp
  obtain ⟨later, hlater⟩ := distinct_append_cons (wanted.take i) (wanted.drop (i + 1)) wanted[i]
  rw [← hsplit] at hlater
  have hlength : (distinct (wanted.take i)).length = i := by simp [hi.le]
  rw [hlater, List.take_left' hlength, List.getElem?_append_right hlength.le, hlength]
  simp

theorem distinctFrom_eq_self {taken wanted : List String} (hwanted : wanted.Nodup)
    (h : ∀ name ∈ wanted, name ∉ taken) : distinctFrom taken wanted = wanted := by
  induction wanted generalizing taken with
  | nil => rfl
  | cons base rest ih =>
    obtain ⟨hbase, hrest⟩ := List.nodup_cons.mp hwanted
    have hunused : unused taken base = base := unused_eq_self (h base List.mem_cons_self)
    simp only [distinctFrom, hunused]
    congr 1
    apply ih hrest
    intro name hname
    rw [List.mem_cons, not_or]
    exact ⟨fun heq => hbase (heq ▸ hname), h name (List.mem_cons_of_mem _ hname)⟩

/-- Names that differ already get no marks. -/
theorem distinct_eq_self {wanted : List String} (h : wanted.Nodup) : distinct wanted = wanted :=
  distinctFrom_eq_self h fun _ _ => List.not_mem_nil

/-! ## Joint names -/

/-- The joint name does not depend on the order of the names or on repetitions. -/
theorem joint_congr {first second : List String} (h : ∀ n, n ∈ first ↔ n ∈ second) :
    joint first = joint second := by
  have : OrderedSet.ofList first = OrderedSet.ofList second :=
    OrderedSet.ext fun n => by simpa using h n
  rw [joint, this, joint]

@[simp] theorem joint_singleton (name : String) : joint [name] = name :=
  String.intercalate_singleton

end FiniteState.Naming
