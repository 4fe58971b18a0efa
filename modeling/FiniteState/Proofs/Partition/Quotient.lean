import FiniteState.Partition.Quotient
import FiniteState.Proofs.Automaton.Numbered
import FiniteState.Proofs.Automaton.Walk
import FiniteState.Proofs.Partition.Classes

/-! # Shape of quotients

The states of a quotient are the numbers of the classes. A quotient is well-formed and
deterministic whatever the partition is.
-/

namespace FiniteState.Partition

variable {a : Automaton} {p : Partition} {b : Block} {c : Char} {i j : Nat}

theorem quotientStates_eq (a : Automaton) (p : Partition) :
    p.quotientStates a = numberedStates p.blocks
      (Naming.distinct (p.blocks.map fun b => Naming.joint (a.namesOf b.toList)))
      fun b => b.toList.any a.isAccepting := rfl

theorem ids_quotient (a : Automaton) (p : Partition) : (p.quotient a).ids = List.range p.size := by
  change (p.quotientStates a).map (·.id) = _
  rw [quotientStates_eq]
  exact ids_numberedStates (by simp)

theorem mem_quotient_iff : i ∈ p.quotient a ↔ i < p.size :=
  Automaton.mem_iff_lt_of_ids (ids_quotient a p)

/-- A class moves as its representative does. -/
theorem mem_edges_quotient_iff {label : Label} :
    ⟨i, label, j⟩ ∈ (p.quotient a).edges ↔ ∃ b c, label = .symbol c ∧ p.blocks[i]? = some b ∧
      c ∈ a.alphabet ∧ (a.successor? b.representative c >>= p.lastClass?) = some j := by
  simp only [quotient, OrderedSet.mem_ofList, quotientEdges, List.mem_flatMap, Prod.exists,
    List.mk_mem_zipIdx_iff_getElem?, List.mem_filterMap, Alphabet.mem_toList, quotientEdge?,
    Option.bind_eq_bind, Option.bind_eq_some_iff, Option.pure_def, Option.some.injEq,
    Edge.mk.injEq]
  constructor
  · intro h
    obtain ⟨b, _, hb, c, hc, t, ht, _, hj, rfl, rfl, rfl⟩ := h
    exact ⟨b, c, rfl, hb, hc, t, ht, hj⟩
  · intro h
    obtain ⟨b, c, rfl, hb, hc, t, ht, hj⟩ := h
    exact ⟨b, i, hb, c, hc, t, ht, j, hj, rfl, rfl, rfl⟩

theorem lt_size_of_quotientStart (hi : p.quotientStart a = some i) : i < p.size := by
  unfold quotientStart at hi
  split at hi
  next => cases hi
  next hne =>
    cases hlast : a.start >>= p.lastClass? with
    | none =>
      have hzero : 0 = i := by simpa [hlast] using hi
      rw [← hzero]
      exact List.length_pos_of_ne_nil (by simpa [isEmpty] using hne)
    | some n =>
      obtain ⟨q, _, hq⟩ := Option.bind_eq_some_iff.mp hlast
      have hni : n = i := by simpa [hlast] using hi
      exact hni ▸ lt_size_of_lastClass? hq

theorem wellFormed_quotient (a : Automaton) (p : Partition) : (p.quotient a).WellFormed where
  ids_ascending := Automaton.ids_ascending_of_ids (ids_quotient a p)
  lt_nextId i hi := mem_quotient_iff.mp hi
  names_nodup := by
    change ((p.quotientStates a).map (·.name)).Nodup
    rw [quotientStates_eq, names_numberedStates (by simp)]
    exact Naming.nodup_distinct _
  edges_fit e he := by
    obtain ⟨b, c, hlabel, hb, hc, hj⟩ := mem_edges_quotient_iff.mp he
    obtain ⟨t, _, hj⟩ := Option.bind_eq_some_iff.mp hj
    refine ⟨?_, mem_quotient_iff.mpr (List.getElem?_eq_some_iff.mp hb).1,
      mem_quotient_iff.mpr (lt_size_of_lastClass? hj)⟩
    rw [hlabel]
    exact hc
  start_mem i hi := mem_quotient_iff.mpr (lt_size_of_quotientStart hi)
  states_eq_nil h := by
    have hempty : p.isEmpty = true := by simpa [quotient, quotientStart] using h
    have hnil : p.blocks = [] := List.isEmpty_iff.mp hempty
    simp [quotient, quotientStates, hnil]

theorem deterministic_quotient (a : Automaton) (p : Partition) :
    (p.quotient a).Deterministic where
  symbol_label e he := by
    obtain ⟨_, c, hlabel, _⟩ := mem_edges_quotient_iff.mp he
    rw [hlabel]
    exact Label.noConfusion
  target_unique i label s t hs ht := by
    obtain ⟨b, c, rfl, hb, _, hs⟩ := mem_edges_quotient_iff.mp hs
    obtain ⟨b', c', hc, hb', _, ht⟩ := mem_edges_quotient_iff.mp ht
    cases hc
    rw [hb] at hb'
    cases hb'
    exact Option.some.inj (hs.symm.trans ht)

theorem successor?_quotient_eq_some_iff :
    (p.quotient a).successor? i c = some j ↔ ∃ b, p.blocks[i]? = some b ∧ c ∈ a.alphabet ∧
      (a.successor? b.representative c >>= p.lastClass?) = some j := by
  rw [(deterministic_quotient a p).successor?_eq_some_iff, mem_edges_quotient_iff]
  constructor
  · intro h
    obtain ⟨b, _, hc, h⟩ := h
    cases hc
    exact ⟨b, h⟩
  · rintro ⟨b, h⟩
    exact ⟨b, c, rfl, h⟩

/-- The quotient knows moves on symbols only, but a well-formed automaton has no others. -/
theorem successor?_quotient_of_block (ha : a.WellFormed) (hb : p.blocks[i]? = some b) :
    (p.quotient a).successor? i c = (a.successor? b.representative c >>= p.lastClass?) := by
  ext j
  simp only [successor?_quotient_eq_some_iff, hb, Option.some.injEq, exists_eq_left']
  refine and_iff_right_of_imp ?_
  intro hj
  obtain ⟨t, ht, _⟩ := Option.bind_eq_some_iff.mp hj
  exact (Automaton.mem_of_successor? ha ht).1

theorem states_quotient (a : Automaton) (p : Partition) :
    (p.quotient a).states = numberedStates p.blocks
      (Naming.distinct (p.blocks.map fun b => Naming.joint (a.namesOf b.toList)))
      (fun b => b.toList.any a.isAccepting) ++ [] := by
  rw [List.append_nil, ← quotientStates_eq]
  rfl

theorem isAccepting_quotient (hb : p.blocks[i]? = some b) :
    (p.quotient a).isAccepting i = b.toList.any a.isAccepting := by
  have haccepting :=
    (wellFormed_quotient a p).isAccepting_numbered (by simp) (states_quotient a p) hb
  exact haccepting

end FiniteState.Partition
