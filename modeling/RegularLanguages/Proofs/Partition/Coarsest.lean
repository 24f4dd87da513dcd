import RegularLanguages.Proofs.Partition.Hopcroft
import RegularLanguages.Proofs.Partition.Moore
import RegularLanguages.Proofs.Partition.Quotient

set_option autoImplicit false

/-! # The coarsest partition

The two refinements cut blocks in different orders, number them differently and stop for different
reasons: one when its queue is empty, the other when a round has found no new block. What they
return is nevertheless the same partition, because there is only one coarsest congruence.

Here a congruence is given by any numbering of the states (`Respects`), which need not come from a
refinement and may leave numbers out. Two states share a block of the coarsest partition exactly if
some such numbering gives them the same number (`IsCoarsest.block_eq_iff`), and this does not
mention the blocks any more. -/

namespace RegularLanguages.ClassTable

variable {t : ClassTable} {p q : Partition}

/-! ## There is only one -/

/-- The numbers of the blocks are such a numbering. -/
theorem IsCoarsest.respects (h : t.IsCoarsest p) (ht : t.Coherent) : t.Respects p.block := by
  intro s hs u hu hblock
  have hjoins : p.Joins s u := h.partitions.joins_iff.2 ⟨hs, hu, hblock⟩
  refine ⟨h.congruence.isAccepting_eq s u hjoins, fun k hk => ?_⟩
  exact (rel_joins_iff ht h.partitions).1 (h.congruence.target s u hjoins k hk)

/-- Two states share a block if any numbering puts them together. -/
theorem IsCoarsest.block_eq_iff (h : t.IsCoarsest p) (ht : t.Coherent) {s u : StateId}
    (hs : s < t.size) (hu : u < t.size) :
    p.block s = p.block u ↔ ∃ f, t.Respects f ∧ f s = f u := by
  -- One direction needs a congruence and the other the coarsest one.
  refine ⟨fun hblock => ⟨p.block, h.respects ht, hblock⟩, fun hnumber => ?_⟩
  obtain ⟨f, hf, hsu⟩ := hnumber
  exact h.unites _ (hf.isCongruence ht) s u ⟨hs, hu, hsu⟩

/-- Coarsest partitions have equally many blocks, since each refines the other. -/
theorem IsCoarsest.count_eq (hp : t.IsCoarsest p) (hq : t.IsCoarsest q) : p.count = q.count :=
  Nat.le_antisymm
    (hp.partitions.count_le_count hq.partitions (hp.unites _ hq.congruence))
    (hq.partitions.count_le_count hp.partitions (hq.unites _ hp.congruence))

/-- On the table of any deterministic automaton both refinements return the coarsest partition:
    they use the numbers of their blocks without a gap, respect acceptance and moves, join the same
    states, and join two states whenever any numbering that respects acceptance and moves does. -/
theorem refine_coarsest {g : Automaton} (h : ofAutomaton? g = .ok t) :
    let hopcroft := Hopcroft.refine t
    let moore := Moore.refine t
    (hopcroft.Partitions t.size ∧ t.Respects hopcroft.block) ∧
      (moore.Partitions t.size ∧ t.Respects moore.block) ∧
      hopcroft.count = moore.count ∧
      ∀ s < t.size, ∀ u < t.size,
        (hopcroft.block s = hopcroft.block u ↔ moore.block s = moore.block u) ∧
          (moore.block s = moore.block u ↔ ∃ f, t.Respects f ∧ f s = f u) := by
  obtain ⟨hg, hd, rfl⟩ := ofAutomaton?_eq_ok_iff.1 h
  have ht := (tabulates_tableOf hd).coherent hg
  have hhopcroft := Hopcroft.isCoarsest_refine ht
  have hmoore := Moore.isCoarsest_refine ht
  refine ⟨⟨hhopcroft.partitions, hhopcroft.respects ht⟩, ⟨hmoore.partitions, hmoore.respects ht⟩,
    hhopcroft.count_eq hmoore, fun s hs u hu => ⟨?_, hmoore.block_eq_iff ht hs hu⟩⟩
  exact (hhopcroft.block_eq_iff ht hs hu).trans (hmoore.block_eq_iff ht hs hu).symm

/-- Two accepting states that lead to each other, one that leads nowhere, and one that nothing
    leads to. -/
def twins : Automaton :=
  .ofList [{ edges := [⟨.single 'a', 1⟩, ⟨.single 'b', 2⟩, ⟨.single 'c', 3⟩] },
    { accepting := true, edges := [⟨.single 'a', 2⟩] },
    { accepting := true, edges := [⟨.single 'a', 1⟩] },
    { accepting := true }, {}]

theorem refine_coarsest_twins :
    let t := tableOf twins
    let hopcroft := Hopcroft.refine t
    let moore := Moore.refine t
    ofAutomaton? twins = .ok t ∧
      (hopcroft.Partitions t.size ∧ t.Respects hopcroft.block) ∧
      (moore.Partitions t.size ∧ t.Respects moore.block) ∧
      hopcroft.count = moore.count ∧
      ∀ s < t.size, ∀ u < t.size,
        (hopcroft.block s = hopcroft.block u ↔ moore.block s = moore.block u) ∧
          (moore.block s = moore.block u ↔ ∃ f, t.Respects f ∧ f s = f u) := by
  have h : ofAutomaton? twins = .ok (tableOf twins) := ofAutomaton?_eq_ok (by decide) (by decide)
  exact ⟨h, refine_coarsest h⟩

end RegularLanguages.ClassTable
