import Mathlib.Logic.Function.Iterate
import RegularLanguages.Partition.Moore
import RegularLanguages.Proofs.Partition.Basic

set_option autoImplicit false

/-! # Correctness of Moore's refinement

A round refines the partition and separates only states that no congruence relates. If it finds
no new block it has separated nothing at all, so the partition it was given was already a
congruence. Every other round adds a block, and a partition has no more blocks than there are
states, which bounds the rounds (`exists_refine_eq`). -/

namespace RegularLanguages.Moore

variable {t : ClassTable} {p : Partition}

theorem signature_eq_iff {s u : StateId} : signature t p s = signature t p u ↔
    p.block s = p.block u ∧ ∀ k < t.width, t.targetBlock? p s k = t.targetBlock? p u k := by
  unfold signature
  rw [List.cons.injEq, Option.some.injEq, List.map_inj_left]
  simp only [List.mem_range, ClassTable.targetBlock?]

theorem partitions_round (t : ClassTable) (p : Partition) : (round t p).Partitions t.size :=
  Partition.partitions_ofKey t.size (signature t p)

/-- A round puts two states together when they shared a block and went to the same blocks. -/
theorem joins_round_iff {s u : StateId} : (round t p).Joins s u ↔
    s < t.size ∧ u < t.size ∧ p.block s = p.block u ∧
      ∀ k < t.width, t.targetBlock? p s k = t.targetBlock? p u k := by
  rw [(partitions_round t p).joins_iff]
  refine and_congr_right fun hs => and_congr_right fun hu => ?_
  exact (Partition.block_ofKey_eq_iff (signature t p) hs hu).trans signature_eq_iff

/-- A round refines. -/
theorem unites_round (t : ClassTable) (p : Partition) : p.Unites (round t p).Joins :=
  fun _ _ h => (joins_round_iff.1 h).2.2.1

theorem approximates_round (h : t.Approximates p) : t.Approximates (round t p) where
  partitions := partitions_round t p
  isAccepting_eq s u hsu := by
    obtain ⟨hs, hu, hblock, _⟩ := joins_round_iff.1 hsu
    exact h.isAccepting_eq s u (h.partitions.joins_iff.2 ⟨hs, hu, hblock⟩)
  unites R hR s u hsu := by
    obtain ⟨hs, hu⟩ := hR.lt_size s u hsu
    have hjoins : (round t p).Joins s u := joins_round_iff.2
      ⟨hs, hu, h.unites R hR s u hsu, fun k hk => hR.targetBlock?_eq (h.unites R hR) hsu hk⟩
    exact hjoins.2.2

/-- A round that finds no new block ends at the coarsest congruence. -/
theorem isCoarsest_round (ht : t.Coherent) (h : t.Approximates p)
    (hcount : (round t p).count = p.count) : t.IsCoarsest (round t p) := by
  refine (approximates_round h).isCoarsest ht fun s u hsu k hk => ?_
  have hrefined : (round t p).Unites p.Joins :=
    h.partitions.unites_of_count_eq (partitions_round t p) (unites_round t p) hcount
  have htarget : Option.Rel p.Joins (t.target? s k) (t.target? u k) :=
    (ClassTable.rel_joins_iff ht h.partitions).2 ((joins_round_iff.1 hsu).2.2.2 k hk)
  -- Targets that shared a block before the round share one after it.
  exact ClassTable.targetBlock?_eq_of_rel hrefined htarget

theorem approximates_iterate_round (h : t.Approximates p) (n : Nat) :
    t.Approximates ((round t)^[n] p) := by
  induction n with
  | zero => exact h
  | succ n ih =>
    rw [Function.iterate_succ_apply']
    exact approximates_round ih

/-! ## Counting the rounds -/

/-- Rounds add blocks until one adds none, and they cannot add more blocks than there are states. -/
theorem exists_rounds {budget : Nat} (hp : p.Partitions t.size)
    (hbudget : t.size < budget + p.count) :
    ∃ last < budget, (∀ n < last, ((round t)^[n] p).count < ((round t)^[n + 1] p).count) ∧
      ((round t)^[last + 1] p).count = ((round t)^[last] p).count := by
  induction budget generalizing p with
  | zero =>
    rw [Nat.zero_add] at hbudget
    exact absurd hp.count_le (Nat.not_le.2 hbudget)
  | succ budget ih =>
    have hq := partitions_round t p
    have hle : p.count ≤ (round t p).count := hp.count_le_count hq (unites_round t p)
    by_cases hcount : (round t p).count = p.count
    · exact ⟨0, Nat.succ_pos budget, nofun, hcount⟩
    · obtain ⟨last, hlast, hgrow, heq⟩ := ih hq (by omega)
      refine ⟨last + 1, Nat.succ_lt_succ hlast, fun n hn => ?_, heq⟩
      cases n with
      | zero => exact Nat.lt_of_le_of_ne hle (Ne.symm hcount)
      | succ n => exact hgrow n (Nat.lt_of_succ_lt_succ hn)

/-- The refinement stops with the first round that adds no block, if the budget lasts. -/
theorem settle?_eq_ite {last : Nat}
    (hgrow : ∀ n < last, ((round t)^[n] p).count < ((round t)^[n + 1] p).count)
    (hlast : ((round t)^[last + 1] p).count = ((round t)^[last] p).count) (budget : Nat) :
    settle? t budget p = if last < budget then some ((round t)^[last + 1] p) else none := by
  induction budget generalizing p last with
  | zero => rfl
  | succ budget ih =>
    unfold settle?
    cases last with
    | zero =>
      rw [if_pos (Nat.succ_pos budget)]
      exact if_pos hlast
    | succ last =>
      have hne : (round t p).count ≠ p.count := Nat.ne_of_gt (hgrow 0 (Nat.succ_pos last))
      -- The later rounds are the rounds from the next partition on.
      have hgrow' : ∀ n < last,
          ((round t)^[n] (round t p)).count < ((round t)^[n + 1] (round t p)).count :=
        fun n hn => hgrow (n + 1) (Nat.succ_lt_succ hn)
      have hrest : settle? t budget (round t p) =
          if last < budget then some ((round t)^[last + 1] (round t p)) else none :=
        ih hgrow' hlast
      rw [if_neg hne, hrest]
      simp only [Nat.add_lt_add_iff_right, Function.iterate_succ_apply]

/-- The refinement returns what the round leaves that adds no block: as many rounds as there are
    states are enough, but one is always made. -/
theorem exists_refine_eq (t : ClassTable) : ∃ last < max 1 t.size,
    (∀ n < last, ((round t)^[n] t.byAcceptance).count <
      ((round t)^[n + 1] t.byAcceptance).count) ∧
    ((round t)^[last + 1] t.byAcceptance).count = ((round t)^[last] t.byAcceptance).count ∧
    (∀ budget, settle? t budget t.byAcceptance =
      if last < budget then some ((round t)^[last + 1] t.byAcceptance) else none) ∧
    refine t = (round t)^[last + 1] t.byAcceptance := by
  have hp := t.approximates_byAcceptance.partitions
  have hbudget : t.size < max 1 t.size + t.byAcceptance.count := by
    by_cases hsize : t.size = 0
    · omega
    · have := hp.block_lt 0 (Nat.pos_of_ne_zero hsize)
      omega
  obtain ⟨last, hlast, hgrow, heq⟩ := exists_rounds hp hbudget
  have hsettle := settle?_eq_ite hgrow heq
  refine ⟨last, hlast, hgrow, heq, hsettle, ?_⟩
  rw [refine, hsettle, if_pos hlast]
  rfl

/-- Moore's refinement finds the coarsest congruence. -/
theorem isCoarsest_refine (ht : t.Coherent) : t.IsCoarsest (refine t) := by
  obtain ⟨last, _, _, heq, _, hrefine⟩ := exists_refine_eq t
  rw [Function.iterate_succ_apply'] at heq hrefine
  rw [hrefine]
  exact isCoarsest_round ht (approximates_iterate_round t.approximates_byAcceptance last) heq

end RegularLanguages.Moore
