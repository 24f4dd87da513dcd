import Mathlib.Data.Fintype.EquivFin
import RegularLanguages.Partition.Basic
import RegularLanguages.Proofs.ClassTable
import RegularLanguages.Proofs.Exploration

set_option autoImplicit false

/-! # Partitions and congruences

What a refinement has to find is the coarsest congruence of a table: states that share a block
agree on acceptance and go to states that share a block, and states that some congruence relates
are never separated (`IsCoarsest`).

`Partitions` says that the numbers of the blocks are used without a gap. What can be said of any
assignment of the states to blocks, with blocks that may be empty, asks for `Assigns` only. -/

namespace RegularLanguages

namespace Partition

variable {p q : Partition} {n : Nat}

/-- Every state below `n` is in a block, and no block is empty. -/
structure Partitions (p : Partition) (n : Nat) : Prop where
  size_eq : p.size = n
  block_lt : ∀ s < n, p.block s < p.count
  exists_block_eq : ∀ b < p.count, ∃ s < n, p.block s = b

/-- Every state below `n` is in a block; a block may be empty. -/
structure Assigns (p : Partition) (n : Nat) : Prop where
  size_eq : p.size = n
  block_lt : ∀ s < n, p.block s < p.count

theorem Partitions.assigns (h : p.Partitions n) : p.Assigns n := ⟨h.size_eq, h.block_lt⟩

/-- Two states are in the same block. -/
def Joins (p : Partition) (s u : StateId) : Prop :=
  s < p.size ∧ u < p.size ∧ p.block s = p.block u

/-- Related states are in the same block. -/
def Unites (p : Partition) (R : StateId → StateId → Prop) : Prop :=
  ∀ s u, R s u → p.block s = p.block u

theorem Assigns.joins_iff (h : p.Assigns n) {s u : StateId} :
    p.Joins s u ↔ s < n ∧ u < n ∧ p.block s = p.block u := by
  rw [Joins, h.size_eq]

theorem Partitions.joins_iff (h : p.Partitions n) {s u : StateId} :
    p.Joins s u ↔ s < n ∧ u < n ∧ p.block s = p.block u :=
  h.assigns.joins_iff

theorem mem_members {block : Nat} {s : StateId} :
    s ∈ p.members block ↔ s < p.size ∧ p.block s = block := by
  simp [members]

/-! ## Counting blocks -/

theorem Partitions.count_le (h : p.Partitions n) : p.count ≤ n := by
  let block : Fin n → Fin p.count := fun s => ⟨p.block s, h.block_lt s s.isLt⟩
  have hsurjective : Function.Surjective block := by
    intro b
    obtain ⟨s, hs, hb⟩ := h.exists_block_eq b b.isLt
    exact ⟨⟨s, hs⟩, Fin.ext hb⟩
  simpa using Fintype.card_le_of_surjective block hsurjective

/-- Each block of a refinement lies in one block. -/
theorem Partitions.exists_blockMap (hp : p.Partitions n) (hq : q.Partitions n)
    (h : p.Unites q.Joins) : ∃ f : Fin q.count → Fin p.count, Function.Surjective f ∧
      ∀ s (hs : s < n), f ⟨q.block s, hq.block_lt s hs⟩ = ⟨p.block s, hp.block_lt s hs⟩ := by
  -- One state is chosen for each block; the block of `p` does not depend on the choice.
  choose state hlt hstate using fun b : Fin q.count => hq.exists_block_eq b b.isLt
  have hblock : ∀ s (hs : s < n), p.block (state ⟨q.block s, hq.block_lt s hs⟩) = p.block s := by
    intro s hs
    exact h _ _ (hq.joins_iff.2 ⟨hlt _, hs, hstate _⟩)
  refine ⟨fun b => ⟨p.block (state b), hp.block_lt _ (hlt b)⟩, ?_,
    fun s hs => Fin.ext (hblock s hs)⟩
  intro b
  obtain ⟨s, hs, hb⟩ := hp.exists_block_eq b b.isLt
  exact ⟨⟨q.block s, hq.block_lt s hs⟩, Fin.ext ((hblock s hs).trans hb)⟩

/-- A refinement has at least as many blocks. -/
theorem Partitions.count_le_count (hp : p.Partitions n) (hq : q.Partitions n)
    (h : p.Unites q.Joins) : p.count ≤ q.count := by
  obtain ⟨f, hsurjective, _⟩ := hp.exists_blockMap hq h
  simpa using Fintype.card_le_of_surjective f hsurjective

/-- A refinement with as many blocks separates nothing. -/
theorem Partitions.unites_of_count_eq (hp : p.Partitions n) (hq : q.Partitions n)
    (h : p.Unites q.Joins) (hcount : q.count = p.count) : q.Unites p.Joins := by
  obtain ⟨f, hsurjective, hf⟩ := hp.exists_blockMap hq h
  have hinjective : Function.Injective f :=
    ((Fintype.bijective_iff_surjective_and_card f).2 ⟨hsurjective, by simpa using hcount⟩).1
  intro s u hjoins
  obtain ⟨hs, hu, hsu⟩ := hp.joins_iff.1 hjoins
  have heq : f ⟨q.block s, hq.block_lt s hs⟩ = f ⟨q.block u, hq.block_lt u hu⟩ := by
    rw [hf s hs, hf u hu]
    exact Fin.ext hsu
  exact Fin.mk.inj (hinjective heq)

/-! ## Partitions by a key -/

section OfKey

variable {κ : Type} [Ord κ] [Std.TransOrd κ] [Std.LawfulEqOrd κ]

theorem size_ofKey (n : Nat) (key : StateId → κ) : (ofKey n key).size = n := by
  simp [ofKey, size]

/-- The block of a state is the number of its key. -/
theorem rank?_ofKey [DecidableEq κ] (key : StateId → κ) {s : StateId} (hs : s < n) :
    (Numbering.ofList ((List.range n).map key)).rank? (key s) = some ((ofKey n key).block s) := by
  have hmem : key s ∈ Numbering.ofList ((List.range n).map key) :=
    Numbering.mem_ofList.2 (List.mem_map.2 ⟨s, List.mem_range.2 hs, rfl⟩)
  obtain ⟨i, hi⟩ := Numbering.mem_iff_exists_rank?.1 hmem
  have hblock : (ofKey n key).block s = i := by
    simp [ofKey, block, hs, hi]
  rw [hi, hblock]

theorem block_ofKey_eq_iff (key : StateId → κ) {s u : StateId} (hs : s < n) (hu : u < n) :
    (ofKey n key).block s = (ofKey n key).block u ↔ key s = key u := by
  classical
  have hs' := rank?_ofKey key hs
  have hu' := rank?_ofKey key hu
  constructor
  · intro h
    rw [h] at hs'
    exact Numbering.rank?_inj hs' hu'
  · intro h
    rw [h, hu'] at hs'
    exact (Option.some.inj hs').symm

theorem partitions_ofKey (n : Nat) (key : StateId → κ) : (ofKey n key).Partitions n := by
  classical
  refine ⟨size_ofKey n key, fun s hs => Numbering.rank?_lt_length (rank?_ofKey key hs), ?_⟩
  intro b hb
  -- Each number belongs to a key, and each key was taken from a state.
  have hget : (Numbering.ofList ((List.range n).map key)).toList[b]? = some _ :=
    List.getElem?_eq_getElem hb
  have hrank := Numbering.rank?_eq_some_iff.2 hget
  obtain ⟨s, hs, hkey⟩ := List.mem_map.1 (Numbering.mem_ofList.1 (Numbering.mem_of_rank? hrank))
  have hlt := List.mem_range.1 hs
  rw [← hkey, rank?_ofKey key hlt] at hrank
  exact ⟨s, hlt, Option.some.inj hrank⟩

end OfKey

end Partition

namespace ClassTable

variable {t : ClassTable} {p : Partition}

/-! ## Congruences -/

/-- Every move leads to a state of the table, and both sides of the table are in step. -/
structure Coherent (t : ClassTable) : Prop extends t.InStep where
  target_lt : ∀ {s k u}, t.target? s k = some u → u < t.size

/-- Related states agree on acceptance and go to related states. -/
structure IsCongruence (t : ClassTable) (R : StateId → StateId → Prop) : Prop where
  lt_size : ∀ s u, R s u → s < t.size ∧ u < t.size
  isAccepting_eq : ∀ s u, R s u → t.isAccepting s = t.isAccepting u
  target : ∀ s u, R s u → ∀ k < t.width, Option.Rel R (t.target? s k) (t.target? u k)

/-- The block to which a state goes on a class. -/
def targetBlock? (t : ClassTable) (p : Partition) (s : StateId) (k : Nat) : Option Nat :=
  (t.target? s k).map p.block

theorem rel_joins_iff (ht : t.Coherent) (hp : p.Partitions t.size) {s u : StateId}
    {k : Nat} : Option.Rel p.Joins (t.target? s k) (t.target? u k) ↔
      t.targetBlock? p s k = t.targetBlock? p u k := by
  unfold targetBlock?
  cases htarget : t.target? s k with
  | none =>
    cases t.target? u k with
    | none => exact ⟨fun _ => rfl, fun _ => Option.Rel.none⟩
    | some y => exact ⟨nofun, nofun⟩
  | some x =>
    cases htarget' : t.target? u k with
    | none => exact ⟨nofun, nofun⟩
    | some y =>
      rw [Option.map_some, Option.map_some, Option.some.injEq]
      constructor
      · rintro (hxy | _)
        exact hxy.2.2
      · intro hxy
        exact Option.Rel.some (hp.joins_iff.2 ⟨ht.target_lt htarget, ht.target_lt htarget', hxy⟩)

/-- Related targets are in the same block of a partition that unites them. -/
theorem targetBlock?_eq_of_rel {R : StateId → StateId → Prop} (hp : p.Unites R)
    {s u : StateId} {k : Nat} (h : Option.Rel R (t.target? s k) (t.target? u k)) :
    t.targetBlock? p s k = t.targetBlock? p u k := by
  unfold targetBlock?
  generalize t.target? s k = x, t.target? u k = y at h
  cases h with
  | none => rfl
  | some hxy => exact congrArg some (hp _ _ hxy)

/-- Congruent states go to the same block of a partition that unites them. -/
theorem IsCongruence.targetBlock?_eq {R : StateId → StateId → Prop} (h : t.IsCongruence R)
    (hp : p.Unites R) {s u : StateId} (hsu : R s u) {k : Nat} (hk : k < t.width) :
    t.targetBlock? p s k = t.targetBlock? p u k :=
  targetBlock?_eq_of_rel hp (h.target s u hsu k hk)

/-! ## The coarsest congruence -/

/-- The blocks are a congruence, and every congruence stays within the blocks. -/
structure IsCoarsest (t : ClassTable) (p : Partition) : Prop where
  partitions : p.Partitions t.size
  congruence : t.IsCongruence p.Joins
  unites : ∀ R, t.IsCongruence R → p.Unites R

/-- The partition knows acceptance and has separated nothing without need. -/
structure Approximates (t : ClassTable) (p : Partition) : Prop where
  partitions : p.Partitions t.size
  isAccepting_eq : ∀ s u, p.Joins s u → t.isAccepting s = t.isAccepting u
  unites : ∀ R, t.IsCongruence R → p.Unites R

/-- An approximation is done when the states of a block go to the same blocks. -/
theorem Approximates.isCoarsest (h : t.Approximates p) (ht : t.Coherent)
    (hstable : ∀ s u, p.Joins s u → ∀ k < t.width, t.targetBlock? p s k = t.targetBlock? p u k) :
    t.IsCoarsest p where
  partitions := h.partitions
  congruence :=
    { lt_size := fun s u hsu => by
        obtain ⟨hs, hu, _⟩ := h.partitions.joins_iff.1 hsu
        exact ⟨hs, hu⟩
      isAccepting_eq := h.isAccepting_eq
      target := fun s u hsu k hk => (rel_joins_iff ht h.partitions).2 (hstable s u hsu k hk) }
  unites := h.unites

theorem approximates_byAcceptance (t : ClassTable) : t.Approximates t.byAcceptance where
  partitions := Partition.partitions_ofKey t.size t.isAccepting
  isAccepting_eq s u h := by
    obtain ⟨hs, hu, hsu⟩ := (Partition.partitions_ofKey t.size t.isAccepting).joins_iff.1 h
    exact (Partition.block_ofKey_eq_iff t.isAccepting hs hu).1 hsu
  unites R hR s u hsu := by
    obtain ⟨hs, hu⟩ := hR.lt_size s u hsu
    exact (Partition.block_ofKey_eq_iff t.isAccepting hs hu).2 (hR.isAccepting_eq s u hsu)

end ClassTable

end RegularLanguages
