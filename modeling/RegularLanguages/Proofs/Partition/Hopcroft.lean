import RegularLanguages.Partition.Hopcroft
import RegularLanguages.Proofs.Partition.Basic

set_option autoImplicit false

/-! # Correctness of Hopcroft's refinement

The queue is a promise: two states of a block that go to different blocks on a class will be
separated, because one of the two blocks is queued with the class. A cut keeps the promise, for
whatever it makes different it queues under the number of the new block. Using a splitter
withdraws one promise and settles it at once: during its cuts the two states may also be apart in
that one of them is marked (`Invariant.pending`), and after the last cut no such pair is left
(`Cutting.touched`). When the queue is empty, nothing is promised and the blocks are a
congruence.

The queue does run empty: each block is queued once with each class, so the uses that are left,
the queue and the blocks that are still missing balance (`Balanced`). -/

namespace RegularLanguages

namespace Partition

variable {p : Partition} {n : Nat}

/-! ## Separating -/

theorem size_separate (p : Partition) (moved : List StateId) :
    (p.separate moved).size = p.size := by
  unfold separate size
  show (moved.foldl _ p.blockOf).size = p.blockOf.size
  generalize p.blockOf = blockOf
  induction moved generalizing blockOf with
  | nil => rfl
  | cons s moved ih => rw [List.foldl_cons, ih, Array.size_setIfInBounds]

/-- The moved states are in the new block, the others where they were. -/
theorem block_separate (p : Partition) {moved : List StateId} {s : StateId} (hs : s < p.size) :
    (p.separate moved).block s = if s ∈ moved then p.count else p.block s := by
  unfold separate size block at *
  show ((moved.foldl _ p.blockOf)[s]?).getD 0 = _
  generalize p.blockOf = blockOf at hs ⊢
  induction moved generalizing blockOf with
  | nil => rfl
  | cons u moved ih =>
    rw [List.foldl_cons, ih _ (by rwa [Array.size_setIfInBounds]), Array.getElem?_setIfInBounds]
    by_cases hsu : u = s
    · subst hsu
      simp [hs]
    · simp [hsu, Ne.symm hsu]

/-- What is moved is part of one block, neither nothing nor all of it. -/
structure Halves (p : Partition) (block : Nat) (moved : List StateId) : Prop where
  subset : ∀ s ∈ moved, s ∈ p.members block
  exists_moved : ∃ s, s ∈ moved
  exists_kept : ∃ s ∈ p.members block, s ∉ moved

variable {block : Nat} {moved : List StateId}

theorem Halves.partitions_separate (h : p.Halves block moved) (hp : p.Partitions n) :
    (p.separate moved).Partitions n := by
  have hblock : ∀ s < n, (p.separate moved).block s = if s ∈ moved then p.count else p.block s :=
    fun s hs => block_separate p (by rwa [hp.size_eq])
  refine ⟨(size_separate p moved).trans hp.size_eq, fun s hs => ?_, fun b hb => ?_⟩
  · have hlt := hp.block_lt s hs
    rw [hblock s hs]
    show _ < p.count + 1
    split <;> omega
  · -- The new block has the moved states, the old number the ones that stay.
    rcases Nat.lt_succ_iff_lt_or_eq.1 hb with hb | rfl
    · by_cases hbb : b = block
      · obtain ⟨s, hs, hmoved⟩ := h.exists_kept
        obtain ⟨hlt, hsb⟩ := mem_members.1 hs
        rw [hp.size_eq] at hlt
        refine ⟨s, hlt, ?_⟩
        rw [hblock s hlt, if_neg hmoved, hsb, hbb]
      · obtain ⟨s, hs, hsb⟩ := hp.exists_block_eq b hb
        refine ⟨s, hs, ?_⟩
        rw [hblock s hs, if_neg, hsb]
        intro hmoved
        exact hbb (hsb.symm.trans (mem_members.1 (h.subset s hmoved)).2)
    · obtain ⟨s, hs⟩ := h.exists_moved
      have hlt := (mem_members.1 (h.subset s hs)).1
      rw [hp.size_eq] at hlt
      exact ⟨s, hlt, (hblock s hlt).trans (if_pos hs)⟩

/-- States share a block after the separation if they shared one before and both or none of them
    was moved. -/
theorem Halves.joins_separate_iff (h : p.Halves block moved) (hp : p.Partitions n)
    {s u : StateId} : (p.separate moved).Joins s u ↔ p.Joins s u ∧ (s ∈ moved ↔ u ∈ moved) := by
  unfold Joins
  rw [size_separate, and_assoc, and_assoc]
  refine and_congr_right fun hs => and_congr_right fun hu => ?_
  have hslt := hp.block_lt s (by rwa [← hp.size_eq])
  have hult := hp.block_lt u (by rwa [← hp.size_eq])
  rw [block_separate p hs, block_separate p hu]
  by_cases hsm : s ∈ moved
  · have hsb := (mem_members.1 (h.subset s hsm)).2
    by_cases hum : u ∈ moved
    · have hub := (mem_members.1 (h.subset u hum)).2
      simp [hsm, hum, hsb, hub]
    · simp [hsm, hum, Nat.ne_of_gt hult]
  · by_cases hum : u ∈ moved
    · simp [hsm, hum, Nat.ne_of_lt hslt]
    · simp [hsm, hum]

/-! ## Listed blocks -/

section OfBlocks

variable {blocks : List (List StateId)}

theorem size_foldl_separate (p : Partition) (blocks : List (List StateId)) :
    (blocks.foldl separate p).size = p.size := by
  induction blocks generalizing p with
  | nil => rfl
  | cons b blocks ih => exact (ih _).trans (size_separate p b)

theorem count_foldl_separate (p : Partition) (blocks : List (List StateId)) :
    (blocks.foldl separate p).count = p.count + blocks.length := by
  induction blocks generalizing p with
  | nil => rfl
  | cons b blocks ih =>
    rw [List.foldl_cons, ih, List.length_cons]
    show p.count + 1 + blocks.length = _
    omega

/-- A state stays where it is if no list has it, and otherwise the list that has it says where it
    goes. -/
theorem block_foldl_separate (p : Partition) {s : StateId} (hs : s < p.size) :
    ((∀ b ∈ blocks, s ∉ b) → (blocks.foldl separate p).block s = p.block s) ∧
      ∀ i b, blocks.Pairwise List.Disjoint → blocks[i]? = some b → s ∈ b →
        (blocks.foldl separate p).block s = p.count + i := by
  induction blocks generalizing p with
  | nil => exact ⟨fun _ => rfl, fun i b _ hb => absurd hb (by simp)⟩
  | cons first blocks ih =>
    obtain ⟨hstays, hgoes⟩ := ih (p.separate first) (by rwa [size_separate])
    rw [List.foldl_cons]
    constructor
    · intro hnone
      rw [hstays fun b hb => hnone b (List.mem_cons_of_mem _ hb), block_separate p hs,
        if_neg (hnone first List.mem_cons_self)]
    · intro i b hdisjoint hb hsb
      obtain ⟨hfirst, hrest⟩ := List.pairwise_cons.1 hdisjoint
      cases i with
      | zero =>
        obtain rfl := Option.some.inj hb
        rw [hstays fun c hc hsc => hfirst c hc hsb hsc, block_separate p hs, if_pos hsb]
        rfl
      | succ i =>
        rw [hgoes i b hrest hb hsb]
        show p.count + 1 + i = _
        omega

/-- The lists are blocks of the states below `n`: each state is in one of them, and no list is
    empty. -/
structure Lists (n : Nat) (blocks : List (List StateId)) : Prop where
  mem_iff : ∀ s, s < n ↔ ∃ b ∈ blocks, s ∈ b
  ne_nil : ∀ b ∈ blocks, b ≠ []
  disjoint : blocks.Pairwise List.Disjoint

/-- The number of a block is its place in the list. -/
theorem Lists.block_ofBlocks (h : Lists n blocks) {i : Nat} {b : List StateId}
    (hb : blocks[i]? = some b) {s : StateId} (hs : s ∈ b) : (ofBlocks n blocks).block s = i := by
  have hlt : s < n := (h.mem_iff s).2 ⟨b, List.mem_of_getElem? hb, hs⟩
  unfold ofBlocks
  rw [(block_foldl_separate _ (by simpa [size] using hlt)).2 i b h.disjoint hb hs]
  exact Nat.zero_add i

theorem Lists.partitions_ofBlocks (h : Lists n blocks) : (ofBlocks n blocks).Partitions n := by
  have hcount : (ofBlocks n blocks).count = blocks.length :=
    (count_foldl_separate _ blocks).trans (Nat.zero_add _)
  refine ⟨(size_foldl_separate _ blocks).trans Array.size_replicate, fun s hs => ?_, fun i hi => ?_⟩
  · obtain ⟨b, hb, hsb⟩ := (h.mem_iff s).1 hs
    obtain ⟨i, hi⟩ := List.mem_iff_getElem?.1 hb
    rw [h.block_ofBlocks hi hsb, hcount]
    exact (List.getElem?_eq_some_iff.1 hi).1
  · rw [hcount] at hi
    have hget : blocks[i]? = some blocks[i] := List.getElem?_eq_getElem hi
    obtain ⟨s, hs⟩ := List.exists_mem_of_ne_nil _ (h.ne_nil _ (List.getElem_mem hi))
    exact ⟨s, (h.mem_iff s).2 ⟨_, List.getElem_mem hi, hs⟩, h.block_ofBlocks hget hs⟩

/-- States are together if they are in one list. -/
theorem Lists.joins_ofBlocks_iff (h : Lists n blocks) {s u : StateId} :
    (ofBlocks n blocks).Joins s u ↔ ∃ b ∈ blocks, s ∈ b ∧ u ∈ b := by
  rw [h.partitions_ofBlocks.joins_iff]
  constructor
  · rintro ⟨hs, hu, heq⟩
    obtain ⟨b, hb, hsb⟩ := (h.mem_iff s).1 hs
    obtain ⟨c, hc, huc⟩ := (h.mem_iff u).1 hu
    obtain ⟨i, hi⟩ := List.mem_iff_getElem?.1 hb
    obtain ⟨j, hj⟩ := List.mem_iff_getElem?.1 hc
    rw [h.block_ofBlocks hi hsb, h.block_ofBlocks hj huc] at heq
    rw [heq] at hi
    exact ⟨b, hb, hsb, Option.some.inj (hj.symm.trans hi) ▸ huc⟩
  · rintro ⟨b, hb, hs, hu⟩
    obtain ⟨i, hi⟩ := List.mem_iff_getElem?.1 hb
    refine ⟨(h.mem_iff s).2 ⟨b, hb, hs⟩, (h.mem_iff u).2 ⟨b, hb, hu⟩, ?_⟩
    rw [h.block_ofBlocks hi hs, h.block_ofBlocks hi hu]

end OfBlocks

end Partition

namespace Hopcroft

variable {t : ClassTable} {marked : List StateId} {r : Refinement} {block : Nat}

/-! ## One cut -/

theorem mem_splittersOf {b c k : Nat} : (c, k) ∈ splittersOf t b ↔ c = b ∧ k < t.width := by
  unfold splittersOf
  rw [List.mem_map]
  constructor
  · rintro ⟨column, hcolumn, heq⟩
    obtain ⟨rfl, rfl⟩ := Prod.mk.inj heq
    exact ⟨rfl, List.mem_range.1 hcolumn⟩
  · rintro ⟨rfl, hk⟩
    exact ⟨k, List.mem_range.2 hk, rfl⟩

/-- The two states are both marked or both not. -/
def AgreeOn (marked : List StateId) (s u : StateId) : Prop := s ∈ marked ↔ u ∈ marked

/-- Either half of a block tells the marked states from the others. -/
theorem halves_filter {p : Partition} {f : StateId → Bool}
    (h : ∃ s ∈ p.members block, f s = true) (h' : ∃ s ∈ p.members block, f s = false) :
    p.Halves block ((p.members block).filter f) where
  subset s hs := (List.mem_filter.1 hs).1
  exists_moved := by
    obtain ⟨s, hs, hfs⟩ := h
    exact ⟨s, List.mem_filter.2 ⟨hs, hfs⟩⟩
  exists_kept := by
    obtain ⟨s, hs, hfs⟩ := h'
    refine ⟨s, hs, fun hmem => ?_⟩
    rw [(List.mem_filter.1 hmem).2] at hfs
    cases hfs

/-- A cut finds nothing to do, or it gives one half of the block a new number and queues it with
    every class. -/
theorem cut_cases (t : ClassTable) (marked : List StateId) (r : Refinement) (block : Nat) :
    cut t marked r block = r ∧
        (∀ s ∈ r.partition.members block, ∀ u ∈ r.partition.members block, AgreeOn marked s u) ∨
      ∃ moved, r.partition.Halves block moved ∧
        (∀ s ∈ r.partition.members block, ∀ u ∈ r.partition.members block,
          (s ∈ moved ↔ u ∈ moved) ↔ AgreeOn marked s u) ∧
        cut t marked r block =
          { partition := r.partition.separate moved
            queue := r.queue ++ splittersOf t r.partition.count } := by
  have hinside : ∀ s ∈ r.partition.members block,
      s ∈ (r.partition.members block).filter (· ∈ marked) ↔ s ∈ marked := by
    intro s hs
    simp [List.mem_filter, hs]
  have houtside : ∀ s ∈ r.partition.members block,
      s ∈ (r.partition.members block).filter (fun s => !decide (s ∈ marked)) ↔ s ∉ marked := by
    intro s hs
    simp [List.mem_filter, hs]
  unfold cut
  rw [List.partition_eq_filter_filter]
  simp only [Function.comp_def, Bool.or_eq_true, List.isEmpty_iff]
  split
  · rename_i hempty
    refine Or.inl ⟨rfl, fun s hs u hu => ?_⟩
    rcases hempty with hempty | hempty
    · rw [hempty] at hinside
      exact iff_of_false (fun hsm => List.not_mem_nil ((hinside s hs).2 hsm))
        (fun hum => List.not_mem_nil ((hinside u hu).2 hum))
    · rw [hempty] at houtside
      exact iff_of_true (not_not.1 fun hsm => List.not_mem_nil ((houtside s hs).2 hsm))
        (not_not.1 fun hum => List.not_mem_nil ((houtside u hu).2 hum))
  · rename_i hboth
    obtain ⟨hin, hout⟩ := not_or.1 hboth
    obtain ⟨s, hs⟩ := List.exists_mem_of_ne_nil _ hin
    obtain ⟨u, hu⟩ := List.exists_mem_of_ne_nil _ hout
    obtain ⟨hs, hsm⟩ := List.mem_filter.1 hs
    obtain ⟨hu, hum⟩ := List.mem_filter.1 hu
    refine Or.inr ⟨_, ?_, ?_, rfl⟩
    · split
      · exact halves_filter ⟨s, hs, hsm⟩ ⟨u, hu, by simpa using hum⟩
      · exact halves_filter ⟨u, hu, hum⟩ ⟨s, hs, by simpa using hsm⟩
    · intro x hx y hy
      split
      · rw [hinside x hx, hinside y hy]
        exact Iff.rfl
      · rw [houtside x hx, houtside y hy]
        exact not_iff_not

/-! ## Promises -/

/-- One of the blocks to which the two states go is queued with the class. -/
def Queued (t : ClassTable) (r : Refinement) (s u : StateId) (k : Nat) : Prop :=
  ∃ b, (b, k) ∈ r.queue ∧
    (t.targetBlock? r.partition s k = some b ∨ t.targetBlock? r.partition u k = some b)

/-- The queue and the blocks that may still be made against the uses of splitters that are
    left. -/
def Balanced (t : ClassTable) (budget : Nat) (r : Refinement) : Prop :=
  r.queue.length + t.size * t.width = r.partition.count * t.width + budget

/-- What holds between two uses of splitters. -/
structure Invariant (t : ClassTable) (budget : Nat) (r : Refinement) : Prop where
  approximates : t.Approximates r.partition
  column_lt : ∀ b k, (b, k) ∈ r.queue → k < t.width
  pending : ∀ s u, r.partition.Joins s u → ∀ k < t.width,
    t.targetBlock? r.partition s k ≠ t.targetBlock? r.partition u k → Queued t r s u k
  balanced : Balanced t budget r

/-- What holds between two cuts of one splitter. -/
structure Cutting (t : ClassTable) (budget : Nat) (marked : List StateId) (column : Nat)
    (todo : List Nat) (r : Refinement) : Prop where
  approximates : t.Approximates r.partition
  column_lt : ∀ b k, (b, k) ∈ r.queue → k < t.width
  pending : ∀ s u, r.partition.Joins s u → ∀ k < t.width,
    t.targetBlock? r.partition s k ≠ t.targetBlock? r.partition u k →
      Queued t r s u k ∨ k = column ∧ ¬ AgreeOn marked s u
  touched : ∀ s u, r.partition.Joins s u → ¬ AgreeOn marked s u → r.partition.block s ∈ todo
  balanced : Balanced t budget r

/-! ## Cuts keep the promises -/

section Separate

variable {p : Partition} {moved : List StateId}

/-- After a separation a state goes where it went, or to the new block. -/
theorem targetBlock?_separate (ht : t.Coherent) (hp : p.Partitions t.size) (moved : List StateId)
    (s : StateId) (k : Nat) :
    t.targetBlock? (p.separate moved) s k = t.targetBlock? p s k ∨
      t.targetBlock? (p.separate moved) s k = some p.count := by
  unfold ClassTable.targetBlock?
  cases htarget : t.target? s k with
  | none => exact Or.inl rfl
  | some x =>
    have hx : x < p.size := by
      rw [hp.size_eq]
      exact ht.target_lt htarget
    rw [Option.map_some, Option.map_some, Partition.block_separate p hx]
    split
    · exact Or.inr rfl
    · exact Or.inl rfl

theorem queued_separate (ht : t.Coherent) (hp : p.Partitions t.size) {queue : List (Nat × Nat)}
    {s u : StateId} {k : Nat} (hk : k < t.width)
    (h : t.targetBlock? p s k ≠ t.targetBlock? p u k → Queued t ⟨p, queue⟩ s u k)
    (hne : t.targetBlock? (p.separate moved) s k ≠ t.targetBlock? (p.separate moved) u k) :
    Queued t ⟨p.separate moved, queue ++ splittersOf t p.count⟩ s u k := by
  -- Only a state that goes to the new block goes elsewhere than before, and that block is queued.
  have hnew : (p.count, k) ∈ queue ++ splittersOf t p.count :=
    List.mem_append_right _ (mem_splittersOf.2 ⟨rfl, hk⟩)
  rcases targetBlock?_separate ht hp moved s k with hs | hs
  · rcases targetBlock?_separate ht hp moved u k with hu | hu
    · rw [hs, hu] at hne
      obtain ⟨b, hb, hgo⟩ := h hne
      refine ⟨b, List.mem_append_left _ hb, ?_⟩
      rw [hs, hu]
      exact hgo
    · exact ⟨p.count, hnew, Or.inr hu⟩
  · exact ⟨p.count, hnew, Or.inl hs⟩

/-- A separation by a mark on which congruent states agree is not too fine. -/
theorem approximates_separate (h : t.Approximates p) (hhalves : p.Halves block moved)
    (hagree : ∀ s ∈ p.members block, ∀ u ∈ p.members block,
      (s ∈ moved ↔ u ∈ moved) ↔ AgreeOn marked s u)
    (hmarked : ∀ R, t.IsCongruence R → ∀ s u, R s u → AgreeOn marked s u) :
    t.Approximates (p.separate moved) where
  partitions := hhalves.partitions_separate h.partitions
  isAccepting_eq s u hsu :=
    h.isAccepting_eq s u ((hhalves.joins_separate_iff h.partitions).1 hsu).1
  unites R hR s u hsu := by
    obtain ⟨hs, hu⟩ := hR.lt_size s u hsu
    have hjoins : p.Joins s u := h.partitions.joins_iff.2 ⟨hs, hu, h.unites R hR s u hsu⟩
    have hmoved : s ∈ moved ↔ u ∈ moved := by
      by_cases hblock : p.block s = block
      · have hsm := Partition.mem_members.2 ⟨hjoins.1, hblock⟩
        have hum := Partition.mem_members.2 ⟨hjoins.2.1, hjoins.2.2 ▸ hblock⟩
        exact (hagree s hsm u hum).2 (hmarked R hR s u hsu)
      · -- Neither state is in the block that is cut.
        refine iff_of_false (fun hsm => ?_) (fun hum => ?_)
        · exact hblock (Partition.mem_members.1 (hhalves.subset s hsm)).2
        · exact hblock (hjoins.2.2.trans (Partition.mem_members.1 (hhalves.subset u hum)).2)
    exact ((hhalves.joins_separate_iff h.partitions).2 ⟨hjoins, hmoved⟩).2.2

end Separate

variable {budget column : Nat} {todo : List Nat}

/-- States that are still together after the block was separated, and are marked differently, are
    in another block. -/
theorem touched_separate {p : Partition} {moved : List StateId} (hp : p.Partitions t.size)
    (hhalves : p.Halves block moved)
    (hagree : ∀ s ∈ p.members block, ∀ u ∈ p.members block,
      (s ∈ moved ↔ u ∈ moved) ↔ AgreeOn marked s u)
    (htouched : ∀ s u, p.Joins s u → ¬ AgreeOn marked s u → p.block s ∈ block :: todo)
    (s u : StateId) (hsu : (p.separate moved).Joins s u) (hdiffer : ¬ AgreeOn marked s u) :
    (p.separate moved).block s ∈ todo := by
  obtain ⟨hold, hmoved⟩ := (hhalves.joins_separate_iff hp).1 hsu
  have hblock : p.block s ≠ block := by
    intro hblock
    have hs := Partition.mem_members.2 ⟨hold.1, hblock⟩
    have hu := Partition.mem_members.2 ⟨hold.2.1, hold.2.2 ▸ hblock⟩
    exact hdiffer ((hagree s hs u hu).1 hmoved)
  have hkept : s ∉ moved := fun hs => hblock (Partition.mem_members.1 (hhalves.subset s hs)).2
  rw [Partition.block_separate _ hold.1, if_neg hkept]
  exact (List.mem_cons.1 (htouched s u hold hdiffer)).resolve_left hblock

/-- A cut keeps the promises, and leaves no differently marked states in its block. -/
theorem Cutting.cut (ht : t.Coherent) (h : Cutting t budget marked column (block :: todo) r)
    (hmarked : ∀ R, t.IsCongruence R → ∀ s u, R s u → AgreeOn marked s u) :
    Cutting t budget marked column todo (cut t marked r block) := by
  have hp := h.approximates.partitions
  rcases cut_cases t marked r block with ⟨heq, hall⟩ | ⟨moved, hhalves, hagree, heq⟩
  · rw [heq]
    refine { h with touched := fun s u hsu hdiffer => ?_ }
    rcases List.mem_cons.1 (h.touched s u hsu hdiffer) with hblock | htodo
    · have hs := Partition.mem_members.2 ⟨hsu.1, hblock⟩
      have hu := Partition.mem_members.2 ⟨hsu.2.1, hsu.2.2 ▸ hblock⟩
      exact absurd (hall s hs u hu) hdiffer
    · exact htodo
  · rw [heq]
    constructor
    case approximates => exact approximates_separate h.approximates hhalves hagree hmarked
    case column_lt =>
      intro b k hbk
      rcases List.mem_append.1 hbk with hbk | hbk
      · exact h.column_lt b k hbk
      · exact (mem_splittersOf.1 hbk).2
    case pending =>
      intro s u hsu k hk hne
      by_cases hexempt : k = column ∧ ¬ AgreeOn marked s u
      · exact Or.inr hexempt
      · have hold := ((hhalves.joins_separate_iff hp).1 hsu).1
        refine Or.inl (queued_separate ht hp hk (fun hdiffer => ?_) hne)
        exact (h.pending s u hold k hk hdiffer).resolve_right hexempt
    case touched => exact touched_separate hp hhalves hagree h.touched
    case balanced =>
      have hbalanced := h.balanced
      unfold Balanced at hbalanced ⊢
      show (r.queue ++ _).length + _ = (r.partition.count + 1) * t.width + budget
      rw [List.length_append, splittersOf, List.length_map, List.length_range, Nat.add_mul,
        Nat.one_mul]
      omega

theorem Cutting.foldl_cut (ht : t.Coherent)
    (hmarked : ∀ R, t.IsCongruence R → ∀ s u, R s u → AgreeOn marked s u)
    (h : Cutting t budget marked column todo r) :
    Cutting t budget marked column [] (todo.foldl (Hopcroft.cut t marked) r) := by
  induction todo generalizing r with
  | nil => exact h
  | cons block todo ih => exact ih (h.cut ht hmarked)

/-! ## One splitter -/

/-- The states that are marked go into the block on the class. -/
theorem mem_marked (ht : t.Coherent) {p : Partition} (hp : p.Partitions t.size) {s : StateId} :
    s ∈ t.predecessors (p.members block) column ↔ t.targetBlock? p s column = some block := by
  rw [ht.mem_predecessors, ClassTable.targetBlock?, Option.map_eq_some_iff]
  simp only [Partition.mem_members]
  constructor
  · rintro ⟨u, ⟨_, hblock⟩, hu⟩
    exact ⟨u, hu, hblock⟩
  · rintro ⟨u, hu, hblock⟩
    exact ⟨u, ⟨hp.size_eq ▸ ht.target_lt hu, hblock⟩, hu⟩

theorem step_cons (t : ClassTable) (p : Partition) (block column : Nat)
    (rest : List (Nat × Nat)) : step t ⟨p, (block, column) :: rest⟩ =
      (novel [] ((t.predecessors (p.members block) column).map p.block)).foldl
        (cut t (t.predecessors (p.members block) column)) ⟨p, rest⟩ :=
  rfl

/-- Congruent states are both marked or both not. -/
theorem agreeOn_marked (ht : t.Coherent) {p : Partition} (h : t.Approximates p)
    (hk : column < t.width) (R : StateId → StateId → Prop) (hR : t.IsCongruence R) (s u : StateId)
    (hsu : R s u) : AgreeOn (t.predecessors (p.members block) column) s u := by
  unfold AgreeOn
  rw [mem_marked ht h.partitions, mem_marked ht h.partitions,
    hR.targetBlock?_eq (h.unites R hR) hsu hk]

/-- Before the first cut the promise of the splitter in use has turned into marks. -/
theorem Invariant.cutting (ht : t.Coherent) {p : Partition} {rest : List (Nat × Nat)}
    (h : Invariant t (budget + 1) ⟨p, (block, column) :: rest⟩) :
    Cutting t budget (t.predecessors (p.members block) column) column
      (novel [] ((t.predecessors (p.members block) column).map p.block)) ⟨p, rest⟩ := by
  constructor
  case approximates => exact h.approximates
  case column_lt => exact fun b k hbk => h.column_lt b k (List.mem_cons_of_mem _ hbk)
  case pending =>
    intro s u hsu k hk hdiffer
    obtain ⟨b, hb, hgo⟩ := h.pending s u hsu k hk hdiffer
    -- Any other promise is still queued.
    rcases List.mem_cons.1 hb with hb | hb
    · obtain ⟨rfl, rfl⟩ := Prod.mk.inj hb
      refine Or.inr ⟨rfl, fun hagree => hdiffer ?_⟩
      unfold AgreeOn at hagree
      simp only [mem_marked ht h.approximates.partitions] at hagree
      rcases hgo with hgo | hgo
      · exact hgo.trans (hagree.1 hgo).symm
      · exact (hagree.2 hgo).trans hgo.symm
    · exact Or.inl ⟨b, hb, hgo⟩
  case touched =>
    intro s u hsu hdiffer
    rw [mem_novel]
    refine ⟨?_, List.not_mem_nil⟩
    -- One of the two is marked, and both are in the same block.
    by_cases hs : s ∈ t.predecessors (p.members block) column
    · exact List.mem_map.2 ⟨s, hs, rfl⟩
    · by_cases hu : u ∈ t.predecessors (p.members block) column
      · exact List.mem_map.2 ⟨u, hu, hsu.2.2.symm⟩
      · exact absurd (iff_of_false hs hu) hdiffer
  case balanced =>
    have hbalanced := h.balanced
    unfold Balanced at hbalanced ⊢
    simp only [List.length_cons] at hbalanced ⊢
    omega

/-- After the last cut no marks are left to settle. -/
theorem Cutting.invariant (h : Cutting t budget marked column [] r) : Invariant t budget r where
  approximates := h.approximates
  column_lt := h.column_lt
  pending s u hsu k hk hdiffer := by
    refine (h.pending s u hsu k hk hdiffer).resolve_right fun hapart => ?_
    exact absurd (h.touched s u hsu hapart.2) List.not_mem_nil
  balanced := h.balanced

/-- Using a splitter settles what it promised. -/
theorem Invariant.step (ht : t.Coherent) (h : Invariant t (budget + 1) r) (hne : r.queue ≠ []) :
    Invariant t budget (step t r) := by
  obtain ⟨p, queue⟩ := r
  cases queue with
  | nil => exact absurd rfl hne
  | cons splitter rest =>
    obtain ⟨block, column⟩ := splitter
    have hk : column < t.width := h.column_lt block column List.mem_cons_self
    rw [step_cons]
    exact ((h.cutting ht).foldl_cut ht (agreeOn_marked ht h.approximates hk)).invariant

/-! ## The whole run -/

theorem Invariant.isCoarsest (ht : t.Coherent) (h : Invariant t budget r) (hempty : r.queue = []) :
    t.IsCoarsest r.partition := by
  refine h.approximates.isCoarsest ht fun s u hsu k hk => ?_
  by_contra hdiffer
  obtain ⟨b, hb, _⟩ := h.pending s u hsu k hk hdiffer
  rw [hempty] at hb
  exact absurd hb List.not_mem_nil

theorem Invariant.isCoarsest_run (ht : t.Coherent) (h : Invariant t budget r) :
    t.IsCoarsest (run t budget r).partition := by
  induction budget generalizing r with
  | zero =>
    -- There are no more blocks than states, so the balance leaves nothing in the queue.
    have hcount := Nat.mul_le_mul_right t.width h.approximates.partitions.count_le
    have hbalanced := h.balanced
    unfold Balanced at hbalanced
    have hempty : r.queue = [] := List.eq_nil_of_length_eq_zero (by omega)
    exact h.isCoarsest ht hempty
  | succ budget ih =>
    unfold run
    split
    · rename_i hempty
      exact h.isCoarsest ht hempty
    · rename_i hqueue
      exact ih (h.step ht (by rw [hqueue]; exact List.cons_ne_nil _ _))

theorem mem_firstBlocks {b : List StateId} : b ∈ firstBlocks t ↔
    b ≠ [] ∧ ∃ accepting, b = t.states.filter fun s => t.isAccepting s = accepting := by
  unfold firstBlocks
  rw [List.mem_filter, List.mem_map, and_comm, Bool.not_eq_true', ← Bool.not_eq_true,
    List.isEmpty_iff]
  refine and_congr_right fun _ => ⟨?_, ?_⟩
  · rintro ⟨accepting, _, rfl⟩
    exact ⟨accepting, rfl⟩
  · rintro ⟨accepting, rfl⟩
    exact ⟨accepting, by cases accepting <;> decide, rfl⟩

theorem lists_firstBlocks (t : ClassTable) : Partition.Lists t.size (firstBlocks t) where
  mem_iff s := by
    constructor
    · intro hs
      have hmem : s ∈ t.states.filter fun u => t.isAccepting u = t.isAccepting s := by
        simpa [ClassTable.states] using hs
      exact ⟨_, mem_firstBlocks.2 ⟨List.ne_nil_of_mem hmem, _, rfl⟩, hmem⟩
    · rintro ⟨b, hb, hs⟩
      obtain ⟨_, accepting, rfl⟩ := mem_firstBlocks.1 hb
      exact List.mem_range.1 (List.mem_filter.1 hs).1
  ne_nil b hb := (mem_firstBlocks.1 hb).1
  disjoint := by
    refine List.Pairwise.sublist List.filter_sublist (List.pairwise_map.2 ?_)
    refine List.Pairwise.imp ?_ (show [true, false].Nodup by decide)
    intro a b hab s hs hs'
    have hsa : t.isAccepting s = a := by simpa using (List.mem_filter.1 hs).2
    have hsb : t.isAccepting s = b := by simpa using (List.mem_filter.1 hs').2
    exact hab (hsa.symm.trans hsb)

theorem approximates_start (t : ClassTable) : t.Approximates (start t).partition where
  partitions := (lists_firstBlocks t).partitions_ofBlocks
  isAccepting_eq s u h := by
    obtain ⟨b, hb, hs, hu⟩ := (lists_firstBlocks t).joins_ofBlocks_iff.1 h
    obtain ⟨_, accepting, rfl⟩ := mem_firstBlocks.1 hb
    have hsa : t.isAccepting s = accepting := by simpa using (List.mem_filter.1 hs).2
    have hua : t.isAccepting u = accepting := by simpa using (List.mem_filter.1 hu).2
    exact hsa.trans hua.symm
  unites R hR s u hsu := by
    obtain ⟨hs, hu⟩ := hR.lt_size s u hsu
    have hmem : ∀ x < t.size, t.isAccepting x = t.isAccepting s →
        x ∈ t.states.filter fun y => t.isAccepting y = t.isAccepting s := by
      intro x hx heq
      simpa [ClassTable.states, heq] using hx
    have hsb := hmem s hs rfl
    have hub := hmem u hu (hR.isAccepting_eq s u hsu).symm
    refine ((lists_firstBlocks t).joins_ofBlocks_iff.2 ⟨_, ?_, hsb, hub⟩).2.2
    exact mem_firstBlocks.2 ⟨List.ne_nil_of_mem hsb, _, rfl⟩

theorem mem_queue_start {b k : Nat} :
    (b, k) ∈ (start t).queue ↔ b < (start t).partition.count ∧ k < t.width := by
  show (b, k) ∈ (List.range _).flatMap (splittersOf t) ↔ _
  rw [List.mem_flatMap]
  simp only [mem_splittersOf, List.mem_range]
  exact ⟨fun ⟨_, hb, rfl, hk⟩ => ⟨hb, hk⟩, fun ⟨hb, hk⟩ => ⟨b, hb, rfl, hk⟩⟩

theorem invariant_start (ht : t.Coherent) : Invariant t (t.size * t.width) (start t) := by
  have happrox := approximates_start t
  constructor
  case approximates => exact happrox
  case column_lt => exact fun b k hbk => (mem_queue_start.1 hbk).2
  case pending =>
    intro s u _ k hk hdiffer
    have hblock : ∀ x b, t.targetBlock? (start t).partition x k = some b →
        (b, k) ∈ (start t).queue := by
      intro x b hxb
      obtain ⟨y, hy, rfl⟩ := Option.map_eq_some_iff.1 hxb
      exact mem_queue_start.2 ⟨happrox.partitions.block_lt y (ht.target_lt hy), hk⟩
    cases hs : t.targetBlock? (start t).partition s k with
    | some b => exact ⟨b, hblock s b hs, Or.inl hs⟩
    | none =>
      cases hu : t.targetBlock? (start t).partition u k with
      | some b => exact ⟨b, hblock u b hu, Or.inr hu⟩
      | none => exact absurd (hs.trans hu.symm) hdiffer
  case balanced =>
    have hlength : (start t).queue.length = (start t).partition.count * t.width := by
      simp [start, splittersOf, List.length_flatMap]
    unfold Balanced
    rw [hlength]

/-- Hopcroft's refinement finds the coarsest congruence. -/
theorem isCoarsest_refine (ht : t.Coherent) : t.IsCoarsest (refine t) :=
  (invariant_start ht).isCoarsest_run ht

end Hopcroft

end RegularLanguages
