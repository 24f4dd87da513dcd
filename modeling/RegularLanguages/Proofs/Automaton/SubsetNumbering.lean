import RegularLanguages.Proofs.Automaton.Canonical
import RegularLanguages.Proofs.Automaton.Subset

set_option autoImplicit false

/-! # The numbers of the subsets

The subset construction numbers a set when some piece of the character space first leads to it,
before the pieces are merged to edges. A merged edge starts where the first of its pieces starts,
so a search along the merged edges meets the sets in the same order, and the result is canonical
as it stands (`isCanonical_determinizeFrom`).

Made deterministic once more, such an automaton is cut at other boundaries, but each piece leads
to a set with one member, and the sets are found in the order of their members: the construction
gives the automaton back (`IsCanonical.determinize_eq`). -/

namespace RegularLanguages

/-- The member of a set that has only one. -/
def StateSet.member (s : StateSet) : StateId := s.toList.headD 0

@[simp] theorem StateSet.member_singleton (p : StateId) : (singleton p).member = p := rfl

namespace Automaton

variable {g : Automaton} {start s : StateSet} {p q : StateId} {c : Char}

/-! ## The order of the search -/

theorem inOrder_moves (g : Automaton) (s : StateSet) :
    CharRange.InOrder ((g.moves s).map Prod.fst) := by
  have hpieces := CharRange.pairwise_intervals_boundaries (g.labelsOf s)
  unfold moves
  refine List.pairwise_map.2 (List.pairwise_filterMap.2 (hpieces.imp fun {r t} hlt x hx y hy => ?_))
  simp only [Option.ite_none_left_eq_some, Option.some.injEq] at hx hy
  obtain ⟨_, rfl⟩ := hx
  obtain ⟨_, rfl⟩ := hy
  exact hlt

theorem breadthFirst_subsets (hg : g.Valid) (start : StateSet) :
    BreadthFirst (fun s => (g.moves s).map Prod.snd) [g.epsilonClosure start]
      (g.subsets start).toList :=
  breadthFirst_explore (length_le_of_reached_moves hg)

theorem mem_subsets_of_mem_moves (hg : g.Valid) (hs : s ∈ g.subsets start)
    {move : CharRange × StateSet} (hmove : move ∈ g.moves s) : move.2 ∈ g.subsets start := by
  rw [mem_subsets hg] at hs ⊢
  exact hs.next (List.mem_map_of_mem hmove)

/-- The moves of a set as edges, with the targets that `f` makes of the sets. -/
def movesVia (g : Automaton) (f : StateSet → StateId) (s : StateSet) : List Edge :=
  (g.moves s).map fun move => ⟨move.1, f move.2⟩

theorem inOrder_movesVia (g : Automaton) (f : StateSet → StateId) (s : StateSet) :
    CharRange.InOrder ((g.movesVia f s).map Edge.label) := by
  rw [movesVia, List.map_map]
  exact inOrder_moves g s

theorem map_target_movesVia (g : Automaton) (f : StateSet → StateId) (s : StateSet) :
    (g.movesVia f s).map Edge.target = ((g.moves s).map Prod.snd).map f := by
  rw [movesVia, List.map_map, List.map_map]
  rfl

/-- The edges of a subset are its moves, merged. -/
theorem edges_determinizeFrom (hg : g.Valid) {i : StateId}
    (hs : (g.subsets start).rank? s = some i) :
    ((g.determinizeFrom start).state i).edges
      = mergeEdges (g.movesVia (g.subsets start).place s) := by
  rw [state_determinizeFrom hs]
  refine congrArg mergeEdges ?_
  refine (List.filterMap_congr fun move hmove => ?_).trans (congrFun List.filterMap_eq_map _)
  have hmem := mem_subsets_of_mem_moves hg (Numbering.mem_of_rank? hs) hmove
  show Option.map _ ((g.subsets start).rank? move.2) = _
  rw [Numbering.rank?_of_mem hmem]
  rfl

theorem isMerged_determinizeFrom {i : StateId} (hi : i < (g.determinizeFrom start).size) :
    IsMerged ((g.determinizeFrom start).state i).edges := by
  obtain ⟨s, hs⟩ := exists_rank?_subsets hi
  rw [state_determinizeFrom hs]
  exact isMerged_mergeEdges _

theorem EpsilonFree.targets_eq (h : g.EpsilonFree) (p : StateId) :
    (g.state p).targets = (g.state p).edges.map Edge.target := by
  rw [State.targets, h, List.append_nil]

/-- Merging the moves of a subset does not change the order in which they lead to new subsets. -/
theorem novel_targets_determinizeFrom (hg : g.Valid) {i : StateId}
    (hs : (g.subsets start).rank? s = some i) :
    novel [] ((g.determinizeFrom start).state i).targets
      = novel [] (((g.moves s).map Prod.snd).map (g.subsets start).place) := by
  have hi : i < (g.determinizeFrom start).size := by
    rw [size_determinizeFrom]
    exact Numbering.rank?_lt_length hs
  have hmerged := (isMerged_determinizeFrom hi).inOrder
    ((isDeterministic_determinizeFrom hg start).functional i)
  rw [(epsilonFree_determinizeFrom g start).targets_eq, ← map_target_movesVia]
  rw [edges_determinizeFrom hg hs] at hmerged ⊢
  exact novel_targets_eq hmerged (inOrder_movesVia g _ s) fun _ _ => leads_mergeEdges

/-- The subset automaton is canonical. -/
theorem isCanonical_determinizeFrom (hg : g.Valid) (start : StateSet) :
    (g.determinizeFrom start).IsCanonical where
  initial_eq := rfl
  merged_eq i hi := by
    refine State.merged_eq_self (isMerged_determinizeFrom hi) ?_
    rw [epsilonFree_determinizeFrom]
    exact List.Pairwise.nil
  breadthFirst := by
    have hnovel : ∀ s ∈ (g.subsets start).toList,
        novel [] ((g.determinizeFrom start).state ((g.subsets start).place s)).targets
          = novel [] (((g.moves s).map Prod.snd).map (g.subsets start).place) := fun s hs =>
      novel_targets_determinizeFrom hg (Numbering.rank?_of_mem (Numbering.mem_toList.1 hs))
    rw [size_determinizeFrom]
    refine (breadthFirst_subsets hg start).range (rank?_subsets_epsilonClosure g start)
      (fun s hs t ht => ?_) ?_
    · exact (mem_iff_of_novel_nil_eq (hnovel s hs) _).2 (List.mem_map_of_mem ht)
    · rw [novel_append, novel_append, novel_flatMap_congr hnovel]

/-! ## Sets with one member -/

theorem EpsilonFree.epsilonClosure_singleton (hfree : g.EpsilonFree) (hg : g.Valid)
    (hp : p < g.size) : g.epsilonClosure (.singleton p) = .singleton p := by
  refine StateSet.ext fun q => ?_
  rw [mem_epsilonClosure_singleton hg hp, StateSet.mem_singleton]
  constructor
  · exact hfree.eq_of_path_nil
  · rintro rfl
    exact Path.nil _

/-- A deterministic automaton goes from one state to one state. -/
theorem IsDeterministic.step_singleton (hd : g.IsDeterministic) (hg : g.Valid)
    (h : g.Moves p c q) : g.step (.singleton p) c = .singleton q := by
  refine StateSet.ext fun r => ?_
  rw [mem_step hg, StateSet.mem_singleton]
  constructor
  · rintro ⟨p', hp', r', hmoves, hpath⟩
    rw [StateSet.mem_singleton] at hp'
    subst hp'
    rw [hd.epsilonFree.eq_of_path_nil hpath]
    exact hd.functional _ _ _ _ hmoves h
  · rintro rfl
    exact ⟨p, StateSet.mem_singleton.2 rfl, r, h, Path.nil r⟩

theorem canMove_singleton : g.CanMove (.singleton p) c ↔ ∃ q, g.Moves p c q := by
  unfold CanMove
  simp only [StateSet.mem_singleton, exists_eq_left]

theorem IsDeterministic.mem_moves_singleton (hd : g.IsDeterministic) (hg : g.Valid)
    {move : CharRange × StateSet} (hmove : move ∈ g.moves (.singleton p)) (hc : c ∈ move.1) :
    ∃ q, g.Moves p c q ∧ move.2 = .singleton q := by
  obtain ⟨hcan, hstep⟩ := (exists_mem_moves_iff hg).1 ⟨move.1, hmove, hc⟩
  obtain ⟨q, hq⟩ := canMove_singleton.1 hcan
  exact ⟨q, hq, hstep.symm.trans (hd.step_singleton hg hq)⟩

/-- The moves of a set with one member are the moves of the member, cut into pieces. -/
theorem IsDeterministic.leads_moves_singleton (hd : g.IsDeterministic) (hg : g.Valid) :
    Leads (g.movesVia StateSet.member (.singleton p)) c q ↔ g.Moves p c q := by
  constructor
  · rintro ⟨_, he, hc, rfl⟩
    obtain ⟨move, hmove, rfl⟩ := List.mem_map.1 he
    obtain ⟨q, hq, heq⟩ := hd.mem_moves_singleton hg hmove hc
    show g.Moves p c move.2.member
    rwa [heq, StateSet.member_singleton]
  · intro h
    obtain ⟨piece, hmove, hc⟩ := (exists_mem_moves_iff hg).2
      ⟨canMove_singleton.2 ⟨q, h⟩, hd.step_singleton hg h⟩
    exact ⟨⟨piece, q⟩, List.mem_map.2 ⟨_, hmove, rfl⟩, hc, rfl⟩

/-- A set with one member moves to sets with one member, in the order of the member's edges. -/
theorem IsDeterministic.novel_moves_singleton (hd : g.IsDeterministic) (hg : g.Valid)
    (hmerged : IsMerged (g.state p).edges) :
    novel [] ((g.moves (.singleton p)).map Prod.snd)
      = novel [] ((g.state p).targets.map StateSet.singleton) := by
  have hinj : ∀ q r : StateId, True → True → StateSet.singleton q = .singleton r → q = r :=
    fun _ _ _ _ h => congrArg StateSet.member h
  have hmap : ∀ xs : List StateId,
      novel [] (xs.map StateSet.singleton) = (novel [] xs).map StateSet.singleton := fun _ =>
    novel_map hinj (fun _ h => absurd h List.not_mem_nil) fun _ _ => trivial
  have hsets : (g.moves (.singleton p)).map Prod.snd
      = ((g.movesVia StateSet.member (.singleton p)).map Edge.target).map StateSet.singleton := by
    rw [map_target_movesVia, List.map_map, List.map_map]
    refine List.map_congr_left fun move hmove => ?_
    obtain ⟨q, _, heq⟩ := hd.mem_moves_singleton hg hmove move.1.lo_mem
    simp only [Function.comp_apply, heq, StateSet.member_singleton]
  have htargets : novel [] ((g.movesVia StateSet.member (.singleton p)).map Edge.target)
      = novel [] ((g.state p).edges.map Edge.target) :=
    novel_targets_eq (inOrder_movesVia g _ _) (hmerged.inOrder (hd.functional p)) fun _ _ =>
      hd.leads_moves_singleton hg
  rw [hsets, hmap, htargets, hd.epsilonFree.targets_eq, hmap]

/-! ## Determinizing a canonical automaton -/

theorem IsCanonical.isMerged (h : g.IsCanonical) (hp : p < g.size) :
    IsMerged (g.state p).edges := by
  rw [← h.merged_eq p hp]
  exact State.isMerged_merged _

/-- The sets found are the states, each by itself, in the order of their numbers. -/
theorem IsCanonical.toList_subsets (h : g.IsCanonical) (hd : g.IsDeterministic) :
    (g.subsets (.singleton g.initial)).toList = (List.range g.size).map StateSet.singleton := by
  have hstart : g.epsilonClosure (.singleton g.initial) = .singleton 0 := by
    rw [hd.epsilonFree.epsilonClosure_singleton h.valid h.valid.1, h.initial_eq]
  have hnovel : ∀ p ∈ List.range g.size,
      novel [] ((g.moves (.singleton p)).map Prod.snd)
        = novel [] ((g.state p).targets.map StateSet.singleton) := fun p hp =>
    hd.novel_moves_singleton h.valid (h.isMerged (List.mem_range.1 hp))
  have hfound := breadthFirst_subsets h.valid (.singleton g.initial)
  rw [hstart] at hfound
  refine hfound.eq (h.breadthFirst.map (fun p _ q _ heq => congrArg StateSet.member heq)
    (fun p hp q hq => ?_) ?_)
  · exact (mem_iff_of_novel_nil_eq (hnovel p hp) _).2 (List.mem_map_of_mem hq)
  · rw [novel_append, novel_append, novel_flatMap_congr hnovel]

theorem IsCanonical.rank?_singleton (h : g.IsCanonical) (hd : g.IsDeterministic)
    (hp : p < g.size) : (g.subsets (.singleton g.initial)).rank? (.singleton p) = some p := by
  rw [Numbering.rank?_eq_some_iff, h.toList_subsets hd, List.getElem?_map, List.getElem?_range hp]
  rfl

theorem IsCanonical.moves_determinize (h : g.IsCanonical) (hd : g.IsDeterministic)
    (hp : p < g.size) : g.determinize.Moves p c q ↔ g.Moves p c q := by
  have hrank : ∀ {r}, g.Moves p c r →
      (g.subsets (.singleton g.initial)).rank? (g.step (.singleton p) c) = some r := by
    intro r hr
    rw [hd.step_singleton h.valid hr]
    exact h.rank?_singleton hd (h.valid.target_lt hr.mem_targets)
  rw [determinize, moves_determinizeFrom h.valid (h.rank?_singleton hd hp), canMove_singleton]
  constructor
  · rintro ⟨⟨r, hr⟩, hq⟩
    rw [hrank hr] at hq
    rwa [← Option.some.inj hq]
  · intro hq
    exact ⟨⟨q, hq⟩, hrank hq⟩

/-- The subset construction does not change a canonical deterministic automaton. -/
theorem IsCanonical.determinize_eq (h : g.IsCanonical) (hd : g.IsDeterministic) :
    g.determinize = g := by
  have hsize : g.determinize.size = g.size := by
    rw [determinize, size_determinizeFrom, h.toList_subsets hd, List.length_map,
      List.length_range]
  refine eq_of_state_eq hsize h.initial_eq.symm fun p hp => ?_
  have hp' : p < g.size := hsize ▸ hp
  apply State.ext
  case accepting =>
    refine (isAccepting_determinizeFrom (h.rank?_singleton hd hp')).trans ?_
    exact List.any_cons.trans (Bool.or_false _)
  case edges =>
    exact (isMerged_determinizeFrom hp).eq_of_leads_iff (h.isMerged hp') fun c q =>
      h.moves_determinize hd hp'
  case epsilons =>
    exact (epsilonFree_determinizeFrom g _ p).trans (hd.epsilons_eq_nil p).symm

/-- What the subset construction makes is its own canonical form, and determinizing it again does
    not change it. -/
theorem canonical_determinizeFrom (hg : g.Valid) (start : StateSet) :
    (g.determinizeFrom start).canonical = g.determinizeFrom start ∧
      (g.determinizeFrom start).determinize = g.determinizeFrom start := by
  have hcanonical := isCanonical_determinizeFrom hg start
  exact ⟨hcanonical.canonical_eq,
    hcanonical.determinize_eq (isDeterministic_determinizeFrom hg start)⟩

/-- Overlapping labels, two of which meet at the gap that the surrogates leave. -/
def gapped : Automaton :=
  ofList [{ edges := [⟨⟨'b', Char.ofNat 0xD7FF, by decide⟩, 2⟩, ⟨⟨'a', 'c', by decide⟩, 1⟩,
      ⟨⟨Char.ofNat 0xE000, Char.ofNat 0xFFFF, by decide⟩, 2⟩] },
    { epsilons := [2] }, { accepting := true, edges := [⟨.single 'a', 0⟩] }]

theorem canonical_determinizeFrom_gapped :
    gapped.Valid ∧
      (gapped.determinizeFrom (.ofList [1, 2])).canonical = gapped.determinizeFrom (.ofList [1, 2]) ∧
      (gapped.determinizeFrom (.ofList [1, 2])).determinize
        = gapped.determinizeFrom (.ofList [1, 2]) :=
  ⟨by decide, canonical_determinizeFrom (by decide) _⟩

end Automaton

end RegularLanguages
