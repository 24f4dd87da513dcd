import RegularLanguages.Proofs.Automaton.Reduced
import RegularLanguages.Proofs.BreadthFirst

set_option autoImplicit false

/-! # Canonical automata

An automaton is canonical when its edges are merged and sorted and its states are numbered in the
order in which a breadth-first search meets them. Canonical numbering leaves such an automaton as
it is (`IsCanonical.canonical_eq`), and what it makes of any automaton is of this kind
(`isCanonical_canonical`).

The second statement needs an argument at ties. Edges with the same label, and epsilon edges, are
sorted by their targets: by the old numbers when the search meets them, by the new ones in the
result. The order inside a tie may change, but not the order in which states are first met: those
that are new at a tie get their numbers there, one after another, so for them the new order is the
order of the search. -/

namespace RegularLanguages

/-! ## Ties -/

/-- Ascending edges are a row of ties, one for each label. -/
theorem flatMap_filter_label {edges : List Edge} {labels : List CharRange}
    (hedges : edges.Pairwise (· < ·)) (hlabels : labels.Pairwise (· < ·))
    (hall : ∀ e ∈ edges, e.label ∈ labels) :
    (labels.flatMap fun r => edges.filter fun e => e.label = r) = edges := by
  refine Ascending.eq_of_mem_iff (List.pairwise_flatMap.2 ⟨fun r _ => hedges.filter _, ?_⟩) hedges
    fun e => ?_
  · refine hlabels.imp fun {r s} hlt d hd e he => Or.inl ?_
    rwa [of_decide_eq_true (List.mem_filter.1 hd).2, of_decide_eq_true (List.mem_filter.1 he).2]
  · simp only [List.mem_flatMap, List.mem_filter, decide_eq_true_eq]
    constructor
    · intro h
      obtain ⟨_, _, he, _⟩ := h
      exact he
    · intro he
      exact ⟨e.label, hall e he, he, rfl⟩

/-- The targets at one tie, under new names and sorted. -/
theorem sortsParts_tie (edges : List Edge) (f : StateId → StateId) (r : CharRange) :
    SortsParts (((edges.filter fun e => e.label = r).map (Edge.retarget f)).map Edge.target)
      (((Ascending.ofList (edges.map (Edge.retarget f))).filter fun e => e.label = r).map
        Edge.target) := by
  refine SortsParts.of_pairwise (fun u => ?_) ?_
  · have hfilter : (edges.map (Edge.retarget f)).filter (fun e => e.label = r)
        = (edges.filter fun e => e.label = r).map (Edge.retarget f) := List.filter_map
    simp only [← hfilter, List.mem_map (f := Edge.target), List.mem_filter, Ascending.mem_ofList]
  · have hsorted := Ascending.pairwise_ofList (edges.map (Edge.retarget f))
    rw [List.pairwise_map]
    refine (hsorted.filter _).imp_of_mem fun {d e} hd he hlt => ?_
    have hsame : d.label = e.label :=
      (of_decide_eq_true (List.mem_filter.1 hd).2).trans
        (of_decide_eq_true (List.mem_filter.1 he).2).symm
    rcases Edge.lt_def.1 hlt with hlt | ⟨_, hlt⟩
    · rw [hsame] at hlt
      exact absurd hlt (Std.Irrefl.irrefl (r := (· < · : CharRange → CharRange → Prop)) _)
    · exact hlt

/-- Under new names ascending edges are sorted tie by tie. -/
theorem sortsParts_retarget {edges : List Edge} (h : edges.Pairwise (· < ·))
    (f : StateId → StateId) :
    SortsParts ((edges.map (Edge.retarget f)).map Edge.target)
      ((Ascending.ofList (edges.map (Edge.retarget f))).map Edge.target) := by
  have hlabels := Ascending.pairwise_ofList (edges.map Edge.label)
  have hall : ∀ e ∈ edges, e.label ∈ Ascending.ofList (edges.map Edge.label) := fun e he =>
    (Ascending.mem_ofList _ _).2 (List.mem_map_of_mem he)
  have hall' : ∀ e ∈ Ascending.ofList (edges.map (Edge.retarget f)),
      e.label ∈ Ascending.ofList (edges.map Edge.label) := by
    intro e he
    obtain ⟨d, hd, rfl⟩ := List.mem_map.1 ((Ascending.mem_ofList _ _).1 he)
    exact hall d hd
  have hties := SortsParts.flatMap fun r (_ : r ∈ Ascending.ofList (edges.map Edge.label)) =>
    sortsParts_tie edges f r
  rwa [← List.map_flatMap, ← List.map_flatMap, ← List.map_flatMap,
    flatMap_filter_label h hlabels hall,
    flatMap_filter_label (Ascending.pairwise_ofList _) hlabels hall'] at hties

namespace State

variable {f : StateId → StateId} {s : State}

theorem isMerged_merged (s : State) : IsMerged s.merged.edges := isMerged_mergeEdges _

theorem merged_eq_self (hedges : IsMerged s.edges) (hepsilons : s.epsilons.Pairwise (· < ·)) :
    s.merged = s := by
  unfold merged
  rw [hedges.mergeEdges_eq fun _ _ => Iff.rfl, Ascending.ofList_eq_self hepsilons]

/-- The edges of a merged state are sorted. -/
theorem sorted_eq_self (h : s.merged = s) : s.sorted = s := by
  have hedges : s.edges.Pairwise (· < ·) := h ▸ s.isMerged_merged.ascending
  have hepsilons : s.epsilons.Pairwise (· < ·) := by
    rw [← h]
    exact Ascending.pairwise_ofList _
  unfold sorted
  rw [Ascending.ofList_eq_self hedges, Ascending.ofList_eq_self hepsilons]

/-- A merged state that is renumbered and sorted is merged. -/
theorem merged_sorted_retarget
    (hinj : ∀ p ∈ s.merged.targets, ∀ q ∈ s.merged.targets, f p = f q → p = q) :
    (s.merged.retarget f).sorted.merged = (s.merged.retarget f).sorted := by
  have htarget : ∀ e ∈ s.merged.edges, e.target ∈ s.merged.targets := fun e he =>
    List.mem_append_left _ (List.mem_map_of_mem he)
  refine merged_eq_self ?_ (Ascending.pairwise_ofList _)
  exact s.isMerged_merged.ofList_map_retarget fun d hd e he =>
    hinj _ (htarget d hd) _ (htarget e he)

/-- Sorting a renumbered state sorts its targets in parts. -/
theorem sortsParts_targets (s : State) (f : StateId → StateId) :
    SortsParts (s.merged.targets.map f) (s.merged.retarget f).sorted.targets := by
  rw [← targets_retarget]
  refine (sortsParts_retarget s.isMerged_merged.ascending f).append ?_
  exact SortsParts.of_pairwise (fun p => Ascending.mem_ofList p _) (Ascending.pairwise_ofList _)

end State

namespace Automaton

variable {g : Automaton}

/-! ## The fixed points of canonical numbering -/

/-- Edges are merged, and states are numbered breadth first. -/
structure IsCanonical (g : Automaton) : Prop where
  initial_eq : g.initial = 0
  merged_eq : ∀ id < g.size, (g.state id).merged = g.state id
  breadthFirst : BreadthFirst (fun id => (g.state id).targets) [0] (List.range g.size)

theorem IsCanonical.valid (h : g.IsCanonical) : g.Valid := by
  have hmem : ∀ id, Reached (fun id => (g.state id).targets) [0] id → id < g.size := fun _ hid =>
    List.mem_range.1 (h.breadthFirst.mem_iff.2 hid)
  refine valid_iff.2 ⟨?_, fun id hid target htarget => ?_⟩
  · rw [h.initial_eq]
    exact hmem 0 (Reached.start List.mem_cons_self)
  · exact hmem target ((h.breadthFirst.reached id (List.mem_range.2 hid)).next htarget)

theorem breadthFirst_breadthFirst (hg : g.Valid) :
    BreadthFirst (fun id => (g.state id).targets) [g.initial] g.breadthFirst.toList :=
  breadthFirst_explore (length_le_of_reached hg)

/-- Canonical numbering does not change a canonical automaton. -/
theorem IsCanonical.canonical_eq (h : g.IsCanonical) : g.canonical = g := by
  have hmerged : g.mapStates State.merged = g := mapStates_eq_self h.merged_eq
  have horder : g.breadthFirst.toList = List.range g.size := by
    have hfound := breadthFirst_breadthFirst h.valid
    rw [h.initial_eq] at hfound
    exact hfound.eq h.breadthFirst
  unfold canonical
  rw [hmerged]
  show (g.select g.breadthFirst).mapStates State.sorted = g
  rw [select_eq_self h.valid h.initial_eq horder]
  exact mapStates_eq_self fun id hid => State.sorted_eq_self (h.merged_eq id hid)

/-! ## Canonical forms are canonical -/

theorem mem_canonicalOrder_of_mem_targets (hg : g.Valid) {p q : StateId}
    (hp : p ∈ g.canonicalOrder) (hq : q ∈ (g.state p).merged.targets) : q ∈ g.canonicalOrder := by
  refine keeps_canonicalOrder hg p hp q ?_ trivial
  rwa [state_mapStates rfl]

/-- A state of the canonical form is the merged state, renumbered and sorted. -/
theorem state_canonical (hg : g.Valid) {p i : StateId} (hp : g.canonicalOrder.rank? p = some i) :
    g.canonical.state i = ((g.state p).merged.retarget g.canonicalOrder.place).sorted := by
  have htargets := fun q hq => keeps_canonicalOrder hg p (Numbering.mem_of_rank? hp) q hq trivial
  rw [canonical_eq, state_mapStates rfl, state_select_of_mem hp htargets, state_mapStates rfl]

theorem size_canonical (g : Automaton) : g.canonical.size = g.canonicalOrder.toList.length := by
  rw [canonical_eq, size_mapStates, size_select]

theorem breadthFirst_canonicalOrder (hg : g.Valid) :
    BreadthFirst (fun id => (g.state id).merged.targets) [g.initial] g.canonicalOrder.toList := by
  have hfound := breadthFirst_breadthFirst (hg.mapStates (f := State.merged) rfl State.alike_merged)
  have hnext : (fun id => ((g.mapStates State.merged).state id).targets)
      = fun id => (g.state id).merged.targets := funext fun id => by rw [state_mapStates rfl]
  rwa [hnext] at hfound

/-- The targets in the canonical form are the renumbered ones, sorted in parts. -/
theorem sortsParts_canonical (hg : g.Valid) {p : StateId} (hp : p ∈ g.canonicalOrder.toList) :
    SortsParts ((g.state p).merged.targets.map g.canonicalOrder.place)
      (g.canonical.state (g.canonicalOrder.place p)).targets := by
  rw [state_canonical hg (Numbering.rank?_of_mem (Numbering.mem_toList.1 hp))]
  exact State.sortsParts_targets _ _

/-- A search of the canonical form meets the states in the order of their numbers. -/
theorem breadthFirst_canonical (hg : g.Valid) :
    BreadthFirst (fun id => (g.canonical.state id).targets) [0] (List.range g.canonical.size) := by
  have hfound := breadthFirst_canonicalOrder hg
  have hinitial := rank?_canonicalOrder_initial g
  have hstart : SortsParts [0] [0] :=
    SortsParts.of_pairwise (fun _ => Iff.rfl) (List.pairwise_singleton _ 0)
  have hsorts := hstart.append (SortsParts.flatMap fun p hp => sortsParts_canonical hg hp)
  rw [size_canonical]
  refine hfound.range hinitial (fun p hp q hq => ?_) (hsorts.novel_eq ?_)
  · exact (sortsParts_canonical hg hp).mem_iff.2 (List.mem_map_of_mem hq)
  · -- The first search numbers the states as it meets them, so its first appearances ascend.
    rw [hfound.novel_place hinitial]
    exact List.pairwise_lt_range

/-- The canonical form of a valid automaton is canonical. -/
theorem isCanonical_canonical (hg : g.Valid) : g.canonical.IsCanonical where
  initial_eq := rfl
  merged_eq i hi := by
    obtain ⟨p, hp⟩ := exists_rank?_canonicalOrder hi
    rw [state_canonical hg hp]
    have hmem := Numbering.mem_of_rank? hp
    exact State.merged_sorted_retarget fun q hq r hr =>
      Numbering.place_inj (mem_canonicalOrder_of_mem_targets hg hmem hq)
        (mem_canonicalOrder_of_mem_targets hg hmem hr)
  breadthFirst := breadthFirst_canonical hg

/-- Canonical numbering keeps the language and leaves reachable states only. Its result is its own
    canonical form. -/
theorem canonical_accepts (hg : g.Valid) :
    (∀ w, g.canonical.accepts w = g.accepts w) ∧
      (∀ i < g.canonical.size, g.canonical.Reachable i) ∧
      g.canonical.canonical = g.canonical :=
  ⟨(accepts_eq_accepts_iff hg (valid_canonical g)).2 (language_canonical hg),
    fun _ hi => reachable_canonical hg hi, (isCanonical_canonical hg).canonical_eq⟩

/-- State 2 is met before state 1, so both ties of state 2 change their order. -/
def crossed : Automaton :=
  ofList [{ edges := [⟨.single 'a', 2⟩] }, { accepting := true },
    { edges := [⟨.single 'b', 1⟩, ⟨.single 'b', 2⟩], epsilons := [2, 1, 1] }]

theorem canonical_accepts_crossed :
    crossed.Valid ∧ (∀ w, crossed.canonical.accepts w = crossed.accepts w) ∧
      (∀ i < crossed.canonical.size, crossed.canonical.Reachable i) ∧
      crossed.canonical.canonical = crossed.canonical :=
  ⟨by decide, canonical_accepts (by decide)⟩

end Automaton

end RegularLanguages
