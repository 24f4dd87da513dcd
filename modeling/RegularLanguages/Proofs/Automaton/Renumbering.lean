import Mathlib.Logic.Equiv.Basic
import RegularLanguages.Proofs.Automaton.Reduced

set_option autoImplicit false

/-! # Canonical forms and the numbers of the states

The canonical form is there to forget how the states are numbered. It visits the merged edges of
a state in the order of their labels, and what it does is then the same in every renumbered
automaton. But an edge has nothing except its target to be told by when another one has the same
label, and an epsilon edge never has anything else: at such a tie canonical numbering follows the
old numbers.

So the numbers are forgotten up to ties. `Renumbers` is what the canonical form does not see
(`Renumbers.canonical_eq`), and a permutation of the states is of this kind when it keeps the
order at the ties of every state (`renumbers_renumbered`). Nothing but the numbers is forgotten:
automata with one canonical form are isomorphic (`exists_isomorphism_of_canonical_eq`). -/

namespace RegularLanguages

/-! ## Renumbered states -/

namespace State

/-- Where canonical numbering has only the targets of edges to tell them by, `f` keeps the order
    of the targets: at merged edges with the same label, and at epsilon edges. -/
structure KeepsTies (f : StateId → StateId) (s : State) : Prop where
  edges : RegularLanguages.KeepsTies f s.merged.edges
  epsilons : ∀ p ∈ s.epsilons, ∀ q ∈ s.epsilons, p < q → f p < f q

instance (f : StateId → StateId) (s : State) : Decidable (s.KeepsTies f) :=
  decidable_of_iff (RegularLanguages.KeepsTies f s.merged.edges ∧
    ∀ p ∈ s.epsilons, ∀ q ∈ s.epsilons, p < q → f p < f q)
    ⟨fun h => ⟨h.1, h.2⟩, fun h => ⟨h.1, h.2⟩⟩

variable {f : StateId → StateId} {s : State}

theorem IsDeterministic.keepsTies (hs : s.IsDeterministic) (f : StateId → StateId) :
    s.KeepsTies f where
  edges := (functional_of_pairwise_disjoint hs.2).mergeEdges.keepsTies f
  epsilons p hp := by
    rw [hs.1] at hp
    exact absurd hp List.not_mem_nil

/-- Merging commutes with a renumbering that keeps the order at ties. -/
theorem merged_retarget (hf : s.KeepsTies f)
    (hinj : ∀ p ∈ s.targets, ∀ q ∈ s.targets, f p = f q → p = q) :
    (s.retarget f).merged = s.merged.retarget f := by
  have htarget : ∀ {c p}, Leads s.edges c p → p ∈ s.targets := by
    rintro c p ⟨e, he, _, rfl⟩
    exact List.mem_append_left _ (List.mem_map.2 ⟨e, he, rfl⟩)
  have hedges : mergeEdges (s.edges.map (Edge.retarget f))
      = (mergeEdges s.edges).map (Edge.retarget f) :=
    mergeEdges_of_leads_retarget hf.edges
      (fun _ _ p q hp hq => hinj p (htarget hp) q (htarget hq)) fun _ _ => leads_map_retarget
  have hepsilons : Ascending.ofList (s.epsilons.map f) = (Ascending.ofList s.epsilons).map f := by
    refine Ascending.eq_of_mem_iff (Ascending.pairwise_ofList _) ?_ fun q => ?_
    · rw [List.pairwise_map]
      refine (Ascending.pairwise_ofList s.epsilons).imp_of_mem fun {p q} hp hq => ?_
      rw [Ascending.mem_ofList] at hp hq
      exact hf.epsilons p hp q hq
    · simp only [Ascending.mem_ofList, List.mem_map]
  unfold merged retarget
  rw [hedges, hepsilons]

end State

namespace Automaton

variable {g h : Automaton}

/-! ## What canonical numbering does not see -/

/-- The states of `h` that matter are those of `g` with the numbers that `f` gives them, as far
    as merged edges tell. -/
structure Renumbers (f : StateId → StateId) (g h : Automaton) : Prop where
  size_eq : h.size = g.size
  initial_eq : h.initial = f g.initial
  injective : ∀ p < g.size, ∀ q < g.size, f p = f q → p = q
  merged_eq : ∀ p, g.Reachable p → (h.state (f p)).merged = (g.state p).merged.retarget f

section Renumbers

variable {f : StateId → StateId} (hf : Renumbers f g h) (hg : g.Valid)

include hf hg

/-- Canonical numbering meets the renumbered states in the same order. -/
theorem Renumbers.toList_canonicalOrder :
    h.canonicalOrder.toList = g.canonicalOrder.toList.map f := by
  have hreached : ∀ {p}, Reached (fun id => ((g.mapStates State.merged).state id).targets)
      [g.initial] p → g.Reachable p := fun hp =>
    reachable_mapStates_merged.1 (reached_initial_iff.1 hp)
  unfold canonicalOrder breadthFirst
  rw [size_mapStates, size_mapStates, hf.size_eq]
  show (explore .oldestFirst (fun id => ((h.mapStates State.merged).state id).targets) g.size
    [h.initial]).toList = _
  rw [hf.initial_eq, ← List.map_singleton]
  refine toList_explore_map .oldestFirst g.size (fun p q hp hq => ?_) (fun p hp => ?_)
  · exact hf.injective p ((hreached hp).lt_size hg) q ((hreached hq).lt_size hg)
  · show ((h.mapStates State.merged).state (f p)).targets = _
    rw [state_mapStates rfl, state_mapStates rfl, hf.merged_eq p (hreached hp),
      State.targets_retarget]

/-- Renumbering does not change the canonical form. -/
theorem Renumbers.canonical_eq : h.canonical = g.canonical := by
  have horder := hf.toList_canonicalOrder hg
  have hrank : ∀ {q}, q ∈ g.canonicalOrder →
      h.canonicalOrder.rank? (f q) = g.canonicalOrder.rank? q := by
    intro q hq
    obtain ⟨i, hi⟩ := Numbering.mem_iff_exists_rank?.1 hq
    rw [hi, Numbering.rank?_eq_some_iff, horder, List.getElem?_map,
      Numbering.rank?_eq_some_iff.1 hi]
    rfl
  rw [Automaton.canonical_eq, Automaton.canonical_eq]
  congr 1
  unfold select
  -- Both lists are of the same states in the same order; the numbers in them are left to compare.
  rw [horder, List.map_map]
  refine congrArg ofList (List.map_congr_left fun p hp => ?_)
  rw [Numbering.mem_toList] at hp
  have htargets : ∀ q ∈ ((g.mapStates State.merged).state p).targets,
      h.canonicalOrder.rank? (f q) = g.canonicalOrder.rank? q := fun q hq =>
    hrank (keeps_canonicalOrder hg p hp q hq trivial)
  simp only [Function.comp_apply]
  rw [state_mapStates rfl] at htargets ⊢
  rw [state_mapStates rfl, hf.merged_eq p ((mem_canonicalOrder hg).1 hp), State.mk.injEq]
  refine ⟨rfl, ?_, ?_⟩
  · show List.filterMap _ (List.map _ _) = _
    rw [List.filterMap_map]
    refine List.filterMap_congr fun e he => ?_
    show (h.canonicalOrder.rank? (f e.target)).map _ = _
    rw [htargets e.target (List.mem_append_left _ (List.mem_map.2 ⟨e, he, rfl⟩))]
    rfl
  · show List.filterMap _ (List.map _ _) = _
    rw [List.filterMap_map]
    exact List.filterMap_congr fun q hq => htargets q (List.mem_append_right _ hq)

end Renumbers

/-! ## Permuted states -/

/-- The number that a permutation of the states gives to a state; what is no state keeps its
    number. -/
def renumbering (g : Automaton) (p : Equiv.Perm (Fin g.size)) (q : StateId) : StateId :=
  if h : q < g.size then p ⟨q, h⟩ else q

/-- The automaton with its states permuted, and the initial state and all targets renamed
    accordingly; the edges of a state keep their stored order. -/
def renumbered (g : Automaton) (p : Equiv.Perm (Fin g.size)) : Automaton where
  states := Array.ofFn fun i => (g.state (p.symm i)).retarget (g.renumbering p)
  initial := g.renumbering p g.initial

variable {p : Equiv.Perm (Fin g.size)} {q : StateId}

theorem renumbering_of_lt (hq : q < g.size) : g.renumbering p q = p ⟨q, hq⟩ := dif_pos hq

theorem renumbering_injective : ∀ q < g.size, ∀ r < g.size,
    g.renumbering p q = g.renumbering p r → q = r := by
  intro q hq r hr heq
  rw [renumbering_of_lt hq, renumbering_of_lt hr] at heq
  exact congrArg Fin.val (p.injective (Fin.ext heq))

theorem size_renumbered (g : Automaton) (p : Equiv.Perm (Fin g.size)) :
    (g.renumbered p).size = g.size :=
  Array.size_ofFn

theorem state_renumbered (hq : q < g.size) :
    (g.renumbered p).state (g.renumbering p q) = (g.state q).retarget (g.renumbering p) := by
  rw [renumbering_of_lt hq]
  refine state_of_getElem? ?_
  unfold renumbered
  rw [Array.getElem?_ofFn, dif_pos (p ⟨q, hq⟩).isLt, Fin.eta, Equiv.symm_apply_apply]

/-- A permutation that keeps the order at ties is one that canonical numbering does not see. -/
theorem renumbers_renumbered (hg : g.Valid)
    (hties : ∀ q, g.Reachable q → (g.state q).KeepsTies (g.renumbering p)) :
    Renumbers (g.renumbering p) g (g.renumbered p) where
  size_eq := size_renumbered g p
  initial_eq := rfl
  injective := renumbering_injective
  merged_eq q hq := by
    rw [state_renumbered (hq.lt_size hg)]
    exact State.merged_retarget (hties q hq) fun r hr t ht =>
      renumbering_injective r (hg.target_lt hr) t (hg.target_lt ht)

/-- No permutation of the states of a deterministic automaton changes its canonical form. -/
theorem IsDeterministic.canonical_renumbered (hd : g.IsDeterministic) (hg : g.Valid)
    (p : Equiv.Perm (Fin g.size)) : (g.renumbered p).canonical = g.canonical :=
  (renumbers_renumbered hg fun q _ => (isDeterministic_iff.1 hd q).keepsTies _).canonical_eq hg

/-! ## Equal canonical forms -/

/-- `f` brings the reachable states of `g` to those of `h`, one to one, and with them acceptance
    and the moves and epsilon edges between them. -/
structure Isomorphism (f : StateId → StateId) (g h : Automaton) : Prop where
  initial_eq : f g.initial = h.initial
  reachable : ∀ p, g.Reachable p → h.Reachable (f p)
  injective : ∀ p q, g.Reachable p → g.Reachable q → f p = f q → p = q
  surjective : ∀ q, h.Reachable q → ∃ p, g.Reachable p ∧ f p = q
  isAccepting_eq : ∀ p, g.Reachable p → h.isAccepting (f p) = g.isAccepting p
  moves_iff : ∀ p c q, g.Reachable p → g.Reachable q → (h.Moves (f p) c (f q) ↔ g.Moves p c q)
  epsilons_iff : ∀ p q, g.Reachable p → g.Reachable q →
    (f q ∈ (h.state (f p)).epsilons ↔ q ∈ (g.state p).epsilons)

theorem exists_rank?_of_canonical_eq (hg : g.Valid) (heq : g.canonical = h.canonical)
    (hq : g.Reachable q) :
    ∃ r i, g.canonicalOrder.rank? q = some i ∧ h.canonicalOrder.rank? r = some i := by
  obtain ⟨i, hi⟩ := Numbering.mem_iff_exists_rank?.1 ((mem_canonicalOrder hg).2 hq)
  obtain ⟨r, hr⟩ := exists_rank?_canonicalOrder (heq ▸ lt_size_canonical hi)
  exact ⟨r, i, hi, hr⟩

/-- Automata with one canonical form are isomorphic: a state corresponds to the one that is met
    at the same time. -/
theorem exists_isomorphism_of_canonical_eq (hg : g.Valid) (hh : h.Valid)
    (heq : g.canonical = h.canonical) : ∃ f, Isomorphism f g h := by
  choose! f rank hrank using fun q (hq : g.Reachable q) => exists_rank?_of_canonical_eq hg heq hq
  have hmet : ∀ {q r i}, g.Reachable q → g.canonicalOrder.rank? q = some i →
      h.canonicalOrder.rank? r = some i → f q = r := by
    intro q r i hq hqi hri
    obtain ⟨hfrom, hto⟩ := hrank q hq
    rw [hqi] at hfrom
    rw [← Option.some.inj hfrom] at hto
    exact Numbering.rank?_inj hto hri
  refine ⟨f, ?_⟩
  constructor
  case initial_eq =>
    exact hmet (reachable_initial g) (rank?_canonicalOrder_initial g)
      (rank?_canonicalOrder_initial h)
  case reachable =>
    intro p hp
    exact (mem_canonicalOrder hh).1 (Numbering.mem_of_rank? (hrank p hp).2)
  case injective =>
    intro p q hp hq hpq
    have hsame := (hrank p hp).2
    rw [hpq, (hrank q hq).2] at hsame
    exact Numbering.rank?_inj ((hrank p hp).1.trans hsame.symm) (hrank q hq).1
  case surjective =>
    intro q hq
    obtain ⟨p, i, hqi, hpi⟩ := exists_rank?_of_canonical_eq hh heq.symm hq
    have hp := (mem_canonicalOrder hg).1 (Numbering.mem_of_rank? hpi)
    exact ⟨p, hp, hmet hp hpi hqi⟩
  case isAccepting_eq =>
    intro p hp
    rw [← isAccepting_canonical (hrank p hp).2, ← heq, isAccepting_canonical (hrank p hp).1]
  case moves_iff =>
    intro p c q hp hq
    rw [← moves_canonical (hrank p hp).2 (hrank q hq).2, ← heq,
      moves_canonical (hrank p hp).1 (hrank q hq).1]
  case epsilons_iff =>
    intro p q hp hq
    rw [← mem_epsilons_canonical (hrank p hp).2 (hrank q hq).2, ← heq,
      mem_epsilons_canonical (hrank p hp).1 (hrank q hq).1]

/-- A renumbered automaton is isomorphic to the original one if the permutation keeps the order
    at the ties of the reachable states; and automata that differ in more than their numbers are
    never taken for isomorphic. -/
theorem isIsomorphic_renumbered (g : Automaton) (hg : g.Valid) :
    (∀ p : Equiv.Perm (Fin g.size),
      (∀ q, g.Reachable q → (g.state q).KeepsTies (g.renumbering p)) →
        g.isIsomorphic (g.renumbered p) = true) ∧
      ∀ h : Automaton, h.Valid → g.isIsomorphic h = true → ∃ f, Isomorphism f g h := by
  constructor
  · intro p hties
    exact decide_eq_true ((renumbers_renumbered hg hties).canonical_eq hg).symm
  · intro h hh hisomorphic
    exact exists_isomorphism_of_canonical_eq hg hh (of_decide_eq_true hisomorphic)

/-- One label leads from the initial state to both of the other states. -/
def tied : Automaton :=
  ofList [{ edges := [⟨.single 'a', 1⟩, ⟨.single 'a', 2⟩], epsilons := [2] }, {},
    { accepting := true }]

theorem isIsomorphic_renumbered_tied :
    tied.Valid ∧
      (∀ q, tied.Reachable q →
        (tied.state q).KeepsTies (tied.renumbering (.swap ⟨0, by decide⟩ ⟨1, by decide⟩))) ∧
      tied.isIsomorphic (tied.renumbered (.swap ⟨0, by decide⟩ ⟨1, by decide⟩)) = true ∧
      ∃ f, Isomorphism f tied (tied.renumbered (.swap ⟨0, by decide⟩ ⟨1, by decide⟩)) := by
  have hg : tied.Valid := by decide
  have hall : ∀ s ∈ tied.toList,
      s.KeepsTies (tied.renumbering (.swap ⟨0, by decide⟩ ⟨1, by decide⟩)) := by decide
  have hties : ∀ q, tied.Reachable q →
      (tied.state q).KeepsTies (tied.renumbering (.swap ⟨0, by decide⟩ ⟨1, by decide⟩)) :=
    fun q hq => hall _ (mem_toList_iff.2 ⟨q, hq.lt_size hg, rfl⟩)
  have hsame := (isIsomorphic_renumbered tied hg).1 _ hties
  exact ⟨hg, hties, hsame, (isIsomorphic_renumbered tied hg).2 _ (by decide) hsame⟩

/-- At a tie the canonical form depends on the numbers that the states had: two states that one
    label leads to cannot change places. -/
theorem isIsomorphic_renumbered_not_forall :
    ¬ ∀ (g : Automaton) (p : Equiv.Perm (Fin g.size)), g.Valid →
      g.isIsomorphic (g.renumbered p) = true := by
  intro hall
  have hsame := hall tied (.swap ⟨1, by decide⟩ ⟨2, by decide⟩) (by decide)
  have hdiffer : tied.isIsomorphic (tied.renumbered (.swap ⟨1, by decide⟩ ⟨2, by decide⟩))
      = false := by decide +kernel
  rw [hdiffer] at hsame
  exact Bool.noConfusion hsame

end Automaton

end RegularLanguages
