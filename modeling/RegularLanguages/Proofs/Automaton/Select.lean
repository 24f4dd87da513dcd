import RegularLanguages.Automaton.Canonical
import RegularLanguages.Proofs.Automaton.Reachable

set_option autoImplicit false

/-! # Keeping and renumbering states

Trimming and canonical numbering both keep some of the states under new numbers. What is said
here of `select` holds for both: a path of the selection is a path of the automaton
(`Path.of_select`), and if the selection keeps every live successor of a state it keeps, then a
path to a live state is a path of the selection (`Path.select`). Hence every state that is kept
has the same language under its new number (`languageFrom_select`). -/

namespace RegularLanguages

/-! ## States that say the same -/

namespace State

/-- The two states accept alike and have the same moves. -/
structure Alike (s t : State) : Prop where
  accepting : s.accepting = t.accepting
  leads : ∀ c q, Leads s.edges c q ↔ Leads t.edges c q
  epsilons : ∀ q, q ∈ s.epsilons ↔ q ∈ t.epsilons

/-- Targets that keep their numbers keep the state. -/
theorem retarget_eq_self {f : StateId → StateId} {s : State} (h : ∀ q ∈ s.targets, f q = q) :
    s.retarget f = s := by
  unfold retarget
  rw [State.mk.injEq]
  constructor
  · rfl
  constructor
  · refine (List.map_congr_left fun e he => ?_).trans (List.map_id _)
    have hmem : e.target ∈ s.targets := List.mem_append_left _ (List.mem_map_of_mem he)
    rw [Edge.retarget, h e.target hmem]
    rfl
  · refine (List.map_congr_left fun q hq => ?_).trans (List.map_id _)
    exact h q (List.mem_append_right _ hq)

theorem alike_merged (s : State) : s.merged.Alike s where
  accepting := rfl
  leads _ _ := leads_mergeEdges
  epsilons _ := Ascending.mem_ofList _ _

theorem alike_sorted (s : State) : s.sorted.Alike s where
  accepting := rfl
  leads c q := by
    show Leads (Ascending.ofList s.edges) c q ↔ _
    simp only [Leads, Ascending.mem_ofList]
  epsilons _ := Ascending.mem_ofList _ _

theorem IsDeterministic.merged {s : State} (h : s.IsDeterministic) : s.merged.IsDeterministic := by
  refine ⟨?_, pairwise_disjoint_mergeEdges (functional_of_pairwise_disjoint h.2)⟩
  show Ascending.ofList s.epsilons = []
  rw [h.1]
  rfl

theorem IsDeterministic.sorted {s : State} (h : s.IsDeterministic) : s.sorted.IsDeterministic := by
  constructor
  · show Ascending.ofList s.epsilons = []
    rw [h.1]
    rfl
  · have hascending : (Ascending.ofList s.edges).Pairwise (· < ·) := Ascending.pairwise_ofList _
    have : Std.Symm fun d e : Edge => d.label.Disjoint e.label := ⟨fun _ _ => Or.symm⟩
    refine hascending.imp_of_mem fun {d e} hd he hlt => h.2.forall ?_ ?_ ?_
    · exact (Ascending.mem_ofList _ _).1 hd
    · exact (Ascending.mem_ofList _ _).1 he
    · rintro rfl
      exact Std.Irrefl.irrefl (r := (· < · : Edge → Edge → Prop)) _ hlt

end State

namespace Automaton

variable {g : Automaton}

section MapStates

variable {f : State → State}

theorem state_mapStates (hf : f {} = {}) (id : StateId) :
    (g.mapStates f).state id = f (g.state id) := by
  show ((g.states.map f)[id]?).getD {} = f (g.states[id]?.getD {})
  rw [Array.getElem?_map]
  cases g.states[id]? with
  | none => exact hf.symm
  | some s => rfl

theorem size_mapStates : (g.mapStates f).size = g.size := Array.size_map

theorem mapStates_eq_self (h : ∀ id < g.size, f (g.state id) = g.state id) : g.mapStates f = g := by
  refine eq_of_state_eq size_mapStates rfl fun id hid => ?_
  rw [size_mapStates] at hid
  refine state_of_getElem? ?_
  show (g.states.map f)[id]? = _
  rw [Array.getElem?_map, getElem?_states hid, Option.map_some, h id hid]

theorem IsDeterministic.mapStates (h : g.IsDeterministic)
    (hf : ∀ s : State, s.IsDeterministic → (f s).IsDeterministic) :
    (g.mapStates f).IsDeterministic := by
  intro s hs
  rw [toList_mapStates, List.mem_map] at hs
  obtain ⟨t, ht, rfl⟩ := hs
  exact hf t (h t ht)

variable (hf : f {} = {}) (hs : ∀ s : State, (f s).Alike s)

include hf hs

theorem isAccepting_mapStates (p : StateId) :
    (g.mapStates f).isAccepting p = g.isAccepting p := by
  rw [isAccepting, state_mapStates hf]
  exact (hs _).accepting

theorem moves_mapStates {p q : StateId} {c : Char} :
    (g.mapStates f).Moves p c q ↔ g.Moves p c q := by
  rw [Moves, state_mapStates hf]
  exact (hs _).leads c q

theorem mem_epsilons_mapStates {p q : StateId} :
    q ∈ ((g.mapStates f).state p).epsilons ↔ q ∈ (g.state p).epsilons := by
  rw [state_mapStates hf]
  exact (hs _).epsilons q

theorem simulates_mapStates : Simulates Eq (g.mapStates f) g where
  epsilon := by
    intro p _ q hpi hq
    subst hpi
    exact ⟨q, (mem_epsilons_mapStates hf hs).1 hq, rfl⟩
  read := by
    intro p _ c q hpi hq
    subst hpi
    exact ⟨q, (moves_mapStates hf hs).1 hq, rfl⟩

theorem mapStates_simulates : Simulates Eq g (g.mapStates f) where
  epsilon := by
    intro p _ q hpi hq
    subst hpi
    exact ⟨q, (mem_epsilons_mapStates hf hs).2 hq, rfl⟩
  read := by
    intro p _ c q hpi hq
    subst hpi
    exact ⟨q, (moves_mapStates hf hs).2 hq, rfl⟩

theorem path_mapStates {p q : StateId} {w : List Char} :
    (g.mapStates f).Path p w q ↔ g.Path p w q := by
  constructor
  · intro h
    obtain ⟨_, hpath, rfl⟩ := (simulates_mapStates hf hs).exists_path h rfl
    exact hpath
  · intro h
    obtain ⟨_, hpath, rfl⟩ := (mapStates_simulates hf hs).exists_path h rfl
    exact hpath

theorem languageFrom_mapStates (p : StateId) :
    (g.mapStates f).languageFrom p = g.languageFrom p := by
  ext w
  rw [mem_languageFrom, mem_languageFrom]
  simp only [path_mapStates hf hs, isAccepting_mapStates hf hs]

theorem mem_targets_mapStates {p q : StateId} :
    q ∈ ((g.mapStates f).state p).targets ↔ q ∈ (g.state p).targets := by
  rw [mem_targets_iff, mem_targets_iff, mem_epsilons_mapStates hf hs]
  simp only [moves_mapStates hf hs]

theorem Valid.mapStates (h : g.Valid) : (g.mapStates f).Valid := by
  rw [valid_iff, size_mapStates]
  refine ⟨h.1, fun p _ q hq => ?_⟩
  exact h.target_lt ((mem_targets_mapStates hf hs).1 hq)

end MapStates

/-! ## Selections -/

section Select

variable {order : Numbering StateId} {p q i j : StateId}

theorem size_select (g : Automaton) (order : Numbering StateId) :
    (g.select order).size = order.toList.length := by
  rw [select, size_ofList_map]

theorem state_select (hp : order.rank? p = some i) :
    (g.select order).state i =
      { accepting := (g.state p).accepting
        edges := (g.state p).edges.filterMap fun e =>
          (order.rank? e.target).map fun target => ⟨e.label, target⟩
        epsilons := (g.state p).epsilons.filterMap order.rank? } :=
  state_ofList_map hp

/-- If all targets of a state are selected, its edges are renumbered and none is dropped. -/
theorem state_select_of_mem (hp : order.rank? p = some i)
    (htargets : ∀ q ∈ (g.state p).targets, q ∈ order) :
    (g.select order).state i = (g.state p).retarget order.place := by
  rw [state_select hp, State.retarget, State.mk.injEq]
  constructor
  · rfl
  constructor
  · refine (List.filterMap_congr fun e he => ?_).trans (congrFun List.filterMap_eq_map _)
    have hmem := htargets e.target (List.mem_append_left _ (List.mem_map_of_mem he))
    rw [Numbering.rank?_of_mem hmem]
    rfl
  · refine (List.filterMap_congr fun q hq => ?_).trans (congrFun List.filterMap_eq_map _)
    rw [Numbering.rank?_of_mem (htargets q (List.mem_append_right _ hq))]
    rfl

/-- To select all states under the numbers they have changes nothing. -/
theorem select_eq_self (hg : g.Valid) (hinitial : g.initial = 0)
    (horder : order.toList = List.range g.size) : g.select order = g := by
  have hrank : ∀ {q}, q < g.size → order.rank? q = some q := fun hq =>
    Numbering.rank?_of_toList_eq_range horder hq
  have hsize : (g.select order).size = g.size := by
    rw [size_select, horder, List.length_range]
  refine eq_of_state_eq hsize hinitial.symm fun id hid => ?_
  rw [hsize] at hid
  rw [state_select_of_mem (hrank hid) fun q hq => Numbering.mem_of_rank? (hrank (hg.target_lt hq))]
  refine State.retarget_eq_self fun q hq => ?_
  exact Numbering.place_of_rank? (hrank (hg.target_lt hq))

theorem exists_rank?_of_lt (h : i < (g.select order).size) : ∃ p, order.rank? p = some i := by
  rw [size_select] at h
  exact Numbering.exists_rank?_of_lt_length h

theorem isAccepting_select (hp : order.rank? p = some i) :
    (g.select order).isAccepting i = g.isAccepting p := by
  rw [isAccepting, state_select hp]
  rfl

theorem moves_select (hp : order.rank? p = some i) {c : Char} :
    (g.select order).Moves i c j ↔ ∃ q, g.Moves p c q ∧ order.rank? q = some j := by
  rw [Moves, state_select hp]
  constructor
  · rintro ⟨d, hd, hc, rfl⟩
    obtain ⟨e, he, heq⟩ := List.mem_filterMap.1 hd
    obtain ⟨target, htarget, rfl⟩ := Option.map_eq_some_iff.1 heq
    exact ⟨e.target, Leads.of_mem he hc, htarget⟩
  · rintro ⟨_, ⟨e, he, hc, rfl⟩, hj⟩
    refine ⟨⟨e.label, j⟩, List.mem_filterMap.2 ⟨e, he, ?_⟩, hc, rfl⟩
    rw [hj]
    rfl

/-- Two selected states keep the moves between them. -/
theorem moves_select_of_rank? (hp : order.rank? p = some i) (hq : order.rank? q = some j)
    {c : Char} : (g.select order).Moves i c j ↔ g.Moves p c q := by
  rw [moves_select hp, Numbering.exists_rank?_eq_iff hq]

/-- A selection that numbers the initial state first keeps its loops. -/
theorem loops_select (h : order.rank? g.initial = some 0) {c : Char} :
    (g.select order).Loops c ↔ g.Loops c :=
  moves_select_of_rank? h h

theorem mem_epsilons_select (hp : order.rank? p = some i) :
    j ∈ ((g.select order).state i).epsilons ↔
      ∃ q ∈ (g.state p).epsilons, order.rank? q = some j := by
  rw [state_select hp, List.mem_filterMap]

/-- Two selected states keep the epsilon edge between them. -/
theorem mem_epsilons_select_of_rank? (hp : order.rank? p = some i)
    (hq : order.rank? q = some j) :
    j ∈ ((g.select order).state i).epsilons ↔ q ∈ (g.state p).epsilons := by
  rw [mem_epsilons_select hp, Numbering.exists_rank?_eq_iff hq]

theorem mem_targets_select (hp : order.rank? p = some i) :
    j ∈ ((g.select order).state i).targets ↔
      ∃ q ∈ (g.state p).targets, order.rank? q = some j := by
  rw [mem_targets_iff, mem_epsilons_select hp]
  simp only [moves_select hp, mem_targets_iff]
  constructor
  · rintro (⟨c, q, hq, hj⟩ | ⟨q, hq, hj⟩)
    · exact ⟨q, Or.inl ⟨c, hq⟩, hj⟩
    · exact ⟨q, Or.inr hq, hj⟩
  · rintro ⟨q, ⟨c, hq⟩ | hq, hj⟩
    · exact Or.inl ⟨c, q, hq, hj⟩
    · exact Or.inr ⟨q, hq, hj⟩

theorem valid_select (h : order.rank? p = some 0) : (g.select order).Valid := by
  rw [valid_iff, size_select]
  refine ⟨Numbering.rank?_lt_length h, fun i hi j hj => ?_⟩
  obtain ⟨q, hq⟩ := exists_rank?_of_lt (g := g) (by rwa [size_select])
  obtain ⟨r, _, hr⟩ := (mem_targets_select hq).1 hj
  exact Numbering.rank?_lt_length hr

theorem EpsilonFree.select (h : g.EpsilonFree) (order : Numbering StateId) :
    (g.select order).EpsilonFree := by
  refine epsilonFree_of_forall_lt fun i hi => ?_
  obtain ⟨p, hp⟩ := exists_rank?_of_lt hi
  rw [state_select hp]
  show (g.state p).epsilons.filterMap order.rank? = []
  rw [h]
  rfl

theorem IsDeterministic.select (h : g.IsDeterministic) (order : Numbering StateId) :
    (g.select order).IsDeterministic := by
  refine isDeterministic_of_forall_lt fun i hi => ⟨h.epsilonFree.select order i, ?_⟩
  obtain ⟨p, hp⟩ := exists_rank?_of_lt hi
  rw [state_select hp]
  refine List.pairwise_filterMap.2 ((isDeterministic_iff.1 h p).2.imp fun {d e} hde x hx y hy => ?_)
  obtain ⟨_, _, rfl⟩ := Option.map_eq_some_iff.1 hx
  obtain ⟨_, _, rfl⟩ := Option.map_eq_some_iff.1 hy
  exact hde

/-! ## Paths of a selection -/

/-- The successors of kept states that satisfy `P` are kept. -/
def Keeps (g : Automaton) (P : StateId → Prop) (order : Numbering StateId) : Prop :=
  ∀ p ∈ order, ∀ q ∈ (g.state p).targets, P q → q ∈ order

/-- A path of the selection is a path of the automaton. -/
theorem Path.of_select {w : List Char} (h : (g.select order).Path i w j)
    (hp : order.rank? p = some i) : ∃ q, g.Path p w q ∧ order.rank? q = some j := by
  have hsimulates : Simulates (fun i p => order.rank? p = some i) (g.select order) g := by
    constructor
    · intro i p j hpi hj
      exact (mem_epsilons_select hpi).1 hj
    · intro i p c j hpi hj
      exact (moves_select hpi).1 hj
  exact hsimulates.exists_path h hp

/-- A path to a state that satisfies `P` is a path of the selection, if `P` goes backwards along
    edges. -/
theorem Path.select {P : StateId → Prop} (hP : ∀ p, ∀ q ∈ (g.state p).targets, P q → P p)
    (hk : g.Keeps P order) {w : List Char} (h : g.Path p w q) (hq : P q)
    (hp : order.rank? p = some i) :
    ∃ j, order.rank? q = some j ∧ (g.select order).Path i w j := by
  induction h generalizing i with
  | nil p => exact ⟨i, hp, Path.nil i⟩
  | @epsilon p s _ _ hs hrest ih =>
    have hmem := mem_targets_of_mem_epsilons hs
    -- The rest of the path ends in `P`, so `P` holds of its first state, which is kept.
    have hPs : P s := Path.forall_targets hP hrest hq
    have hkept := hk p (Numbering.mem_of_rank? hp) s hmem hPs
    obtain ⟨k, hks⟩ := Numbering.mem_iff_exists_rank?.1 hkept
    obtain ⟨j, hj, hpath⟩ := ih hq hks
    exact ⟨j, hj, Path.epsilon ((mem_epsilons_select hp).2 ⟨s, hs, hks⟩) hpath⟩
  | @read p s _ _ _ hs hrest ih =>
    have hPs : P s := Path.forall_targets hP hrest hq
    have hkept := hk p (Numbering.mem_of_rank? hp) s hs.mem_targets hPs
    obtain ⟨k, hks⟩ := Numbering.mem_iff_exists_rank?.1 hkept
    obtain ⟨j, hj, hpath⟩ := ih hq hks
    exact ⟨j, hj, Path.read ((moves_select hp).2 ⟨s, hs, hks⟩) hpath⟩

/-- A state that is kept has its language under its new number. -/
theorem languageFrom_select (hk : g.Keeps g.Live order) (hp : order.rank? p = some i) :
    (g.select order).languageFrom i = g.languageFrom p := by
  ext w
  constructor
  · rintro ⟨j, hpath, hacc⟩
    obtain ⟨q, hpath, hq⟩ := hpath.of_select hp
    rw [isAccepting_select hq] at hacc
    exact ⟨q, hpath, hacc⟩
  · rintro ⟨q, hpath, hacc⟩
    obtain ⟨j, hj, hpath⟩ :=
      hpath.select (fun _ _ => Live.of_mem_targets) hk (live_of_isAccepting hacc) hp
    exact ⟨j, hpath, (isAccepting_select hj).trans hacc⟩

end Select

end Automaton

end RegularLanguages
