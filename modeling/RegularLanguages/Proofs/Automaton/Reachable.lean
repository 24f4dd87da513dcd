import RegularLanguages.Automaton.Reachable
import RegularLanguages.Proofs.Automaton.Path

set_option autoImplicit false

/-! # Reachable and live states

The graph searches look at edges and not at words. Since every label holds a character, an edge
is always part of a path, and the two searches find what their names say: `reachable` the states
that some word leads to (`mem_reachable`), `coreachable` the states from which some word is
accepted (`mem_coreachable`). A word is accepted if the first search meets an accepting state, so
both searches answer questions about words (`live_accepts_iff`). -/

namespace RegularLanguages.Automaton

variable {g : Automaton}

/-- Some word leads from the initial state to `p`. -/
def Reachable (g : Automaton) (p : StateId) : Prop := ∃ w, g.Path g.initial w p

/-- Some word is accepted from `p`. -/
def Live (g : Automaton) (p : StateId) : Prop := ∃ w, w ∈ g.languageFrom p

theorem reachable_initial (g : Automaton) : g.Reachable g.initial := ⟨[], Path.nil _⟩

theorem Reachable.path {p q : StateId} {w : List Char} (hp : g.Reachable p) (h : g.Path p w q) :
    g.Reachable q := by
  obtain ⟨u, hu⟩ := hp
  exact ⟨u ++ w, hu.append h⟩

theorem Reachable.lt_size (hg : g.Valid) {p : StateId} (h : g.Reachable p) : p < g.size := by
  obtain ⟨w, hw⟩ := h
  exact hw.lt_size hg hg.1

theorem Live.of_path {p q : StateId} {w : List Char} (h : g.Path p w q) (hq : g.Live q) :
    g.Live p := by
  obtain ⟨v, hv⟩ := hq
  exact ⟨w ++ v, h.languageFrom_mem hv⟩

theorem live_of_isAccepting {p : StateId} (h : g.isAccepting p = true) : g.Live p :=
  ⟨[], nil_mem_languageFrom h⟩

/-! ## Edges of both kinds -/

theorem mem_targets_iff {p q : StateId} :
    q ∈ (g.state p).targets ↔ (∃ c, g.Moves p c q) ∨ q ∈ (g.state p).epsilons := by
  constructor
  · intro h
    rcases List.mem_append.1 h with h | h
    · obtain ⟨e, he, rfl⟩ := List.mem_map.1 h
      exact Or.inl ⟨e.label.lo, Leads.of_mem he e.label.lo_mem⟩
    · exact Or.inr h
  · rintro (⟨c, h⟩ | h)
    · exact h.mem_targets
    · exact mem_targets_of_mem_epsilons h

/-- Without epsilon edges it is enough for validity that the moves lead to states. -/
theorem EpsilonFree.valid (h : g.EpsilonFree) (hinitial : g.initial < g.size)
    (hmoves : ∀ p < g.size, ∀ c q, g.Moves p c q → q < g.size) : g.Valid := by
  refine valid_iff.2 ⟨hinitial, fun p hp q hq => ?_⟩
  rcases mem_targets_iff.1 hq with ⟨c, hc⟩ | heps
  · exact hmoves p hp c q hc
  · exact absurd heps h.not_mem_epsilons

/-- An edge of either kind is a path. -/
theorem exists_path_of_mem_targets {p q : StateId} (h : q ∈ (g.state p).targets) :
    ∃ w, g.Path p w q := by
  rcases mem_targets_iff.1 h with ⟨c, h⟩ | h
  · exact ⟨[c], Path.read h (Path.nil q)⟩
  · exact ⟨[], Path.epsilon h (Path.nil q)⟩

theorem Live.of_mem_targets {p q : StateId} (h : q ∈ (g.state p).targets) (hq : g.Live q) :
    g.Live p := by
  obtain ⟨w, hw⟩ := exists_path_of_mem_targets h
  exact Live.of_path hw hq

/-- What goes backwards along edges goes backwards along paths. -/
theorem Path.forall_targets {P : StateId → Prop}
    (hP : ∀ p, ∀ q ∈ (g.state p).targets, P q → P p) {p q : StateId} {w : List Char}
    (h : g.Path p w q) (hq : P q) : P p := by
  induction h with
  | nil p => exact hq
  | epsilon hs _ ih => exact hP _ _ (mem_targets_of_mem_epsilons hs) (ih hq)
  | read hs _ ih => exact hP _ _ hs.mem_targets (ih hq)

theorem reached_targets_iff {starts : List StateId} {q : StateId} :
    Reached (fun id => (g.state id).targets) starts q ↔ ∃ p ∈ starts, ∃ w, g.Path p w q := by
  constructor
  · intro h
    induction h with
    | start hp => exact ⟨_, hp, [], Path.nil _⟩
    | next _ hq ih =>
      obtain ⟨p, hp, u, hu⟩ := ih
      obtain ⟨v, hv⟩ := exists_path_of_mem_targets hq
      exact ⟨p, hp, u ++ v, hu.append hv⟩
  · rintro ⟨p, hp, w, hw⟩
    have hstart : Reached (fun id => (g.state id).targets) starts p := Reached.start hp
    clear hp
    induction hw with
    | nil p => exact hstart
    | epsilon hs _ ih => exact ih (hstart.next (mem_targets_of_mem_epsilons hs))
    | read hs _ ih => exact ih (hstart.next hs.mem_targets)

theorem reached_initial_iff {q : StateId} :
    Reached (fun id => (g.state id).targets) [g.initial] q ↔ g.Reachable q := by
  rw [reached_targets_iff]
  simp only [List.mem_singleton, exists_eq_left]
  rfl

/-- No more nodes are reached than there are states. -/
theorem length_le_of_reached (hg : g.Valid) (xs : List StateId) (hnodup : xs.Nodup)
    (hxs : ∀ x ∈ xs, Reached (fun id => (g.state id).targets) [g.initial] x) :
    xs.length ≤ g.size :=
  length_le_of_forall_lt hnodup fun x hx => (reached_initial_iff.1 (hxs x hx)).lt_size hg

theorem mem_reachable (hg : g.Valid) {p : StateId} : p ∈ g.reachable ↔ g.Reachable p := by
  have hinitial : [g.initial].filter (fun id => id < g.size) = [g.initial] := by
    simpa using hg.1
  unfold reachable
  rw [hinitial, StateSet.mem_ofNumbering, mem_explore_iff (length_le_of_reached hg),
    reached_initial_iff]

/-! ## Live states -/

theorem mem_valuesAt {β : Type} {i : Nat} {entries : List (Nat × β)} {value : β} :
    value ∈ valuesAt i entries ↔ (i, value) ∈ entries := by
  unfold valuesAt
  rw [List.mem_filterMap]
  constructor
  · rintro ⟨⟨j, v⟩, hmem, hv⟩
    simp only [Option.ite_none_right_eq_some, Option.some.injEq] at hv
    obtain ⟨rfl, rfl⟩ := hv
    exact hmem
  · intro hmem
    exact ⟨(i, value), hmem, by simp⟩

/-- The values that the states put into the bucket of `i`: one for each of the things `f` lists,
    `k` says into which bucket. -/
theorem mem_valuesAt_states {β γ : Type} {f : State → List γ} {k : γ → Nat} {v : γ → StateId → β}
    {i : Nat} {value : β} :
    value ∈ valuesAt i (g.toList.zipIdx.flatMap fun (s, id) => (f s).map fun x => (k x, v x id)) ↔
      ∃ id < g.size, ∃ x ∈ f (g.state id), k x = i ∧ v x id = value := by
  rw [mem_valuesAt, List.mem_flatMap]
  constructor
  · rintro ⟨⟨s, id⟩, hs, hmem⟩
    obtain ⟨x, hx, heq⟩ := List.mem_map.1 hmem
    obtain ⟨hid, rfl⟩ := mem_zipIdx_toList.1 hs
    exact ⟨id, hid, x, hx, (Prod.mk.inj heq).1, (Prod.mk.inj heq).2⟩
  · rintro ⟨id, hid, x, hx, rfl, rfl⟩
    exact ⟨(g.state id, id), mem_zipIdx_toList.2 ⟨hid, rfl⟩, List.mem_map.2 ⟨x, hx, rfl⟩⟩

theorem mem_sources {source target : StateId} (htarget : target < g.size) :
    source ∈ g.sources[target]?.getD [] ↔ target ∈ (g.state source).targets := by
  unfold sources
  rw [buckets_getElem?, if_pos htarget, Option.getD_some]
  refine (mem_valuesAt_states (f := State.targets) (k := id) (v := fun _ id => id)).trans ?_
  constructor
  · rintro ⟨id, _, t, ht, rfl, rfl⟩
    exact ht
  · intro ht
    exact ⟨source, lt_size_of_mem_targets ht, target, ht, rfl, rfl⟩

theorem mem_acceptingStates {p : StateId} : p ∈ g.acceptingStates ↔ g.isAccepting p = true := by
  unfold acceptingStates
  rw [mem_statesWhere]
  constructor
  · rintro ⟨s, hs, hacc⟩
    rw [isAccepting, state_of_getElem? hs]
    exact hacc
  · intro h
    exact ⟨g.state p, getElem?_states (lt_size_of_isAccepting h), h⟩

theorem lt_size_of_live {p : StateId} (h : g.Live p) : p < g.size := by
  obtain ⟨w, q, hpath, hacc⟩ := h
  cases hpath with
  | nil => exact lt_size_of_isAccepting hacc
  | epsilon hs _ => exact lt_size_of_mem_targets (mem_targets_of_mem_epsilons hs)
  | read hs _ => exact lt_size_of_mem_targets hs.mem_targets

theorem reached_sources_iff (hg : g.Valid) {p : StateId} :
    Reached (fun id => g.sources[id]?.getD []) g.acceptingStates p ↔ g.Live p := by
  constructor
  · intro h
    induction h with
    | start hp => exact live_of_isAccepting (mem_acceptingStates.1 hp)
    | next _ hq ih => exact Live.of_mem_targets ((mem_sources (lt_size_of_live ih)).1 hq) ih
  · rintro ⟨w, q, hpath, hacc⟩
    -- The induction runs along the path: what its rest reaches backwards, its first edge extends.
    induction hpath with
    | nil p => exact Reached.start (mem_acceptingStates.2 hacc)
    | epsilon hs _ ih =>
      have ht := mem_targets_of_mem_epsilons hs
      exact (ih hacc).next ((mem_sources (hg.target_lt ht)).2 ht)
    | read hs _ ih =>
      have ht := hs.mem_targets
      exact (ih hacc).next ((mem_sources (hg.target_lt ht)).2 ht)

theorem mem_coreachable (hg : g.Valid) {p : StateId} : p ∈ g.coreachable ↔ g.Live p := by
  unfold coreachable
  rw [mem_explore_iff, reached_sources_iff hg]
  intro xs hnodup hxs
  exact length_le_of_forall_lt hnodup fun x hx =>
    lt_size_of_live ((reached_sources_iff hg).1 (hxs x hx))

/-- Started from a live state and from no other one, the automaton accepts some word. -/
theorem live_iff_exists_accepts (hg : g.Valid) {p : StateId} :
    g.Live p ↔ p < g.size ∧ ∃ w, (g.startingAt p).accepts w = true := by
  have haccepts : p < g.size →
      ((∃ w, (g.startingAt p).accepts w = true) ↔ g.Live p) := by
    intro hp
    simp only [accepts_iff_mem_language (hg.startingAt hp), language_startingAt]
    exact Iff.rfl
  constructor
  · intro h
    have hp := lt_size_of_live h
    exact ⟨hp, (haccepts hp).2 h⟩
  · intro h
    exact (haccepts h.1).1 h.2

/-! ## Empty languages -/

/-- A word is accepted if an accepting state can be reached. -/
theorem live_initial_iff_exists_reachable :
    g.Live g.initial ↔ ∃ p, g.Reachable p ∧ g.isAccepting p = true := by
  constructor
  · intro h
    obtain ⟨w, p, hpath, hacc⟩ := h
    exact ⟨p, ⟨w, hpath⟩, hacc⟩
  · intro h
    obtain ⟨p, ⟨w, hpath⟩, hacc⟩ := h
    exact ⟨w, p, hpath, hacc⟩

theorem not_live_initial_iff (hg : g.Valid) :
    ¬ g.Live g.initial ↔ ∀ w, g.accepts w = false := by
  unfold Live
  rw [not_exists]
  refine forall_congr' fun w => ?_
  rw [← Bool.not_eq_true, accepts_iff_mem_language hg]
  rfl

theorem isEmptyLanguage_iff (hg : g.Valid) : g.isEmptyLanguage = true ↔ ¬ g.Live g.initial := by
  unfold isEmptyLanguage
  rw [Bool.not_eq_true', ← Bool.not_eq_true, anyAccepting_iff, live_initial_iff_exists_reachable]
  simp only [mem_reachable hg]

/-- The forward search finds no accepting state if and only if no word is accepted, and the
    backward search finds the states from which some word is accepted. -/
theorem live_accepts_iff (hg : g.Valid) :
    (g.isEmptyLanguage = true ↔ ∀ w, g.accepts w = false) ∧
      ∀ p, p ∈ g.live ↔ p < g.size ∧ ∃ w, (g.startingAt p).accepts w = true := by
  refine ⟨(isEmptyLanguage_iff hg).trans (not_live_initial_iff hg), fun p => ?_⟩
  unfold live
  rw [StateSet.mem_ofNumbering, mem_coreachable hg]
  exact live_iff_exists_accepts hg

/-- State 0 is live and state 3 accepts, but the initial state only goes round a cycle of edges of
    both kinds. -/
def whirl : Automaton where
  states := #[{ edges := [⟨.single 'a', 1⟩, ⟨.single 'b', 3⟩, ⟨.single 'b', 3⟩] },
    { epsilons := [2, 2] }, { edges := [⟨.single 'a', 1⟩, ⟨.single 'a', 2⟩] },
    { accepting := true, epsilons := [0, 1] }]
  initial := 1

theorem live_accepts_iff_whirl :
    whirl.Valid ∧
      (whirl.isEmptyLanguage = true ↔ ∀ w, whirl.accepts w = false) ∧
      ∀ p, p ∈ whirl.live ↔ p < whirl.size ∧ ∃ w, (whirl.startingAt p).accepts w = true :=
  ⟨by decide, live_accepts_iff (by decide)⟩

end RegularLanguages.Automaton
