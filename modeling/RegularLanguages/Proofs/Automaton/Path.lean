import Mathlib.Computability.Language
import RegularLanguages.Automaton.Run
import RegularLanguages.Proofs.Automaton.Edge
import RegularLanguages.Proofs.Exploration

set_option autoImplicit false

/-! # Paths

A run follows sets of states. The same thing said of single states is a path: from one state to
another along edges that spell a word, with epsilon edges in between. `mem_run_closureOf` says
that a run holds exactly the ends of the paths, so an automaton accepts the words that some path
from the initial state to an accepting one spells (`accepts_iff_mem_language`).

`languageFrom` collects these words for every state. It is the least family of languages that is
closed under the edges (`languageFrom_le`), which is how inclusions between languages are shown
below: by induction on a path, whatever the automaton. -/

namespace RegularLanguages

attribute [ext] State

theorem State.targets_retarget (f : StateId → StateId) (s : State) :
    (s.retarget f).targets = s.targets.map f := by
  unfold State.targets State.retarget
  rw [List.map_append, List.map_map, List.map_map]
  rfl

namespace Automaton

variable {g : Automaton}

/-! ## States by their numbers -/

theorem getElem?_states {id : StateId} (h : id < g.size) : g.states[id]? = some (g.state id) := by
  have hget : g.states[id]? = some (g.states[id]) := Array.getElem?_eq_getElem h
  rw [state, hget]
  rfl

theorem state_of_getElem? {id : StateId} {s : State} (h : g.states[id]? = some s) :
    g.state id = s := by
  rw [state, h]
  rfl

/-- Automata are equal if they have the same states under the same numbers. -/
theorem eq_of_state_eq {h : Automaton} (hsize : g.size = h.size) (hinitial : g.initial = h.initial)
    (hstate : ∀ id < g.size, g.state id = h.state id) : g = h := by
  have hstates : g.states = h.states := by
    refine Array.ext hsize fun id hg hh => Option.some.inj ?_
    rw [← Array.getElem?_eq_getElem hg, ← Array.getElem?_eq_getElem hh, getElem?_states hg,
      getElem?_states hh, hstate id hg]
  cases g; cases h
  rw [Automaton.mk.injEq]
  exact ⟨hstates, hinitial⟩

theorem state_of_size_le {id : StateId} (h : g.size ≤ id) : g.state id = {} := by
  rw [state, Array.getElem?_eq_none h]
  rfl

theorem mem_toList_iff {s : State} : s ∈ g.toList ↔ ∃ id, id < g.size ∧ g.state id = s := by
  rw [toList, Array.mem_toList_iff, Array.mem_iff_getElem]
  constructor
  · rintro ⟨id, hid, hs⟩
    exact ⟨id, hid, state_of_getElem? (hs ▸ Array.getElem?_eq_getElem hid)⟩
  · rintro ⟨id, hid, hs⟩
    refine ⟨id, hid, ?_⟩
    have hget := getElem?_states hid
    rw [Array.getElem?_eq_getElem hid, hs] at hget
    exact Option.some.inj hget

theorem state_ofList {states : List State} {id : StateId} {s : State}
    (h : states[id]? = some s) : (ofList states).state id = s := by
  apply state_of_getElem?
  rw [ofList, List.getElem?_toArray]
  exact h

theorem size_ofList (states : List State) : (ofList states).size = states.length := by
  rw [size, ofList, List.size_toArray]

section Numbering

variable {α : Type} [Ord α] {order : Numbering α} {f : α → State}

/-! Numbered things that become states keep their numbers. -/

theorem size_ofList_map : (ofList (order.toList.map f)).size = order.toList.length := by
  rw [size_ofList, List.length_map]

theorem state_ofList_map {x : α} {i : StateId} (h : order.rank? x = some i) :
    (ofList (order.toList.map f)).state i = f x := by
  apply state_ofList
  rw [List.getElem?_map, Numbering.rank?_eq_some_iff.1 h]
  rfl

end Numbering

theorem mem_zipIdx_toList {s : State} {id : StateId} :
    (s, id) ∈ g.toList.zipIdx ↔ id < g.size ∧ g.state id = s := by
  rw [List.mem_zipIdx_iff_getElem?, toList, Array.getElem?_toList]
  constructor
  · intro h
    exact ⟨(Array.getElem?_eq_some_iff.1 h).1, state_of_getElem? h⟩
  · rintro ⟨hid, rfl⟩
    exact getElem?_states hid

theorem valid_iff : g.Valid ↔
    g.initial < g.size ∧ ∀ id < g.size, ∀ target ∈ (g.state id).targets, target < g.size := by
  refine and_congr_right fun _ => ?_
  simp only [mem_toList_iff]
  constructor
  · intro h id hid
    exact h _ ⟨id, hid, rfl⟩
  · rintro h _ ⟨id, hid, rfl⟩
    exact h id hid

theorem lt_size_of_mem_targets {id target : StateId} (ht : target ∈ (g.state id).targets) :
    id < g.size := by
  by_contra hid
  rw [state_of_size_le (Nat.le_of_not_lt hid)] at ht
  exact absurd ht List.not_mem_nil

theorem Valid.target_lt (h : g.Valid) {id target : StateId}
    (ht : target ∈ (g.state id).targets) : target < g.size :=
  (valid_iff.1 h).2 id (lt_size_of_mem_targets ht) target ht

theorem danglingEdge?_eq_none_iff : g.danglingEdge? = none ↔
    ∀ id, ∀ target ∈ (g.state id).targets, target < g.size := by
  have hfind : ∀ s : State, ∀ id : StateId,
      ((s.targets.find? fun target => g.size ≤ target).map fun target => (id, target)) = none ↔
        ∀ target ∈ s.targets, target < g.size := by
    intro s id
    rw [Option.map_eq_none_iff, List.find?_eq_none]
    simp only [decide_eq_true_eq, Nat.not_le]
  unfold danglingEdge?
  rw [List.findSome?_eq_none_iff]
  simp only [Prod.forall, hfind]
  constructor
  · intro h id target ht
    have hid := lt_size_of_mem_targets ht
    exact h _ id (mem_zipIdx_toList.2 ⟨hid, rfl⟩) target ht
  · intro h s id hs
    obtain ⟨_, rfl⟩ := mem_zipIdx_toList.1 hs
    exact h id

/-- Validation lets exactly the valid automata pass. -/
theorem validate_eq_ok_iff : g.validate = .ok () ↔ g.Valid := by
  unfold validate
  rw [valid_iff]
  split
  · rename_i hinitial
    exact ⟨fun h => (by cases h), fun h => absurd h.1 (Nat.not_lt.2 hinitial)⟩
  · rename_i hinitial
    split
    · rename_i source target hdangling
      refine ⟨fun h => (by cases h), fun h => ?_⟩
      have hnone : g.danglingEdge? = none :=
        danglingEdge?_eq_none_iff.2 fun id target ht => h.2 id (lt_size_of_mem_targets ht) target ht
      rw [hnone] at hdangling
      cases hdangling
    · rename_i hdangling
      refine ⟨fun _ => ⟨Nat.lt_of_not_le hinitial, fun id _ => ?_⟩, fun _ => rfl⟩
      exact danglingEdge?_eq_none_iff.1 hdangling id

theorem isDeterministic_of_forall_lt (h : ∀ id < g.size, (g.state id).IsDeterministic) :
    g.IsDeterministic := by
  intro s hs
  obtain ⟨id, hid, rfl⟩ := mem_toList_iff.1 hs
  exact h id hid

theorem isDeterministic_iff : g.IsDeterministic ↔ ∀ id, (g.state id).IsDeterministic := by
  constructor
  · intro h id
    by_cases hid : id < g.size
    · exact h _ (mem_toList_iff.2 ⟨id, hid, rfl⟩)
    · rw [state_of_size_le (Nat.le_of_not_lt hid)]
      exact ⟨rfl, List.Pairwise.nil⟩
  · intro h
    exact isDeterministic_of_forall_lt fun id _ => h id

theorem IsDeterministic.epsilons_eq_nil (h : g.IsDeterministic) (id : StateId) :
    (g.state id).epsilons = [] :=
  (isDeterministic_iff.1 h id).1

/-- No state has an epsilon edge. -/
def EpsilonFree (g : Automaton) : Prop := ∀ id, (g.state id).epsilons = []

theorem IsDeterministic.epsilonFree (hg : g.IsDeterministic) : g.EpsilonFree := hg.epsilons_eq_nil

theorem epsilonFree_of_forall_lt (h : ∀ id < g.size, (g.state id).epsilons = []) :
    g.EpsilonFree := by
  intro id
  by_cases hid : id < g.size
  · exact h id hid
  · rw [state_of_size_le (Nat.le_of_not_lt hid)]

theorem EpsilonFree.not_mem_epsilons (h : g.EpsilonFree) {id target : StateId} :
    target ∉ (g.state id).epsilons := by
  rw [h]
  exact List.not_mem_nil

theorem IsDeterministic.functional (h : g.IsDeterministic) (id : StateId) :
    Functional (g.state id).edges :=
  functional_of_pairwise_disjoint (isDeterministic_iff.1 h id).2

theorem lt_size_of_isAccepting {id : StateId} (h : g.isAccepting id = true) : id < g.size := by
  by_contra hid
  rw [isAccepting, state_of_size_le (Nat.le_of_not_lt hid)] at h
  exact absurd h Bool.false_ne_true

/-! ## Paths and languages -/

/-- Some edge of `p` reads `c` and leads to `q`. -/
def Moves (g : Automaton) (p : StateId) (c : Char) (q : StateId) : Prop :=
  Leads (g.state p).edges c q

theorem Moves.mem_targets {p q : StateId} {c : Char} (h : g.Moves p c q) :
    q ∈ (g.state p).targets := by
  obtain ⟨e, he, _, rfl⟩ := h
  exact List.mem_append_left _ (List.mem_map.2 ⟨e, he, rfl⟩)

theorem mem_targets_of_mem_epsilons {p q : StateId} (h : q ∈ (g.state p).epsilons) :
    q ∈ (g.state p).targets :=
  List.mem_append_right _ h

/-- The initial state leads back to itself on `c`. -/
def Loops (g : Automaton) (c : Char) : Prop := g.Moves g.initial c g.initial

/-- A path from one state to another whose labelled edges spell the word. -/
inductive Path (g : Automaton) : StateId → List Char → StateId → Prop where
  | nil (p : StateId) : Path g p [] p
  | epsilon {p q r : StateId} {w : List Char} :
      q ∈ (g.state p).epsilons → Path g q w r → Path g p w r
  | read {p q r : StateId} {c : Char} {w : List Char} :
      g.Moves p c q → Path g q w r → Path g p (c :: w) r

/-- The words that lead from a state to an accepting one. -/
def languageFrom (g : Automaton) (p : StateId) : Language Char :=
  {w | ∃ q, g.Path p w q ∧ g.isAccepting q = true}

/-- The words that lead from the initial state to an accepting one. -/
def language (g : Automaton) : Language Char := g.languageFrom g.initial

theorem mem_languageFrom {p : StateId} {w : List Char} :
    w ∈ g.languageFrom p ↔ ∃ q, g.Path p w q ∧ g.isAccepting q = true :=
  Iff.rfl

theorem nil_mem_languageFrom {p : StateId} (h : g.isAccepting p = true) :
    [] ∈ g.languageFrom p :=
  ⟨p, Path.nil p, h⟩

theorem Path.append {p q r : StateId} {u v : List Char} (hu : g.Path p u q) (hv : g.Path q v r) :
    g.Path p (u ++ v) r := by
  induction hu with
  | nil p => exact hv
  | epsilon hq _ ih => exact Path.epsilon hq (ih hv)
  | read hq _ ih => exact Path.read hq (ih hv)

/-- A path that reads a character has a first labelled edge. -/
theorem Path.exists_moves {p r : StateId} {c : Char} {w : List Char} (h : g.Path p (c :: w) r) :
    ∃ q q', g.Path p [] q ∧ g.Moves q c q' ∧ g.Path q' w r := by
  generalize hcw : c :: w = word at h
  induction h with
  | nil p => exact absurd hcw (List.cons_ne_nil c w)
  | epsilon hq _ ih =>
    obtain ⟨q, q', hpath, hmoves, hrest⟩ := ih hcw
    exact ⟨q, q', Path.epsilon hq hpath, hmoves, hrest⟩
  | @read p q' r d v hq hrest =>
    obtain ⟨rfl, rfl⟩ := List.cons.inj hcw
    exact ⟨p, q', Path.nil p, hq, hrest⟩

/-- A path that spells two words passes a state between them. -/
theorem Path.exists_append {p r : StateId} {u v : List Char} (h : g.Path p (u ++ v) r) :
    ∃ q, g.Path p u q ∧ g.Path q v r := by
  induction u generalizing p with
  | nil => exact ⟨p, Path.nil p, h⟩
  | cons c u ih =>
    obtain ⟨q, q', hq, hmoves, hrest⟩ := h.exists_moves
    obtain ⟨s, hu, hv⟩ := ih hrest
    exact ⟨s, hq.append (Path.read hmoves hu), hv⟩

theorem Path.lt_size (hg : g.Valid) {p q : StateId} {w : List Char} (h : g.Path p w q)
    (hp : p < g.size) : q < g.size := by
  induction h with
  | nil p => exact hp
  | epsilon hq _ ih => exact ih (hg.target_lt (mem_targets_of_mem_epsilons hq))
  | read hq _ ih => exact ih (hg.target_lt hq.mem_targets)

/-- Where a word leads in a deterministic automaton. -/
theorem Path.unique (hg : g.IsDeterministic) {p q r : StateId} {w : List Char}
    (hq : g.Path p w q) (hr : g.Path p w r) : q = r := by
  induction hq with
  | nil p =>
    cases hr with
    | nil => rfl
    | epsilon hs _ => exact absurd hs hg.epsilonFree.not_mem_epsilons
  | epsilon hs _ _ => exact absurd hs hg.epsilonFree.not_mem_epsilons
  | read hs _ ih =>
    cases hr with
    | epsilon ht _ => exact absurd ht hg.epsilonFree.not_mem_epsilons
    | read ht hr =>
      have hst := hg.functional _ _ _ _ hs ht
      subst hst
      exact ih hr

theorem Path.languageFrom_mem {p q : StateId} {u v : List Char} (hu : g.Path p u q)
    (hv : v ∈ g.languageFrom q) : u ++ v ∈ g.languageFrom p := by
  obtain ⟨r, hr, hacc⟩ := hv
  exact ⟨r, hu.append hr, hacc⟩

/-- What a deterministic automaton accepts after `u` are the ends of the accepted words that
    start with `u`. -/
theorem Path.mem_languageFrom_iff (hg : g.IsDeterministic) {p q : StateId} {u v : List Char}
    (hu : g.Path p u q) : v ∈ g.languageFrom q ↔ u ++ v ∈ g.languageFrom p := by
  refine ⟨hu.languageFrom_mem, fun h => ?_⟩
  obtain ⟨r, hr, hacc⟩ := h
  -- The state that the word passes after `u` can only be `q`.
  obtain ⟨s, hs, hrest⟩ := hr.exists_append
  rw [hu.unique hg hs]
  exact ⟨r, hrest, hacc⟩

/-- How a word is accepted: at once, after an epsilon edge, or after a labelled edge. -/
theorem mem_languageFrom_iff {p : StateId} {w : List Char} : w ∈ g.languageFrom p ↔
    (g.isAccepting p = true ∧ w = []) ∨ (∃ q ∈ (g.state p).epsilons, w ∈ g.languageFrom q) ∨
      ∃ c v q, w = c :: v ∧ g.Moves p c q ∧ v ∈ g.languageFrom q := by
  constructor
  · rintro ⟨r, hr, hacc⟩
    cases hr with
    | nil => exact Or.inl ⟨hacc, rfl⟩
    | epsilon hs hr => exact Or.inr (Or.inl ⟨_, hs, r, hr, hacc⟩)
    | read hs hr => exact Or.inr (Or.inr ⟨_, _, _, rfl, hs, r, hr, hacc⟩)
  · rintro (⟨hacc, rfl⟩ | ⟨q, hq, hw⟩ | ⟨c, v, q, rfl, hq, hv⟩)
    · exact nil_mem_languageFrom hacc
    · exact (Path.epsilon hq (Path.nil q)).languageFrom_mem hw
    · exact (Path.read hq (Path.nil q)).languageFrom_mem hv

/-- From a state without labelled edges only epsilon edges lead on. -/
theorem mem_languageFrom_of_edges_eq_nil {p : StateId} {w : List Char}
    (h : (g.state p).edges = []) : w ∈ g.languageFrom p ↔
      (g.isAccepting p = true ∧ w = []) ∨ ∃ q ∈ (g.state p).epsilons, w ∈ g.languageFrom q := by
  rw [mem_languageFrom_iff]
  refine or_congr_right (or_iff_left fun hmoves => ?_)
  obtain ⟨_, _, _, _, ⟨e, he, _⟩, _⟩ := hmoves
  rw [h] at he
  exact absurd he List.not_mem_nil

theorem Moves.path {p q : StateId} {c : Char} (h : g.Moves p c q) : g.Path p [c] q :=
  Path.read h (Path.nil q)

/-- Where a deterministic automaton moves, the rest of the word decides. -/
theorem Moves.cons_mem_languageFrom_iff (hg : g.IsDeterministic) {p q : StateId} {c : Char}
    {w : List Char} (h : g.Moves p c q) : c :: w ∈ g.languageFrom p ↔ w ∈ g.languageFrom q :=
  (h.path.mem_languageFrom_iff hg).symm

/-- The first character of an accepted word is read after epsilon edges. -/
theorem mem_languageFrom_cons_iff {p : StateId} {c : Char} {w : List Char} :
    c :: w ∈ g.languageFrom p ↔
      ∃ q q', g.Path p [] q ∧ g.Moves q c q' ∧ w ∈ g.languageFrom q' := by
  constructor
  · intro h
    obtain ⟨r, hr, hacc⟩ := h
    obtain ⟨q, q', hq, hmoves, hrest⟩ := hr.exists_moves
    exact ⟨q, q', hq, hmoves, r, hrest, hacc⟩
  · intro h
    obtain ⟨q, q', hq, hmoves, hw⟩ := h
    exact (hq.append hmoves.path).languageFrom_mem hw

/-! ## Automata without epsilon edges -/

theorem hasEpsilons_eq_false_iff : g.hasEpsilons = false ↔ g.EpsilonFree := by
  unfold hasEpsilons
  simp only [List.any_eq_false, Bool.not_eq_true', Bool.not_eq_false, List.isEmpty_iff]
  constructor
  · intro h
    exact epsilonFree_of_forall_lt fun id hid => h _ (mem_toList_iff.2 ⟨id, hid, rfl⟩)
  · intro h s hs
    obtain ⟨id, _, rfl⟩ := mem_toList_iff.1 hs
    exact h id

/-- Without epsilon edges nothing is reached without reading. -/
theorem EpsilonFree.eq_of_path_nil (hg : g.EpsilonFree) {p q : StateId} (h : g.Path p [] q) :
    q = p := by
  cases h with
  | nil => rfl
  | epsilon hs _ => exact absurd hs hg.not_mem_epsilons

theorem EpsilonFree.nil_mem_languageFrom_iff (hg : g.EpsilonFree) {p : StateId} :
    [] ∈ g.languageFrom p ↔ g.isAccepting p = true := by
  constructor
  · intro h
    obtain ⟨q, hq, hacc⟩ := h
    rwa [hg.eq_of_path_nil hq] at hacc
  · exact nil_mem_languageFrom

theorem EpsilonFree.cons_mem_languageFrom_iff (hg : g.EpsilonFree) {p : StateId} {c : Char}
    {w : List Char} : c :: w ∈ g.languageFrom p ↔ ∃ q, g.Moves p c q ∧ w ∈ g.languageFrom q := by
  rw [mem_languageFrom_cons_iff]
  constructor
  · intro h
    obtain ⟨r, q, hr, hmoves, hw⟩ := h
    rw [hg.eq_of_path_nil hr] at hmoves
    exact ⟨q, hmoves, hw⟩
  · intro h
    obtain ⟨q, hmoves, hw⟩ := h
    exact ⟨p, q, Path.nil p, hmoves, hw⟩

/-! ## Languages as least families -/

/-- `languageFrom` is the least family of languages that is closed under the edges. -/
theorem languageFrom_le {L : StateId → Language Char}
    (hacc : ∀ p, g.isAccepting p = true → [] ∈ L p)
    (heps : ∀ p, ∀ q ∈ (g.state p).epsilons, ∀ w ∈ g.languageFrom q, w ∈ L q → w ∈ L p)
    (hread : ∀ p c q, g.Moves p c q → ∀ w ∈ g.languageFrom q, w ∈ L q → c :: w ∈ L p)
    {p : StateId} {w : List Char} (h : w ∈ g.languageFrom p) : w ∈ L p := by
  obtain ⟨q, hq, hq_acc⟩ := h
  induction hq with
  | nil p => exact hacc p hq_acc
  | epsilon hs hrest ih => exact heps _ _ hs _ ⟨_, hrest, hq_acc⟩ (ih hq_acc)
  | read hs hrest ih => exact hread _ _ _ hs _ ⟨_, hrest, hq_acc⟩ (ih hq_acc)

/-! ## Another initial state -/

/-- The automaton started from the state `p`. -/
def startingAt (g : Automaton) (p : StateId) : Automaton := { g with initial := p }

theorem Path.of_state_eq {h : Automaton} (hstate : ∀ id, g.state id = h.state id) {p q : StateId}
    {w : List Char} (hpath : g.Path p w q) : h.Path p w q := by
  induction hpath with
  | nil p => exact Path.nil p
  | epsilon hs _ ih =>
    rw [hstate] at hs
    exact Path.epsilon hs ih
  | read hs _ ih =>
    unfold Moves at hs
    rw [hstate] at hs
    exact Path.read hs ih

/-- Started from `p`, the automaton has the language of `p`. -/
theorem language_startingAt (g : Automaton) (p : StateId) :
    (g.startingAt p).language = g.languageFrom p := by
  have hstate : ∀ id, (g.startingAt p).state id = g.state id := fun _ => rfl
  ext w
  constructor
  · intro h
    obtain ⟨q, hpath, hacc⟩ := h
    exact ⟨q, hpath.of_state_eq hstate, hacc⟩
  · intro h
    obtain ⟨q, hpath, hacc⟩ := h
    exact ⟨q, hpath.of_state_eq fun id => (hstate id).symm, hacc⟩

theorem Valid.startingAt (hg : g.Valid) {p : StateId} (hp : p < g.size) :
    (g.startingAt p).Valid :=
  ⟨hp, hg.2⟩

/-! ## Simulation

A relation along which the edges of one automaton can be followed in another carries over paths,
and with acceptance also words. -/

/-- Wherever an edge leads, an edge from a related state leads to a related state. -/
structure Simulates (R : StateId → StateId → Prop) (g h : Automaton) : Prop where
  epsilon : ∀ {p i q}, R p i → q ∈ (g.state p).epsilons → ∃ j ∈ (h.state i).epsilons, R q j
  read : ∀ {p i c q}, R p i → g.Moves p c q → ∃ j, h.Moves i c j ∧ R q j

section Simulates

variable {h : Automaton} {R : StateId → StateId → Prop}

/-- Without epsilon edges only the labelled ones are to be followed. -/
theorem IsDeterministic.simulates (hg : g.IsDeterministic)
    (hread : ∀ {p i c q}, R p i → g.Moves p c q → ∃ j, h.Moves i c j ∧ R q j) :
    Simulates R g h where
  epsilon _ hq := absurd hq hg.epsilonFree.not_mem_epsilons
  read := hread

theorem Simulates.exists_path (hR : Simulates R g h) {p q i : StateId} {w : List Char}
    (hpath : g.Path p w q) (hpi : R p i) : ∃ j, h.Path i w j ∧ R q j := by
  induction hpath generalizing i with
  | nil p => exact ⟨i, Path.nil i, hpi⟩
  | epsilon hs _ ih =>
    obtain ⟨k, hk, hsk⟩ := hR.epsilon hpi hs
    obtain ⟨j, hj, hqj⟩ := ih hsk
    exact ⟨j, Path.epsilon hk hj, hqj⟩
  | read hs _ ih =>
    obtain ⟨k, hk, hsk⟩ := hR.read hpi hs
    obtain ⟨j, hj, hqj⟩ := ih hsk
    exact ⟨j, Path.read hk hj, hqj⟩

theorem Simulates.mem_languageFrom (hR : Simulates R g h)
    (hacc : ∀ {p i}, R p i → g.isAccepting p = true → h.isAccepting i = true) {p i : StateId}
    (hpi : R p i) {w : List Char} (hw : w ∈ g.languageFrom p) : w ∈ h.languageFrom i := by
  obtain ⟨q, hq, hqacc⟩ := hw
  obtain ⟨j, hj, hqj⟩ := hR.exists_path hq hpi
  exact ⟨j, hj, hacc hqj hqacc⟩

end Simulates

/-! ## Runs -/

/-- There are at most `n` different numbers below `n`. -/
theorem length_le_of_forall_lt {n : Nat} {xs : List StateId} (h : xs.Nodup)
    (hlt : ∀ x ∈ xs, x < n) : xs.length ≤ n := by
  have hsub : xs ⊆ List.range n := fun x hx => List.mem_range.2 (hlt x hx)
  have := (h.subperm hsub).length_le
  rwa [List.length_range] at this

theorem reached_epsilons_iff {states : List StateId} {q : StateId} :
    Reached (fun id => (g.state id).epsilons) states q ↔ ∃ p ∈ states, g.Path p [] q := by
  constructor
  · intro h
    induction h with
    | start hp => exact ⟨_, hp, Path.nil _⟩
    | next _ hq ih =>
      obtain ⟨p, hp, hpath⟩ := ih
      exact ⟨p, hp, hpath.append (Path.epsilon hq (Path.nil _))⟩
  · rintro ⟨p, hp, hpath⟩
    have hstart : Reached (fun id => (g.state id).epsilons) states p := Reached.start hp
    clear hp
    -- The word is a variable in the induction, for a path may read before it ends.
    generalize hw : ([] : List Char) = w at hpath
    induction hpath with
    | nil p => exact hstart
    | epsilon hs _ ih => exact ih (hstart.next hs) hw
    | read _ _ _ => exact absurd hw.symm (List.cons_ne_nil _ _)

/-- The closure of some states holds what is reached from them without reading. -/
theorem mem_closureOf (hg : g.Valid) {states : List StateId} {q : StateId} :
    q ∈ g.closureOf states ↔ ∃ p ∈ states, p < g.size ∧ g.Path p [] q := by
  unfold closureOf
  rw [StateSet.mem_ofNumbering, mem_explore_iff]
  · rw [reached_epsilons_iff]
    simp only [List.mem_filter, decide_eq_true_eq, and_assoc]
  · intro xs hnodup hxs
    refine length_le_of_forall_lt hnodup fun x hx => ?_
    obtain ⟨p, hp, hpath⟩ := reached_epsilons_iff.1 (hxs x hx)
    exact hpath.lt_size hg (by simpa using (List.mem_filter.1 hp).2)

theorem mem_successors {states : StateSet} {c : Char} {q : StateId} :
    q ∈ g.successors states c ↔ ∃ p ∈ states, g.Moves p c q := by
  unfold successors
  rw [List.mem_flatMap]
  refine exists_congr fun p => and_congr_right fun _ => ?_
  rw [List.mem_filterMap]
  refine exists_congr fun e => and_congr_right fun _ => ?_
  simp

/-- One step of a run reads the character and then follows epsilon edges. -/
theorem mem_step (hg : g.Valid) {states : StateSet} {c : Char} {q : StateId} :
    q ∈ g.step states c ↔ ∃ p ∈ states, ∃ r, g.Moves p c r ∧ g.Path r [] q := by
  unfold step
  rw [mem_closureOf hg]
  simp only [mem_successors]
  constructor
  · intro h
    obtain ⟨r, ⟨p, hp, hmoves⟩, _, hpath⟩ := h
    exact ⟨p, hp, r, hmoves, hpath⟩
  · intro h
    obtain ⟨p, hp, r, hmoves, hpath⟩ := h
    exact ⟨r, ⟨p, hp, hmoves⟩, hg.target_lt hmoves.mem_targets, hpath⟩

/-- From no state at all nothing is reached. -/
theorem step_of_isEmpty (hg : g.Valid) {states : StateSet} (h : states.isEmpty = true) (c : Char) :
    g.step states c = states := by
  have hnone : ∀ p, p ∉ states := by
    intro p hp
    rw [← StateSet.mem_toList, List.isEmpty_iff.1 h] at hp
    exact List.not_mem_nil hp
  refine StateSet.ext fun q => iff_of_false (fun hq => ?_) (hnone q)
  obtain ⟨p, hp, _⟩ := (mem_step hg).1 hq
  exact hnone p hp

theorem run_of_isEmpty {states : StateSet} (h : states.isEmpty = true) (hg : g.Valid)
    (w : List Char) : g.run states w = states := by
  cases w with
  | nil => rfl
  | cons c w =>
    unfold run
    rw [step_of_isEmpty hg h]
    exact if_pos h

/-- Stopping early makes no difference. -/
theorem run_cons (hg : g.Valid) (states : StateSet) (c : Char) (w : List Char) :
    g.run states (c :: w) = g.run (g.step states c) w := by
  rw [run]
  split
  · rename_i hempty
    exact (run_of_isEmpty hempty hg w).symm
  · rfl

/-- A run holds the ends of the paths. -/
theorem mem_run_closureOf (hg : g.Valid) {states : List StateId} {w : List Char} {q : StateId} :
    q ∈ g.run (g.closureOf states) w ↔ ∃ p ∈ states, p < g.size ∧ g.Path p w q := by
  induction w generalizing states with
  | nil => exact mem_closureOf hg
  | cons c w ih =>
    -- The run closes a set before it reads, as the first labelled edge of a path divides it.
    have hstep : g.step (g.closureOf states) c =
        g.closureOf (g.successors (g.closureOf states) c) := rfl
    rw [run_cons hg, hstep, ih]
    constructor
    · rintro ⟨s, hs, _, hrest⟩
      obtain ⟨r, hr, hmoves⟩ := mem_successors.1 hs
      obtain ⟨p, hp, hlt, hpath⟩ := (mem_closureOf hg).1 hr
      exact ⟨p, hp, hlt, hpath.append (Path.read hmoves hrest)⟩
    · rintro ⟨p, hp, hlt, hpath⟩
      obtain ⟨r, s, hr, hmoves, hrest⟩ := hpath.exists_moves
      have hmem : r ∈ g.closureOf states := (mem_closureOf hg).2 ⟨p, hp, hlt, hr⟩
      exact ⟨s, mem_successors.2 ⟨r, hmem, hmoves⟩, hg.target_lt hmoves.mem_targets, hrest⟩

theorem anyAccepting_iff {states : StateSet} :
    g.anyAccepting states = true ↔ ∃ p ∈ states, g.isAccepting p = true := by
  unfold anyAccepting
  rw [List.any_eq_true]
  rfl

theorem mem_epsilonClosure_singleton (hg : g.Valid) {p q : StateId} (hp : p < g.size) :
    q ∈ g.epsilonClosure (.singleton p) ↔ g.Path p [] q := by
  have hlist : (StateSet.singleton p).toList = [p] := rfl
  rw [epsilonClosure, hlist, mem_closureOf hg]
  simp only [List.mem_singleton, exists_eq_left, hp, true_and]

/-- A valid automaton accepts the words of its language. -/
theorem accepts_iff_mem_language (hg : g.Valid) {w : List Char} :
    g.accepts w = true ↔ w ∈ g.language := by
  have hlist : (StateSet.singleton g.initial).toList = [g.initial] := rfl
  unfold accepts
  rw [validate_eq_ok_iff.2 hg]
  show g.anyAccepting _ = true ↔ _
  rw [anyAccepting_iff, epsilonClosure, hlist]
  simp only [mem_run_closureOf hg, List.mem_singleton, exists_eq_left]
  constructor
  · rintro ⟨q, ⟨_, hpath⟩, hacc⟩
    exact ⟨q, hpath, hacc⟩
  · rintro ⟨q, hpath, hacc⟩
    exact ⟨q, ⟨hg.1, hpath⟩, hacc⟩

theorem accepts_eq_accepts_iff {h : Automaton} (hg : g.Valid) (hh : h.Valid) :
    (∀ w, h.accepts w = g.accepts w) ↔ h.language = g.language := by
  simp only [Bool.eq_iff_iff, accepts_iff_mem_language hg, accepts_iff_mem_language hh]
  exact Language.ext_iff.symm

end Automaton

end RegularLanguages
