import RegularLanguages.Automaton.EpsilonFree
import RegularLanguages.Proofs.Automaton.Reduced

set_option autoImplicit false

/-! # Removing epsilon edges keeps the language

A closed state moves as the states do that are reached from it without reading, and accepts if one
of these accepts. That is how a word is accepted in the first place: epsilon edges, a labelled edge,
and the rest of the word (`mem_languageFrom_cons_iff`). So every state keeps its language
(`languageFrom_closedStates`), and dropping the unreachable states afterwards changes nothing for
the initial one. Unless it is that one, a state to which only epsilon edges led is dropped. -/

namespace RegularLanguages.Automaton

variable {g : Automaton} {p q : StateId} {c : Char}

/-- The automaton in which every state is closed. -/
def closedStates (g : Automaton) : Automaton :=
  { g with states := ((List.range g.size).map g.closedState).toArray }

theorem withoutEpsilons_eq (g : Automaton) :
    g.withoutEpsilons = if g.hasEpsilons then g.closedStates.trimmed false else g :=
  rfl

theorem size_closedStates (g : Automaton) : g.closedStates.size = g.size := by
  simp [closedStates, size]

theorem state_closedStates (hp : p < g.size) : g.closedStates.state p = g.closedState p := by
  apply state_of_getElem?
  show ((List.range g.size).map g.closedState).toArray[p]? = _
  rw [List.getElem?_toArray, List.getElem?_map, List.getElem?_range hp]
  rfl

theorem epsilonFree_closedStates (g : Automaton) : g.closedStates.EpsilonFree := by
  refine epsilonFree_of_forall_lt fun p hp => ?_
  rw [size_closedStates] at hp
  rw [state_closedStates hp]
  rfl

/-! ## Closed states -/

theorem isAccepting_closedStates (hg : g.Valid) (hp : p < g.size) :
    g.closedStates.isAccepting p = true ↔ [] ∈ g.languageFrom p := by
  rw [isAccepting, state_closedStates hp]
  show g.anyAccepting (g.epsilonClosure (.singleton p)) = true ↔ _
  rw [anyAccepting_iff]
  simp only [mem_epsilonClosure_singleton hg hp]
  rfl

theorem moves_closedStates (hg : g.Valid) (hp : p < g.size) :
    g.closedStates.Moves p c q ↔ ∃ r, g.Path p [] r ∧ g.Moves r c q := by
  rw [Moves, state_closedStates hp]
  simp only [Leads, closedState, Ascending.mem_ofList, List.mem_flatMap, StateSet.mem_toList,
    mem_epsilonClosure_singleton hg hp]
  constructor
  · intro h
    obtain ⟨e, ⟨r, hr, he⟩, hc, hq⟩ := h
    exact ⟨r, hr, e, he, hc, hq⟩
  · intro h
    obtain ⟨r, hr, e, he, hc, hq⟩ := h
    exact ⟨e, ⟨r, hr, he⟩, hc, hq⟩

theorem valid_closedStates (hg : g.Valid) : g.closedStates.Valid := by
  have hsize := size_closedStates g
  refine (epsilonFree_closedStates g).valid (hsize ▸ hg.1) fun p hp c q hmoves => ?_
  rw [hsize] at hp ⊢
  obtain ⟨r, _, hr⟩ := (moves_closedStates hg hp).1 hmoves
  exact hg.target_lt hr.mem_targets

/-- A closed state accepts the words that the state accepted. -/
theorem languageFrom_closedStates (hg : g.Valid) {w : List Char} (hp : p < g.size) :
    w ∈ g.closedStates.languageFrom p ↔ w ∈ g.languageFrom p := by
  have hfree := epsilonFree_closedStates g
  induction w generalizing p with
  | nil => rw [hfree.nil_mem_languageFrom_iff, isAccepting_closedStates hg hp]
  | cons c w ih =>
    rw [hfree.cons_mem_languageFrom_iff, mem_languageFrom_cons_iff]
    simp only [moves_closedStates hg hp]
    constructor
    · intro h
      obtain ⟨q, ⟨r, hr, hmoves⟩, hw⟩ := h
      exact ⟨r, q, hr, hmoves, (ih (hg.target_lt hmoves.mem_targets)).1 hw⟩
    · intro h
      obtain ⟨r, q, hr, hmoves, hw⟩ := h
      exact ⟨q, ⟨r, hr, hmoves⟩, (ih (hg.target_lt hmoves.mem_targets)).2 hw⟩

/-! ## The automaton without epsilon edges -/

theorem EpsilonFree.withoutEpsilons_eq_self (h : g.EpsilonFree) : g.withoutEpsilons = g := by
  rw [withoutEpsilons_eq, hasEpsilons_eq_false_iff.2 h]
  rfl

theorem withoutEpsilons_cases (g : Automaton) :
    (g.EpsilonFree ∧ g.withoutEpsilons = g) ∨
      g.withoutEpsilons = g.closedStates.trimmed false := by
  cases h : g.hasEpsilons with
  | false =>
    have hfree := hasEpsilons_eq_false_iff.1 h
    exact Or.inl ⟨hfree, hfree.withoutEpsilons_eq_self⟩
  | true =>
    rw [withoutEpsilons_eq, h]
    exact Or.inr rfl

theorem epsilonFree_withoutEpsilons (g : Automaton) : g.withoutEpsilons.EpsilonFree := by
  obtain ⟨hfree, heq⟩ | heq := g.withoutEpsilons_cases
  · rwa [heq]
  · rw [heq]
    exact (epsilonFree_closedStates g).select _

theorem valid_withoutEpsilons (hg : g.Valid) : g.withoutEpsilons.Valid := by
  obtain ⟨_, heq⟩ | heq := g.withoutEpsilons_cases
  · rwa [heq]
  · rw [heq]
    exact valid_trimmed _ _

/-- Removing epsilon edges keeps the language. -/
theorem language_withoutEpsilons (hg : g.Valid) : g.withoutEpsilons.language = g.language := by
  obtain ⟨_, heq⟩ | heq := g.withoutEpsilons_cases
  · rw [heq]
  · rw [heq, language_trimmed (valid_closedStates hg)]
    exact Set.ext fun w => languageFrom_closedStates hg hg.1

/-- If there was an epsilon edge to remove, the unreachable states are gone. -/
theorem reachable_withoutEpsilons (hg : g.Valid) (h : g.hasEpsilons = true)
    (hp : p < g.withoutEpsilons.size) : g.withoutEpsilons.Reachable p := by
  have heq : g.withoutEpsilons = g.closedStates.trimmed false := if_pos h
  rw [heq] at hp ⊢
  exact reachable_trimmed (valid_closedStates hg) false hp

/-- Removing epsilon edges leaves none of them, and the same words are accepted. If there was one,
    every state that is left is reachable; if there was none, the automaton stays as it is. -/
theorem withoutEpsilons_accepts_iff (hg : g.Valid) :
    g.withoutEpsilons.hasEpsilons = false ∧
      (∀ w, g.withoutEpsilons.accepts w = true ↔ g.accepts w = true) ∧
      (g.hasEpsilons = true → ∀ p < g.withoutEpsilons.size, g.withoutEpsilons.Reachable p) ∧
      (g.hasEpsilons = false → g.withoutEpsilons = g) := by
  refine ⟨hasEpsilons_eq_false_iff.2 (epsilonFree_withoutEpsilons g), fun w => ?_,
    fun h p hp => reachable_withoutEpsilons hg h hp, fun h => ?_⟩
  · rw [accepts_iff_mem_language (valid_withoutEpsilons hg), accepts_iff_mem_language hg,
      language_withoutEpsilons hg]
  · exact (hasEpsilons_eq_false_iff.1 h).withoutEpsilons_eq_self

/-- A cycle of epsilon edges with another one behind it, of which two states are left; and an
    automaton without epsilon edges, which keeps its unreachable state. -/
theorem withoutEpsilons_accepts_iff_cycle :
    let g := ofList [{ epsilons := [1] }, { edges := [⟨.single 'a', 2⟩], epsilons := [0, 3] },
      { epsilons := [1] }, { accepting := true }]
    let h := ofList [{ accepting := true }, { edges := [⟨.single 'a', 0⟩] }]
    (g.Valid ∧ g.hasEpsilons = true ∧ h.Valid ∧ h.hasEpsilons = false) ∧
      g.withoutEpsilons.hasEpsilons = false ∧
      (∀ w, g.withoutEpsilons.accepts w = true ↔ g.accepts w = true) ∧
      (∀ p < g.withoutEpsilons.size, g.withoutEpsilons.Reachable p) ∧
      h.withoutEpsilons = h := by
  intro g h
  have hg := withoutEpsilons_accepts_iff (g := g) (by decide)
  have hh := withoutEpsilons_accepts_iff (g := h) (by decide)
  exact ⟨by decide, hg.1, hg.2.1, hg.2.2.1 (by decide), hh.2.2.2 (by decide)⟩

end RegularLanguages.Automaton
