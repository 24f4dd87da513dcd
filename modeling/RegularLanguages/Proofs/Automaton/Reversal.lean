import RegularLanguages.Automaton.Minimal
import RegularLanguages.Proofs.Automaton.Reduced
import RegularLanguages.Proofs.Automaton.Subset

set_option autoImplicit false

/-! # Reversal, once and twice

Between the states of `g`, a path of the reversal is a path of `g` walked from its end
(`path_reversal_iff`). The entry adds nothing to this: it leads to the states that accepted, and so
the reversal accepts the reversed words of `g` (`language_reversal`). The subset construction over
the reversal accepts the same words, and applied twice it keeps the language.

Applied to a deterministic automaton without unreachable states it does more: a word that leads
to a state `p` leads to no other, so its reversal is accepted from exactly the subsets that hold
`p`. Different subsets have different languages (`distinguished_determinizeReversal`). -/

namespace RegularLanguages.Automaton

variable {g : Automaton} {p q : StateId}

/-! ## The states of the reversal -/

theorem size_reversal (g : Automaton) : g.reversal.size = g.size + 1 := by
  show (((List.range g.size).map _).toArray.push _).size = _
  rw [Array.size_push, List.size_toArray, List.length_map, List.length_range]

theorem state_reversal (hp : p < g.size) :
    g.reversal.state p =
      { accepting := p = g.initial
        edges := g.edgesInto[p]?.getD []
        epsilons := g.epsilonsInto[p]?.getD [] } := by
  apply state_of_getElem?
  show (((List.range g.size).map _).toArray.push _)[p]? = _
  rw [Array.getElem?_push, List.size_toArray, List.length_map, List.length_range,
    if_neg (Nat.ne_of_lt hp), List.getElem?_toArray, List.getElem?_map, List.getElem?_range hp]
  rfl

theorem state_reversal_entry (g : Automaton) :
    g.reversal.state g.size = { epsilons := g.acceptingStates } := by
  apply state_of_getElem?
  show (((List.range g.size).map _).toArray.push _)[g.size]? = _
  rw [Array.getElem?_push, List.size_toArray, List.length_map, List.length_range, if_pos rfl]

theorem isAccepting_reversal (hp : p < g.size) :
    g.reversal.isAccepting p = true ↔ p = g.initial := by
  rw [isAccepting, state_reversal hp]
  exact decide_eq_true_iff

theorem mem_edges_reversal (hp : p < g.size) {e : Edge} :
    e ∈ (g.reversal.state p).edges ↔
      ∃ q < g.size, ∃ d ∈ (g.state q).edges, d.target = p ∧ ⟨d.label, q⟩ = e := by
  rw [state_reversal hp, edgesInto, buckets_getElem?, if_pos hp, Option.getD_some]
  exact mem_valuesAt_states (f := State.edges) (k := Edge.target)
    (v := fun e id => (⟨e.label, id⟩ : Edge))

theorem moves_reversal (hp : p < g.size) {c : Char} : g.reversal.Moves p c q ↔ g.Moves q c p := by
  constructor
  · rintro ⟨e, he, hc, rfl⟩
    obtain ⟨source, _, d, hd, htarget, rfl⟩ := (mem_edges_reversal hp).1 he
    exact ⟨d, hd, hc, htarget⟩
  · rintro ⟨d, hd, hc, htarget⟩
    have hmoves : g.Moves q c p := ⟨d, hd, hc, htarget⟩
    have hq := lt_size_of_mem_targets hmoves.mem_targets
    exact ⟨⟨d.label, q⟩, (mem_edges_reversal hp).2 ⟨q, hq, d, hd, htarget, rfl⟩, hc, rfl⟩

theorem mem_epsilons_reversal (hp : p < g.size) :
    q ∈ (g.reversal.state p).epsilons ↔ p ∈ (g.state q).epsilons := by
  rw [state_reversal hp, epsilonsInto, buckets_getElem?, if_pos hp, Option.getD_some]
  refine (mem_valuesAt_states (f := State.epsilons) (k := id) (v := fun _ id => id)).trans ?_
  constructor
  · rintro ⟨source, _, d, hd, rfl, rfl⟩
    exact hd
  · intro hd
    have hq := lt_size_of_mem_targets (mem_targets_of_mem_epsilons hd)
    exact ⟨q, hq, p, hd, rfl, rfl⟩

/-- No edge of the reversal leads to its entry, or out of it back to where it came from. -/
theorem lt_size_of_mem_targets_reversal (hp : p < g.size)
    (hq : q ∈ (g.reversal.state p).targets) : q < g.size := by
  rcases mem_targets_iff.1 hq with ⟨c, hc⟩ | heps
  · exact lt_size_of_mem_targets ((moves_reversal hp).1 hc).mem_targets
  · exact lt_size_of_mem_targets (mem_targets_of_mem_epsilons ((mem_epsilons_reversal hp).1 heps))

theorem valid_reversal (g : Automaton) : g.reversal.Valid := by
  rw [valid_iff, size_reversal]
  refine ⟨Nat.lt_succ_self g.size, fun p hp q hq => ?_⟩
  rcases Nat.lt_succ_iff_lt_or_eq.1 hp with hp | rfl
  · exact Nat.lt_succ_of_lt (lt_size_of_mem_targets_reversal hp hq)
  · rw [state_reversal_entry] at hq
    exact Nat.lt_succ_of_lt (lt_size_of_isAccepting (mem_acceptingStates.1 hq))

/-! ## Paths of the reversal -/

theorem Path.of_reversal {w : List Char} (h : g.reversal.Path p w q) (hp : p < g.size) :
    q < g.size ∧ g.Path q w.reverse p := by
  induction h with
  | nil p => exact ⟨hp, Path.nil p⟩
  | epsilon hs _ ih =>
    obtain ⟨hq, hpath⟩ :=
      ih (lt_size_of_mem_targets_reversal hp (mem_targets_of_mem_epsilons hs))
    refine ⟨hq, ?_⟩
    have hstep := Path.epsilon ((mem_epsilons_reversal hp).1 hs) (Path.nil (g := g) _)
    simpa using hpath.append hstep
  | read hs _ ih =>
    obtain ⟨hq, hpath⟩ := ih (lt_size_of_mem_targets_reversal hp hs.mem_targets)
    refine ⟨hq, ?_⟩
    rw [List.reverse_cons]
    exact hpath.append (Path.read ((moves_reversal hp).1 hs) (Path.nil _))

theorem Path.reversal (hg : g.Valid) {w : List Char} (h : g.Path p w q) :
    g.reversal.Path q w.reverse p := by
  induction h with
  | nil p => exact Path.nil p
  | @epsilon p s r w hs _ ih =>
    have hlt := hg.target_lt (mem_targets_of_mem_epsilons hs)
    have hstep := Path.epsilon ((mem_epsilons_reversal hlt).2 hs) (Path.nil (g := g.reversal) p)
    simpa using ih.append hstep
  | @read p s r c w hs _ ih =>
    have hlt := hg.target_lt hs.mem_targets
    rw [List.reverse_cons]
    exact ih.append (Path.read ((moves_reversal hlt).2 hs) (Path.nil p))

/-- A path of the reversal is a path walked from its end. -/
theorem path_reversal_iff (hg : g.Valid) (hp : p < g.size) {w : List Char} :
    g.reversal.Path p w q ↔ g.Path q w.reverse p := by
  constructor
  · intro h
    exact (h.of_reversal hp).2
  · intro h
    have hback := h.reversal hg
    rwa [List.reverse_reverse] at hback

theorem mem_languageFrom_reversal (hg : g.Valid) (hp : p < g.size) {w : List Char} :
    w ∈ g.reversal.languageFrom p ↔ g.Path g.initial w.reverse p := by
  constructor
  · rintro ⟨q, hpath, hacc⟩
    obtain ⟨hq, hback⟩ := hpath.of_reversal hp
    rwa [(isAccepting_reversal hq).1 hacc] at hback
  · intro h
    exact ⟨g.initial, (path_reversal_iff hg hp).2 h, (isAccepting_reversal hg.1).2 rfl⟩

/-! ## The language of the reversal -/

/-- The entry neither accepts nor reads, so a word is accepted from a state that accepted. -/
theorem mem_language_reversal_iff {w : List Char} : w ∈ g.reversal.language ↔
    ∃ p, g.isAccepting p = true ∧ w ∈ g.reversal.languageFrom p := by
  have hentry := state_reversal_entry g
  show w ∈ g.reversal.languageFrom g.size ↔ _
  rw [mem_languageFrom_of_edges_eq_nil (by rw [hentry]), isAccepting, hentry]
  simp [mem_acceptingStates]

/-- The words of the reversal are those of `g` read backwards. -/
theorem language_reversal (hg : g.Valid) : g.reversal.language = g.language.reverse := by
  ext w
  rw [mem_language_reversal_iff, Language.mem_reverse]
  refine exists_congr fun p => ?_
  rw [and_comm]
  refine and_congr_left fun hacc => ?_
  exact mem_languageFrom_reversal hg (lt_size_of_isAccepting hacc)

/-- The reversal of a valid automaton accepts a word if the automaton accepts it read backwards. -/
theorem reversal_accepts_iff (hg : g.Valid) (w : List Char) :
    g.reversal.accepts w = true ↔ g.accepts w.reverse = true := by
  rw [accepts_iff_mem_language (valid_reversal g), accepts_iff_mem_language hg,
    language_reversal hg, Language.mem_reverse]

/-- Two accepting states on a cycle of epsilon edges, the initial one among them, and an edge that
    is there twice. -/
theorem reversal_accepts_iff_cycle :
    let twice : Edge := ⟨.single 'a', 1⟩
    let g := ofList [{ accepting := true, edges := [twice, twice], epsilons := [2] },
      { edges := [⟨.single 'b', 2⟩] }, { accepting := true, epsilons := [0, 2] }]
    g.Valid ∧ (∀ w, g.reversal.accepts w = true ↔ g.accepts w.reverse = true) ∧
      g.reversal.accepts ['b', 'a'] = true ∧ g.reversal.accepts ['a', 'b'] = false := by
  intro twice g
  exact ⟨by decide, reversal_accepts_iff (by decide), by decide, by decide⟩

/-! ## Determinizing the reversal -/

theorem isDeterministic_determinizeReversal (g : Automaton) :
    g.determinizeReversal.IsDeterministic :=
  isDeterministic_determinizeFrom (valid_reversal g) _

theorem valid_determinizeReversal (g : Automaton) : g.determinizeReversal.Valid :=
  valid_determinizeFrom (valid_reversal g) _

theorem reachable_determinizeReversal (g : Automaton) {i : StateId}
    (hi : i < g.determinizeReversal.size) : g.determinizeReversal.Reachable i :=
  reachable_determinizeFrom (valid_reversal g) hi

/-- The subset construction starts from the states that the entry leads to. -/
theorem language_determinizeReversal (hg : g.Valid) :
    g.determinizeReversal.language = g.language.reverse := by
  rw [← language_reversal hg]
  ext w
  unfold determinizeReversal
  rw [mem_language_determinizeFrom (valid_reversal g), mem_language_reversal_iff]
  refine exists_congr fun p => ?_
  rw [StateSet.mem_ofList, mem_acceptingStates]
  refine and_congr_right fun hacc => and_iff_right ?_
  rw [size_reversal]
  exact Nat.lt_succ_of_lt (lt_size_of_isAccepting hacc)

/-- Reversing and determinizing twice keeps the language. -/
theorem language_determinizeReversal_twice (hg : g.Valid) :
    g.determinizeReversal.determinizeReversal.language = g.language := by
  rw [language_determinizeReversal (valid_determinizeReversal g), language_determinizeReversal hg,
    Language.reverse_reverse]

/-- The entry of the reversal is in none of the subsets. -/
theorem lt_size_of_mem_subsets_reversal {s : StateSet}
    (hs : s ∈ g.reversal.subsets (.ofList g.acceptingStates)) (hp : p ∈ s) : p < g.size := by
  have hr := valid_reversal g
  have hreached := (mem_subsets hr).1 hs
  clear hs
  induction hreached generalizing p with
  | start hmem =>
    rw [List.mem_singleton.1 hmem] at hp
    obtain ⟨r, hr', _, hpath⟩ := (mem_closureOf hr).1 hp
    have hacc := mem_acceptingStates.1 (StateSet.mem_ofList.1 hr')
    exact (hpath.of_reversal (lt_size_of_isAccepting hacc)).1
  | next _ hmem ih =>
    obtain ⟨⟨piece, _⟩, hmoves, rfl⟩ := List.mem_map.1 hmem
    obtain ⟨_, _, rfl⟩ := mem_moves.1 hmoves
    obtain ⟨r, hsucc, _, hpath⟩ := (mem_closureOf hr).1 hp
    obtain ⟨q, hq, hqr⟩ := mem_successors.1 hsucc
    exact (hpath.of_reversal (lt_size_of_mem_targets_reversal (ih hq) hqr.mem_targets)).1

/-- What is accepted from a subset of the reversal leads, reversed, to one of its members. -/
theorem mem_languageFrom_determinizeReversal (hg : g.Valid) {s : StateSet} {i : StateId}
    (hs : (g.reversal.subsets (.ofList g.acceptingStates)).rank? s = some i) {w : List Char} :
    w ∈ g.determinizeReversal.languageFrom i ↔ ∃ p ∈ s, g.Path g.initial w.reverse p := by
  unfold determinizeReversal
  rw [languageFrom_determinizeFrom (valid_reversal g) hs]
  refine exists_congr fun p => and_congr_right fun hp => ?_
  exact mem_languageFrom_reversal hg
    (lt_size_of_mem_subsets_reversal (Numbering.mem_of_rank? hs) hp)

/-- In a deterministic automaton without unreachable states, a subset of the reversal is
    determined by its language. -/
theorem subset_of_languageFrom_determinizeReversal_eq (hg : g.Valid) (hd : g.IsDeterministic)
    (hr : ∀ p < g.size, g.Reachable p) {s t : StateSet} {i j : StateId}
    (hs : (g.reversal.subsets (.ofList g.acceptingStates)).rank? s = some i)
    (ht : (g.reversal.subsets (.ofList g.acceptingStates)).rank? t = some j)
    (h : g.determinizeReversal.languageFrom i = g.determinizeReversal.languageFrom j)
    (hp : p ∈ s) : p ∈ t := by
  -- Reading backwards what leads to `p` is accepted from a set only if the set has `p`, the one
  -- state that this leads to.
  obtain ⟨u, hu⟩ := hr p (lt_size_of_mem_subsets_reversal (Numbering.mem_of_rank? hs) hp)
  have hmem : u.reverse ∈ g.determinizeReversal.languageFrom i :=
    (mem_languageFrom_determinizeReversal hg hs).2 ⟨p, hp, by rwa [List.reverse_reverse]⟩
  rw [h, mem_languageFrom_determinizeReversal hg ht, List.reverse_reverse] at hmem
  obtain ⟨q, hq, hpath⟩ := hmem
  rwa [hu.unique hd hpath]

theorem distinguished_determinizeReversal (hg : g.Valid) (hd : g.IsDeterministic)
    (hr : ∀ p < g.size, g.Reachable p) : g.determinizeReversal.Distinguished := by
  intro i j hi hj _ heq
  have hv := valid_determinizeReversal g
  obtain ⟨s, hs⟩ := exists_rank?_subsets (hi.lt_size hv)
  obtain ⟨t, ht⟩ := exists_rank?_subsets (hj.lt_size hv)
  have hst : s = t := StateSet.ext fun p =>
    ⟨subset_of_languageFrom_determinizeReversal_eq hg hd hr hs ht heq,
      subset_of_languageFrom_determinizeReversal_eq hg hd hr ht hs heq.symm⟩
  rw [hst, ht] at hs
  exact (Option.some.inj hs).symm

end RegularLanguages.Automaton
