import RegularLanguages.Proofs.Automaton.Primitive
import RegularLanguages.Proofs.Minimization

set_option autoImplicit false

/-! # Minimizing an automaton that accepts nothing

Without a word to accept, the smallest automaton is one dead state. The algorithms agree on this
state but not on its loops, for trimming keeps the initial state with the edges from it to itself.
Both refinements keep the characters on which the closure of the initial state leads to itself,
whether the automaton was deterministic from the start or has been determinized
(`loops_determinized`). Brzozowski's way starts its second subset construction from no state at
all and has no edge left (`not_loops_determinizeReversal_twice`).

So the three ways do not give the same automaton for every empty language;
`minimize_of_accepts_nothing` says which one each gives, and when they agree. -/

namespace RegularLanguages.Automaton

variable {g : Automaton} {c : Char}

/-! ## The start -/

/-- The states in which a run of the automaton starts. -/
def startSet (g : Automaton) : StateSet := g.epsilonClosure (.singleton g.initial)

theorem mem_startSet (hg : g.Valid) {p : StateId} : p ∈ g.startSet ↔ g.Path g.initial [] p :=
  mem_epsilonClosure_singleton hg hg.1

/-! ## Returning to the initial state -/

/-- From the start the character leads to the initial state and to no other, as long as no epsilon
    edge is followed after it. -/
def Returns (g : Automaton) (c : Char) : Prop :=
  ∀ q, q ∈ g.successors g.startSet c ↔ q = g.initial

/-- The same without epsilon edges before the character. -/
def OnlyLoops (g : Automaton) (c : Char) : Prop := ∀ q, g.Moves g.initial c q ↔ q = g.initial

theorem mem_successors_startSet (hg : g.Valid) {q : StateId} :
    q ∈ g.successors g.startSet c ↔ ∃ p, g.Path g.initial [] p ∧ g.Moves p c q := by
  rw [mem_successors]
  simp only [mem_startSet hg]

/-- Epsilon edges that are followed after the character lead on to the rest of the start. -/
theorem Returns.step_eq (hg : g.Valid) (hc : g.Returns c) :
    g.step g.startSet c = g.startSet := by
  refine StateSet.ext fun q => ?_
  rw [step, mem_closureOf hg, mem_startSet hg]
  simp only [hc _]
  constructor
  · intro h
    obtain ⟨p, rfl, _, hpath⟩ := h
    exact hpath
  · intro h
    exact ⟨g.initial, rfl, hg.1, h⟩

theorem EpsilonFree.returns_iff (hfree : g.EpsilonFree) (hg : g.Valid) :
    g.Returns c ↔ g.OnlyLoops c := by
  refine forall_congr' fun q => iff_congr ?_ Iff.rfl
  rw [mem_successors_startSet hg]
  constructor
  · intro h
    obtain ⟨p, hp, hmoves⟩ := h
    rwa [hfree.eq_of_path_nil hp] at hmoves
  · intro hmoves
    exact ⟨g.initial, Path.nil _, hmoves⟩

/-- Without epsilon edges nothing is followed after the character. -/
theorem EpsilonFree.step_eq_iff (hfree : g.EpsilonFree) (hg : g.Valid) :
    g.step g.startSet c = g.startSet ↔ g.Returns c := by
  refine ⟨fun h q => ?_, Returns.step_eq hg⟩
  have hstep : q ∈ g.successors g.startSet c ↔ q ∈ g.step g.startSet c := by
    rw [mem_step hg, mem_successors]
    constructor
    · intro hq
      obtain ⟨p, hp, hmoves⟩ := hq
      exact ⟨p, hp, q, hmoves, Path.nil q⟩
    · intro hq
      obtain ⟨p, hp, r, hmoves, hpath⟩ := hq
      rw [hfree.eq_of_path_nil hpath]
      exact ⟨p, hp, hmoves⟩
  rw [hstep, h, mem_startSet hg]
  constructor
  · exact hfree.eq_of_path_nil
  · intro heq
    rw [heq]
    exact Path.nil _

/-- A deterministic automaton has no other move on the character than its loop. -/
theorem IsDeterministic.loops_iff (hd : g.IsDeterministic) (hg : g.Valid) :
    g.Loops c ↔ g.step g.startSet c = g.startSet := by
  rw [hd.epsilonFree.step_eq_iff hg, hd.epsilonFree.returns_iff hg]
  constructor
  · intro hloops q
    constructor
    · intro hmoves
      exact hd.functional _ _ _ _ hmoves hloops
    · intro heq
      rwa [heq]
  · intro h
    exact (h g.initial).2 rfl

/-! ## Loops of the subset automaton -/

theorem loops_determinizeFrom (hg : g.Valid) (start : StateSet) :
    (g.determinizeFrom start).Loops c ↔
      g.CanMove (g.epsilonClosure start) c ∧
        g.step (g.epsilonClosure start) c = g.epsilonClosure start := by
  have hstart := rank?_subsets_epsilonClosure g start
  show (g.determinizeFrom start).Moves 0 c 0 ↔ _
  rw [moves_determinizeFrom hg hstart]
  refine and_congr_right fun _ => ?_
  constructor
  · intro h
    exact Numbering.rank?_inj h hstart
  · intro h
    rwa [h]

theorem loops_determinize (hg : g.Valid) :
    g.determinize.Loops c ↔ g.step g.startSet c = g.startSet := by
  refine (loops_determinizeFrom hg _).trans (and_iff_right_of_imp fun hstep => ?_)
  -- The set that the step leads to is not empty, so some member has moved.
  have hinitial : g.initial ∈ g.step g.startSet c := by
    rw [show g.step g.startSet c = g.startSet from hstep]
    exact (mem_startSet hg).2 (Path.nil _)
  obtain ⟨p, hp, r, hmoves, _⟩ := (mem_step hg).1 hinitial
  exact ⟨p, hp, r, hmoves⟩

theorem loops_determinized (hg : g.Valid) :
    g.determinized.Loops c ↔ g.step g.startSet c = g.startSet := by
  obtain ⟨hd, heq⟩ | heq := g.determinized_cases
  · rw [heq]
    exact hd.loops_iff hg
  · rw [heq]
    exact loops_determinize hg

/-! ## Loops that the algorithms leave -/

theorem not_live_initial_of_language_eq {h : Automaton} (hlanguage : h.language = g.language)
    (hdead : ¬ g.Live g.initial) : ¬ h.Live h.initial := fun hlive =>
  hdead (hlive.of_languageFrom_eq hlanguage)

/-- Without words the initial state is the only one that trimming keeps, and the quotient by a
    refinement changes nothing about it. -/
theorem loops_collapsed {refine : ClassTable → Partition}
    (hrefine : ∀ t : ClassTable, t.Coherent → t.IsCoarsest (refine t)) (hg : g.Valid)
    (hdead : ¬ g.Live g.initial) :
    (g.collapsed refine).Loops c ↔ g.step g.startSet c = g.startSet := by
  rw [← loops_determinized hg, ← loops_trimmed g.determinized true]
  have hgd := valid_determinized hg
  have hvalid := valid_trimmed g.determinized true
  have hd := (isDeterministic_determinized hg).trimmed true
  have htable := ClassTable.tabulates_tableOf hd
  have hcoarsest := hrefine _ (htable.coherent hvalid)
  have hdead' : ¬ (g.determinized.trimmed true).Live (g.determinized.trimmed true).initial :=
    not_live_initial_of_language_eq
      ((language_trimmed hgd true).trans (language_determinized hg)) hdead
  unfold Loops collapsed
  rw [ClassTable.initial_quotient, htable.start_eq]
  refine (ClassTable.moves_quotient htable hcoarsest.partitions.assigns hcoarsest.congruence
    hvalid.1).trans ?_
  constructor
  · intro h
    obtain ⟨u, hu, _⟩ := h
    -- Another state than the initial one would be live.
    by_cases heq : u = (g.determinized.trimmed true).initial
    · rwa [heq] at hu
    · have hlive := live_trimmed hgd (hvalid.target_lt hu.mem_targets) heq
      exact absurd (Live.of_path hu.path hlive) hdead'
  · intro h
    exact ⟨_, h, rfl⟩

theorem not_loops_determinizeReversal_twice (hg : g.Valid) (hdead : ¬ g.Live g.initial) :
    ¬ g.determinizeReversal.determinizeReversal.Loops c := by
  have hnone : g.determinizeReversal.acceptingStates = [] := by
    rw [List.eq_nil_iff_forall_not_mem]
    intro i hi
    -- An accepting state is reachable, and the word that leads to it is accepted.
    have hacc := mem_acceptingStates.1 hi
    obtain ⟨w, hw⟩ := reachable_determinizeReversal g (lt_size_of_isAccepting hacc)
    have hword : w ∈ g.determinizeReversal.language := ⟨i, hw, hacc⟩
    rw [language_determinizeReversal hg] at hword
    exact hdead ⟨_, hword⟩
  unfold determinizeReversal at hnone ⊢
  rw [hnone]
  intro hloops
  obtain ⟨p, hp, _⟩ := ((loops_determinizeFrom (valid_reversal _) _).1 hloops).1
  obtain ⟨q, hq, _⟩ := (mem_closureOf (valid_reversal _)).1 hp
  exact absurd (StateSet.mem_ofList.1 hq) List.not_mem_nil

theorem loops_condensed (hg : g.Valid) (hdead : ¬ g.Live g.initial) (a : Algorithm) :
    (g.condensed a).Loops c ↔ a ≠ .brzozowski ∧ g.step g.startSet c = g.startSet := by
  cases a with
  | hopcroft =>
    refine (loops_collapsed (fun _ => Hopcroft.isCoarsest_refine) hg hdead).trans ?_
    simp
  | moore =>
    refine (loops_collapsed (fun _ => Moore.isCoarsest_refine) hg hdead).trans ?_
    simp
  | brzozowski =>
    have hnot : ¬ (g.condensed .brzozowski).Loops c := not_loops_determinizeReversal_twice hg hdead
    simpa using hnot

/-! ## One dead state -/

theorem eq_ofList_of_size_eq_one (hsize : g.size = 1) (hinitial : g.initial = 0) :
    g = ofList [g.state 0] := by
  refine eq_of_state_eq hsize hinitial fun id hid => ?_
  have hzero : id = 0 := by omega
  rw [hzero]
  exact (state_ofList rfl).symm

theorem Reduced.eq_ofList (hr : g.Reduced) (hdead : ¬ g.Live g.initial) (hinitial : g.initial = 0) :
    g = ofList [{ edges := (g.state 0).edges }] := by
  have hacc : (g.state 0).accepting = false := by
    rw [← hinitial]
    exact Bool.eq_false_of_not_eq_true fun hacc => hdead (live_of_isAccepting hacc)
  have hstate : g.state 0 = { edges := (g.state 0).edges } := by
    rw [State.mk.injEq]
    exact ⟨hacc, rfl, hr.deterministic.epsilons_eq_nil 0⟩
  have heq := eq_ofList_of_size_eq_one (hr.size_eq_one hdead) hinitial
  rwa [hstate] at heq

theorem Reduced.target_eq_zero (hr : g.Reduced) (hdead : ¬ g.Live g.initial)
    (hinitial : g.initial = 0) {e : Edge} (he : e ∈ (g.state 0).edges) : e.target = 0 := by
  have hmoves : g.Moves 0 e.label.lo e.target := Leads.of_mem he e.label.lo_mem
  rw [hr.eq_initial hdead (hr.valid.target_lt hmoves.mem_targets), hinitial]

theorem Reduced.exists_label_iff (hr : g.Reduced) (hdead : ¬ g.Live g.initial)
    (hinitial : g.initial = 0) : (∃ e ∈ (g.state 0).edges, c ∈ e.label) ↔ g.Loops c := by
  unfold Loops
  rw [hinitial]
  constructor
  · intro h
    obtain ⟨e, he, hc⟩ := h
    exact ⟨e, he, hc, hr.target_eq_zero hdead hinitial he⟩
  · intro h
    obtain ⟨e, he, hc, _⟩ := h
    exact ⟨e, he, hc⟩

/-! ## The result of each algorithm -/

/-- What minimization returns for an automaton without words, up to the edges. -/
theorem exists_minimize_eq_ok_of_dead (hg : g.Valid) (hdead : ¬ g.Live g.initial) (a : Algorithm) :
    ∃ edges, g.minimize a = .ok (ofList [{ edges }]) ∧ (∀ e ∈ edges, e.target = 0) ∧
      ∀ c, (∃ e ∈ edges, c ∈ e.label) ↔ a ≠ .brzozowski ∧ g.step g.startSet c = g.startSet := by
  have hr := (reduced_trimmed_condensed hg a).canonical
  have hlanguage := (language_canonical (valid_trimmed _ true)).trans
    (language_trimmed_condensed hg a)
  have hdead' := not_live_initial_of_language_eq hlanguage hdead
  refine ⟨_, (minimize_eq_ok hg a).trans (congrArg _ (hr.eq_ofList hdead' rfl)),
    fun e he => hr.target_eq_zero hdead' rfl he, fun c => ?_⟩
  rw [hr.exists_label_iff hdead' rfl, loops_canonical, loops_trimmed, loops_condensed hg hdead]

/-- The loops decide which automata without words are minimized to the same one, and by which
    algorithms. -/
theorem minimize_eq_minimize_of_dead {h : Automaton} (hg : g.Valid) (hh : h.Valid)
    (hgdead : ¬ g.Live g.initial) (hhdead : ¬ h.Live h.initial) {a b : Algorithm}
    (hloops : ∀ c, (g.condensed a).Loops c ↔ (h.condensed b).Loops c) :
    g.minimize a = h.minimize b := by
  rw [minimize_eq_ok hg, minimize_eq_ok hh]
  refine congrArg _ ((reduced_trimmed_condensed hg a).canonical_eq_of_loops
    (reduced_trimmed_condensed hh b) ?_ ?_ fun c => ?_)
  · exact not_live_initial_of_language_eq (language_trimmed_condensed hg a) hgdead
  · exact not_live_initial_of_language_eq (language_trimmed_condensed hh b) hhdead
  · rw [loops_trimmed, loops_trimmed]
    exact hloops c

theorem minimize_eq_of_dead (hg : g.Valid) (hdead : ¬ g.Live g.initial) {a b : Algorithm}
    (hloops : ∀ c, (g.condensed a).Loops c ↔ (g.condensed b).Loops c) :
    g.minimize a = g.minimize b :=
  minimize_eq_minimize_of_dead hg hg hdead hdead hloops

theorem accepts_eq_false_of_acceptingStates_eq_nil (h : g.acceptingStates = []) (w : List Char) :
    g.accepts w = false := by
  unfold accepts
  split
  · rfl
  · rw [← Bool.not_eq_true, anyAccepting_iff]
    intro hacc
    obtain ⟨p, _, hp⟩ := hacc
    rw [← mem_acceptingStates, h] at hp
    exact absurd hp List.not_mem_nil

theorem minimize_brzozowski_of_dead (hg : g.Valid) (hdead : ¬ g.Live g.initial) :
    g.minimize .brzozowski = .ok empty := by
  obtain ⟨edges, hok, _, hlabels⟩ := exists_minimize_eq_ok_of_dead hg hdead .brzozowski
  have hedges : edges = [] := by
    rw [List.eq_nil_iff_forall_not_mem]
    intro e he
    exact ((hlabels e.label.lo).1 ⟨e, he, e.label.lo_mem⟩).1 rfl
  rw [hok, hedges]
  rfl

/-- An automaton that accepts nothing is minimized to one state that does not accept. Brzozowski's
    way leaves it without edges. The other two give the same automaton, whose loops are the
    characters on which the closure of the initial state leads to itself. All three agree if and
    only if there is no such character. -/
theorem minimize_of_accepts_nothing (hg : g.Valid) (hnone : ∀ w, g.accepts w = false) :
    g.minimize .brzozowski = .ok empty ∧
      (∃ edges, g.minimize .hopcroft = .ok (ofList [{ edges }]) ∧
        g.minimize .moore = .ok (ofList [{ edges }]) ∧ (∀ e ∈ edges, e.target = 0) ∧
        ∀ c, (∃ e ∈ edges, c ∈ e.label) ↔ g.step g.startSet c = g.startSet) ∧
      ((∀ a b, g.minimize a = g.minimize b) ↔ ∀ c, g.step g.startSet c ≠ g.startSet) := by
  have hdead := (not_live_initial_iff hg).2 hnone
  have hempty := minimize_brzozowski_of_dead hg hdead
  obtain ⟨edges, hok, htargets, hlabels⟩ := exists_minimize_eq_ok_of_dead hg hdead .hopcroft
  have hcovers : ∀ c, (∃ e ∈ edges, c ∈ e.label) ↔ g.step g.startSet c = g.startSet := by
    simpa using hlabels
  have hmoore : g.minimize .moore = g.minimize .hopcroft := by
    refine minimize_eq_of_dead hg hdead fun c => ?_
    simp [loops_condensed hg hdead]
  refine ⟨hempty, ⟨edges, hok, hmoore.trans hok, htargets, hcovers⟩, ?_, ?_⟩
  · intro hall c hstep
    -- A loop of the refinements' result is an edge that the empty automaton does not have.
    obtain ⟨e, he, _⟩ := (hcovers c).2 hstep
    have heq : ofList [{ edges }] = empty :=
      Except.ok.inj (hok.symm.trans ((hall .hopcroft .brzozowski).trans hempty))
    have hedges : edges = [] := by simpa [ofList, empty] using heq
    rw [hedges] at he
    exact absurd he List.not_mem_nil
  · intro hnostep a b
    refine minimize_eq_of_dead hg hdead fun c => ?_
    simp [loops_condensed hg hdead, hnostep]

/-- Two edges on the same character, from a state that is never left and does not accept. -/
theorem minimize_of_accepts_nothing_loop :
    let g := ofList [{ edges := [⟨.single 'a', 0⟩, ⟨.single 'a', 0⟩] }]
    g.Valid ∧ (∀ w, g.accepts w = false) ∧ g.minimize .brzozowski = .ok empty ∧
      (∃ edges, g.minimize .hopcroft = .ok (ofList [{ edges }]) ∧
        g.minimize .moore = .ok (ofList [{ edges }]) ∧ (∀ e ∈ edges, e.target = 0) ∧
        ∀ c, (∃ e ∈ edges, c ∈ e.label) ↔ g.step g.startSet c = g.startSet) ∧
      ((∀ a b, g.minimize a = g.minimize b) ↔ ∀ c, g.step g.startSet c ≠ g.startSet) :=
  have hvalid : (ofList [{ edges := [⟨.single 'a', 0⟩, ⟨.single 'a', 0⟩] }]).Valid := by decide
  have hnone := accepts_eq_false_of_acceptingStates_eq_nil
    (g := ofList [{ edges := [⟨.single 'a', 0⟩, ⟨.single 'a', 0⟩] }]) (by decide)
  ⟨hvalid, hnone, minimize_of_accepts_nothing hvalid hnone⟩

end RegularLanguages.Automaton
