import RegularLanguages.Proofs.Automaton.Select

set_option autoImplicit false

/-! # Trimmed, canonical and reduced automata

Trimming and canonical numbering are selections, so both keep the language, validity and
determinism. A deterministic automaton is reduced when it has no state to spare: all its states
are reachable, all but the initial one are live, and different states have different languages.
`Distinguished.reduced_trimmed` makes a reduced automaton out of one in which states of equal
language are equal as far as they matter, `Reduced.canonical` renumbers it. -/

namespace RegularLanguages

theorem Numbering.rank?_ofList_cons {α : Type} [Ord α] [Std.TransOrd α] [Std.LawfulEqOrd α]
    [DecidableEq α] (x : α) (xs : List α) : (Numbering.ofList (x :: xs)).rank? x = some 0 := by
  rw [Numbering.rank?_eq_some_iff, Numbering.toList_ofList]
  simp [novel]

namespace Automaton

variable {g : Automaton}

/-! ## Trimming -/

/-- The states that trimming keeps, in their new order. -/
def trimmedOrder (g : Automaton) (liveOnly : Bool) : Numbering StateId :=
  .ofList <| g.initial :: g.reachable.toList.filter fun id => !liveOnly || id ∈ g.coreachable

theorem trimmed_eq (g : Automaton) (liveOnly : Bool) :
    g.trimmed liveOnly = g.select (g.trimmedOrder liveOnly) :=
  rfl

theorem rank?_trimmedOrder_initial (g : Automaton) (liveOnly : Bool) :
    (g.trimmedOrder liveOnly).rank? g.initial = some 0 :=
  Numbering.rank?_ofList_cons _ _

theorem mem_trimmedOrder (hg : g.Valid) {liveOnly : Bool} {p : StateId} :
    p ∈ g.trimmedOrder liveOnly ↔
      p = g.initial ∨ g.Reachable p ∧ (liveOnly = true → g.Live p) := by
  unfold trimmedOrder
  rw [Numbering.mem_ofList, List.mem_cons, List.mem_filter, StateSet.mem_toList, mem_reachable hg]
  cases liveOnly with
  | false => simp
  | true => simp [mem_coreachable hg]

theorem Reachable.of_mem_trimmedOrder (hg : g.Valid) {liveOnly : Bool} {p : StateId}
    (hp : p ∈ g.trimmedOrder liveOnly) : g.Reachable p := by
  rcases (mem_trimmedOrder hg).1 hp with rfl | hp
  · exact reachable_initial g
  · exact hp.1

theorem keeps_trimmedOrder (hg : g.Valid) (liveOnly : Bool) :
    g.Keeps (fun q => liveOnly = true → g.Live q) (g.trimmedOrder liveOnly) := by
  intro p hp q hq hlive
  obtain ⟨w, hw⟩ := exists_path_of_mem_targets hq
  exact (mem_trimmedOrder hg).2 (Or.inr ⟨(Reachable.of_mem_trimmedOrder hg hp).path hw, hlive⟩)

theorem keeps_live_trimmedOrder (hg : g.Valid) (liveOnly : Bool) :
    g.Keeps g.Live (g.trimmedOrder liveOnly) := fun p hp q hq hlive =>
  keeps_trimmedOrder hg liveOnly p hp q hq fun _ => hlive

theorem exists_rank?_trimmedOrder {liveOnly : Bool} {i : StateId}
    (hi : i < (g.trimmed liveOnly).size) : ∃ p, (g.trimmedOrder liveOnly).rank? p = some i :=
  exists_rank?_of_lt hi

theorem valid_trimmed (g : Automaton) (liveOnly : Bool) : (g.trimmed liveOnly).Valid :=
  valid_select (rank?_trimmedOrder_initial g liveOnly)

theorem IsDeterministic.trimmed (hd : g.IsDeterministic) (liveOnly : Bool) :
    (g.trimmed liveOnly).IsDeterministic :=
  hd.select _

/-- Trimming keeps the language. -/
theorem language_trimmed (hg : g.Valid) (liveOnly : Bool) :
    (g.trimmed liveOnly).language = g.language :=
  languageFrom_select (keeps_live_trimmedOrder hg liveOnly) (rank?_trimmedOrder_initial g liveOnly)

theorem loops_trimmed (g : Automaton) (liveOnly : Bool) {c : Char} :
    (g.trimmed liveOnly).Loops c ↔ g.Loops c :=
  loops_select (rank?_trimmedOrder_initial g liveOnly)

/-- Every state of a trimmed automaton is reachable. -/
theorem reachable_trimmed (hg : g.Valid) (liveOnly : Bool) {i : StateId}
    (hi : i < (g.trimmed liveOnly).size) : (g.trimmed liveOnly).Reachable i := by
  obtain ⟨p, hp⟩ := exists_rank?_trimmedOrder hi
  rcases (mem_trimmedOrder hg).1 (Numbering.mem_of_rank? hp) with rfl | ⟨⟨w, hw⟩, hlive⟩
  · rw [rank?_trimmedOrder_initial] at hp
    exact Option.some.inj hp ▸ reachable_initial _
  · obtain ⟨j, hj, hpath⟩ := hw.select (fun _ _ hq hlive ht => Live.of_mem_targets hq (hlive ht))
      (keeps_trimmedOrder hg liveOnly) hlive (rank?_trimmedOrder_initial g liveOnly)
    rw [hp] at hj
    exact ⟨w, Option.some.inj hj ▸ hpath⟩

/-- Every state but the initial one of an automaton trimmed to live states is live. -/
theorem live_trimmed (hg : g.Valid) {i : StateId} (hi : i < (g.trimmed true).size)
    (hinitial : i ≠ (g.trimmed true).initial) : (g.trimmed true).Live i := by
  obtain ⟨p, hp⟩ := exists_rank?_trimmedOrder hi
  rcases (mem_trimmedOrder hg).1 (Numbering.mem_of_rank? hp) with rfl | ⟨_, hlive⟩
  · rw [rank?_trimmedOrder_initial] at hp
    exact absurd (Option.some.inj hp).symm hinitial
  · obtain ⟨w, hw⟩ := hlive rfl
    rw [← languageFrom_select (keeps_live_trimmedOrder hg true) hp] at hw
    exact ⟨w, hw⟩

/-! ## Canonical numbering -/

/-- The reachable states in the order in which canonical numbering meets them. -/
def canonicalOrder (g : Automaton) : Numbering StateId := (g.mapStates State.merged).breadthFirst

theorem canonical_eq (g : Automaton) :
    g.canonical = ((g.mapStates State.merged).select g.canonicalOrder).mapStates State.sorted :=
  rfl

theorem mem_breadthFirst (hg : g.Valid) {p : StateId} : p ∈ g.breadthFirst ↔ g.Reachable p := by
  unfold breadthFirst
  rw [mem_explore_iff (length_le_of_reached hg), reached_initial_iff]

theorem rank?_breadthFirst_initial (g : Automaton) : g.breadthFirst.rank? g.initial = some 0 :=
  rank?_explore_cons _ _ _ _ _

theorem rank?_canonicalOrder_initial (g : Automaton) :
    g.canonicalOrder.rank? g.initial = some 0 :=
  rank?_breadthFirst_initial (g.mapStates State.merged)

theorem reachable_mapStates_merged {p : StateId} :
    (g.mapStates State.merged).Reachable p ↔ g.Reachable p :=
  exists_congr fun _ => path_mapStates rfl State.alike_merged

theorem mem_canonicalOrder (hg : g.Valid) {p : StateId} :
    p ∈ g.canonicalOrder ↔ g.Reachable p := by
  unfold canonicalOrder
  rw [mem_breadthFirst (hg.mapStates rfl State.alike_merged), reachable_mapStates_merged]

theorem keeps_canonicalOrder (hg : g.Valid) :
    (g.mapStates State.merged).Keeps (fun _ => True) g.canonicalOrder := by
  intro p hp q hq _
  rw [mem_canonicalOrder hg] at hp ⊢
  obtain ⟨w, hw⟩ := exists_path_of_mem_targets
    ((mem_targets_mapStates rfl State.alike_merged).1 hq)
  exact hp.path hw

theorem languageFrom_canonical (hg : g.Valid) {p i : StateId}
    (hp : g.canonicalOrder.rank? p = some i) : g.canonical.languageFrom i = g.languageFrom p := by
  rw [canonical_eq, languageFrom_mapStates rfl State.alike_sorted, languageFrom_select _ hp,
    languageFrom_mapStates rfl State.alike_merged]
  exact fun p hp q hq _ => keeps_canonicalOrder hg p hp q hq trivial

/-- Canonical numbering keeps the language. -/
theorem language_canonical (hg : g.Valid) : g.canonical.language = g.language :=
  languageFrom_canonical hg (rank?_canonicalOrder_initial g)

section Ranks

variable {p q i j : StateId} (hp : g.canonicalOrder.rank? p = some i)

include hp

theorem isAccepting_canonical : g.canonical.isAccepting i = g.isAccepting p := by
  rw [canonical_eq, isAccepting_mapStates rfl State.alike_sorted, isAccepting_select hp,
    isAccepting_mapStates rfl State.alike_merged]

theorem moves_canonical (hq : g.canonicalOrder.rank? q = some j) {c : Char} :
    g.canonical.Moves i c j ↔ g.Moves p c q := by
  rw [canonical_eq, moves_mapStates rfl State.alike_sorted, moves_select_of_rank? hp hq,
    moves_mapStates rfl State.alike_merged]

theorem mem_epsilons_canonical (hq : g.canonicalOrder.rank? q = some j) :
    j ∈ (g.canonical.state i).epsilons ↔ q ∈ (g.state p).epsilons := by
  rw [canonical_eq, mem_epsilons_mapStates rfl State.alike_sorted,
    mem_epsilons_select_of_rank? hp hq, mem_epsilons_mapStates rfl State.alike_merged]

theorem lt_size_canonical : i < g.canonical.size := by
  rw [canonical_eq, size_mapStates, size_select]
  exact Numbering.rank?_lt_length hp

end Ranks

theorem loops_canonical (g : Automaton) {c : Char} : g.canonical.Loops c ↔ g.Loops c :=
  moves_canonical (rank?_canonicalOrder_initial g) (rank?_canonicalOrder_initial g)

theorem valid_canonical (g : Automaton) : g.canonical.Valid := by
  rw [canonical_eq]
  exact (valid_select (rank?_canonicalOrder_initial g)).mapStates rfl State.alike_sorted

theorem IsDeterministic.canonical (hd : g.IsDeterministic) : g.canonical.IsDeterministic := by
  rw [canonical_eq]
  exact ((hd.mapStates fun _ => State.IsDeterministic.merged).select _).mapStates
    fun _ => State.IsDeterministic.sorted

theorem exists_rank?_canonicalOrder {i : StateId} (hi : i < g.canonical.size) :
    ∃ p, g.canonicalOrder.rank? p = some i := by
  rw [canonical_eq, size_mapStates] at hi
  exact exists_rank?_of_lt hi

/-- Every state of a canonical automaton is reachable. -/
theorem reachable_canonical (hg : g.Valid) {i : StateId} (hi : i < g.canonical.size) :
    g.canonical.Reachable i := by
  obtain ⟨p, hp⟩ := exists_rank?_canonicalOrder hi
  obtain ⟨w, hw⟩ := (mem_canonicalOrder hg).1 (Numbering.mem_of_rank? hp)
  have hmerged := (path_mapStates (g := g) rfl State.alike_merged).2 hw
  obtain ⟨j, hj, hpath⟩ := hmerged.select (fun _ _ _ _ => trivial) (keeps_canonicalOrder hg)
    trivial (rank?_canonicalOrder_initial g)
  rw [hp] at hj
  rw [canonical_eq]
  exact ⟨w, (path_mapStates rfl State.alike_sorted).2 (Option.some.inj hj ▸ hpath)⟩

/-! ## States with the same language

Deterministic states with the same language agree on acceptance and follow each other wherever
a word is still to be accepted. The two states may belong to different automata. -/

section SameLanguage

variable {h : Automaton} {p q : StateId}

theorem Live.of_languageFrom_eq (heq : g.languageFrom p = h.languageFrom q) (hp : g.Live p) :
    h.Live q := by
  obtain ⟨w, hw⟩ := hp
  exact ⟨w, heq ▸ hw⟩

theorem isAccepting_eq_of_languageFrom_eq (hg : g.IsDeterministic) (hh : h.IsDeterministic)
    (heq : g.languageFrom p = h.languageFrom q) : g.isAccepting p = h.isAccepting q := by
  rw [Bool.eq_iff_iff, ← hg.epsilonFree.nil_mem_languageFrom_iff,
    ← hh.epsilonFree.nil_mem_languageFrom_iff, heq]

theorem Moves.exists_moves_of_languageFrom_eq (hg : g.IsDeterministic) (hh : h.IsDeterministic)
    {c : Char} {p' : StateId} (hmoves : g.Moves p c p') (hlive : g.Live p')
    (heq : g.languageFrom p = h.languageFrom q) :
    ∃ q', h.Moves q c q' ∧ g.languageFrom p' = h.languageFrom q' := by
  obtain ⟨w, hw⟩ := hlive
  have hword : c :: w ∈ h.languageFrom q := by
    rw [← heq]
    exact hg.epsilonFree.cons_mem_languageFrom_iff.2 ⟨p', hmoves, hw⟩
  obtain ⟨q', hmoves', _⟩ := hh.epsilonFree.cons_mem_languageFrom_iff.1 hword
  refine ⟨q', hmoves', Language.ext fun v => ?_⟩
  rw [hmoves.path.mem_languageFrom_iff hg, hmoves'.path.mem_languageFrom_iff hh, heq]

end SameLanguage

/-! ## Reduced automata -/

/-- A deterministic automaton without a state to spare. -/
structure Reduced (g : Automaton) : Prop where
  valid : g.Valid
  deterministic : g.IsDeterministic
  reachable : ∀ p < g.size, g.Reachable p
  live : ∀ p < g.size, p ≠ g.initial → g.Live p
  distinct : ∀ p < g.size, ∀ q < g.size, g.languageFrom p = g.languageFrom q → p = q

/-- Reachable live states with the same language are equal. -/
def Distinguished (g : Automaton) : Prop :=
  ∀ p q, g.Reachable p → g.Reachable q → g.Live p → g.languageFrom p = g.languageFrom q → p = q

/-- A live state that the initial state reaches makes the initial state live. -/
theorem Reachable.live_initial {p : StateId} (h : g.Reachable p) (hp : g.Live p) :
    g.Live g.initial := by
  obtain ⟨w, hw⟩ := h
  exact Live.of_path hw hp

/-- Trimming reduces an automaton in which states of equal language are equal. -/
theorem Distinguished.reduced_trimmed (hg : g.Valid) (hd : g.IsDeterministic)
    (h : g.Distinguished) : (g.trimmed true).Reduced where
  valid := valid_trimmed g true
  deterministic := hd.trimmed true
  reachable _ hi := reachable_trimmed hg true hi
  live _ hi := live_trimmed hg hi
  distinct i hi j hj heq := by
    obtain ⟨p, hp⟩ := exists_rank?_trimmedOrder hi
    obtain ⟨q, hq⟩ := exists_rank?_trimmedOrder hj
    have hkeeps := keeps_live_trimmedOrder hg true
    rw [trimmed_eq, languageFrom_select hkeeps hp, languageFrom_select hkeeps hq] at heq
    have hpk := (mem_trimmedOrder hg).1 (Numbering.mem_of_rank? hp)
    have hqk := (mem_trimmedOrder hg).1 (Numbering.mem_of_rank? hq)
    have hpr := Reachable.of_mem_trimmedOrder hg (Numbering.mem_of_rank? hp)
    have hqr := Reachable.of_mem_trimmedOrder hg (Numbering.mem_of_rank? hq)
    -- Only the initial state may be dead; if it is, no other state is kept.
    have hpq : p = q := by
      rcases hpk with hpi | ⟨_, hlive⟩
      · rcases hqk with hqi | ⟨_, hlive⟩
        · exact hpi.trans hqi.symm
        · exact (h q p hqr hpr (hlive rfl) heq.symm).symm
      · exact h p q hpr hqr (hlive rfl) heq
    rw [hpq, hq] at hp
    exact (Option.some.inj hp).symm

/-- Canonical numbering keeps an automaton reduced. -/
theorem Reduced.canonical (h : g.Reduced) : g.canonical.Reduced where
  valid := valid_canonical g
  deterministic := h.deterministic.canonical
  reachable _ hi := reachable_canonical h.valid hi
  live i hi hinitial := by
    obtain ⟨p, hp⟩ := exists_rank?_canonicalOrder hi
    have hreach := (mem_canonicalOrder h.valid).1 (Numbering.mem_of_rank? hp)
    have hne : p ≠ g.initial := by
      rintro rfl
      rw [rank?_canonicalOrder_initial] at hp
      exact hinitial (Option.some.inj hp).symm
    obtain ⟨w, hw⟩ := h.live p (hreach.lt_size h.valid) hne
    rw [← languageFrom_canonical h.valid hp] at hw
    exact ⟨w, hw⟩
  distinct i hi j hj heq := by
    obtain ⟨p, hp⟩ := exists_rank?_canonicalOrder hi
    obtain ⟨q, hq⟩ := exists_rank?_canonicalOrder hj
    rw [languageFrom_canonical h.valid hp, languageFrom_canonical h.valid hq] at heq
    have hpr := (mem_canonicalOrder h.valid).1 (Numbering.mem_of_rank? hp)
    have hqr := (mem_canonicalOrder h.valid).1 (Numbering.mem_of_rank? hq)
    have hpq := h.distinct p (hpr.lt_size h.valid) q (hqr.lt_size h.valid) heq
    rw [hpq, hq] at hp
    exact (Option.some.inj hp).symm

end Automaton

end RegularLanguages
