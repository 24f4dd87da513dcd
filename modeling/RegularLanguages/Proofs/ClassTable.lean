import RegularLanguages.Proofs.Automaton.Classes

set_option autoImplicit false

/-! # Tables of automata

A table is filled move by move, and every move is entered in two places. What a table says about a
state and what it says about the states that lead there stay in step as long as no place is filled
twice: that is what one entry preserves (`InStep.addMove`) and so what a run of entries preserves
(`InStep.foldl_addMove`). The moves of a deterministic automaton start from different places, so
its table is in step.

A deterministic automaton and its class table hold the same moves. `Tabulates` states this once,
and all that follows about tables rests on it and not on how the table was filled. `Represents`
says what a user of the table is promised, its columns and the search for predecessors included,
and every valid deterministic automaton has such a table (`table_represents`). -/

namespace RegularLanguages.ClassTable

variable {t : ClassTable} {g : Automaton} {move : Cell × StateId} {moves : List (Cell × StateId)}

/-! ## Entering moves -/

theorem target?_addMove (t : ClassTable) (move : Cell × StateId) (s : StateId) (k : Nat) :
    (t.addMove move).target? s k = if move.1 = ⟨s, k⟩ then some move.2 else t.target? s k := by
  unfold target? addMove
  rw [Std.TreeMap.getElem?_insert]
  simp only [Std.LawfulEqOrd.compare_eq_iff_eq]

theorem sourcesOf_addMove (t : ClassTable) (move : Cell × StateId) (u : StateId) (k : Nat) :
    (t.addMove move).sourcesOf u k =
      if move.2 = u ∧ move.1.column = k then t.sourcesOf u k ++ [move.1.state]
      else t.sourcesOf u k := by
  unfold sourcesOf addMove
  rw [Std.TreeMap.getD_alter]
  simp only [Std.LawfulEqOrd.compare_eq_iff_eq, Cell.mk.injEq]
  split
  · rename_i h
    obtain ⟨rfl, rfl⟩ := h
    rw [Option.getD_some, Array.toList_push, ← Std.TreeMap.getD_eq_getD_getElem?]
  · rfl

/-- Moves from different places that are still free. -/
structure Enterable (t : ClassTable) (moves : List (Cell × StateId)) : Prop where
  distinct : moves.Pairwise fun m n => m.1 ≠ n.1
  free : ∀ m ∈ moves, t.target? m.1.state m.1.column = none

theorem Enterable.of_cons (h : t.Enterable (move :: moves)) :
    t.target? move.1.state move.1.column = none ∧ (t.addMove move).Enterable moves := by
  obtain ⟨hne, hdistinct⟩ := List.pairwise_cons.1 h.distinct
  refine ⟨h.free move List.mem_cons_self, hdistinct, fun m hm => ?_⟩
  rw [target?_addMove, if_neg (hne m hm)]
  exact h.free m (List.mem_cons_of_mem _ hm)

/-- The table goes where it went and where the entered moves go. -/
theorem target?_foldl_addMove (hmoves : t.Enterable moves) {s u : StateId} {k : Nat} :
    (moves.foldl addMove t).target? s k = some u ↔
      t.target? s k = some u ∨ (⟨s, k⟩, u) ∈ moves := by
  induction moves generalizing t with
  | nil => exact (or_iff_left List.not_mem_nil).symm
  | cons move moves ih =>
    obtain ⟨hfree, hrest⟩ := hmoves.of_cons
    rw [List.foldl_cons, ih hrest, target?_addMove, List.mem_cons, ← or_assoc]
    refine or_congr_left ?_
    obtain ⟨place, target⟩ := move
    split
    · rename_i hplace
      obtain rfl := hplace
      rw [hfree]
      simp [eq_comm]
    · rename_i hplace
      simp [Ne.symm hplace]

/-- Entering moves changes nothing but the moves. -/
theorem foldl_addMove_fields (t : ClassTable) (moves : List (Cell × StateId)) :
    let filled := moves.foldl addMove t
    filled.size = t.size ∧ filled.start = t.start ∧ filled.acceptance = t.acceptance ∧
      filled.classes = t.classes := by
  induction moves generalizing t with
  | nil => exact ⟨rfl, rfl, rfl, rfl⟩
  | cons move moves ih => exact ih (t.addMove move)

/-! ## Both sides in step -/

/-- What the table says about a state agrees with what it says about the states that lead there. -/
structure InStep (t : ClassTable) : Prop where
  mem_sourcesOf_iff : ∀ s k u, s ∈ t.sourcesOf u k ↔ t.target? s k = some u
  nodup_sourcesOf : ∀ u k, (t.sourcesOf u k).Nodup

/-- A move from a place that is still free is entered on both sides. -/
theorem InStep.addMove (h : t.InStep) (hfree : t.target? move.1.state move.1.column = none) :
    (t.addMove move).InStep := by
  obtain ⟨⟨source, column⟩, target⟩ := move
  -- What comes to a state is not there yet.
  have hnew : ∀ u, source ∉ t.sourcesOf u column := by
    intro u hu
    rw [h.mem_sourcesOf_iff, hfree] at hu
    cases hu
  constructor
  case mem_sourcesOf_iff =>
    intro s k u
    rw [sourcesOf_addMove, target?_addMove]
    by_cases hplace : (Cell.mk source column) = ⟨s, k⟩
    · obtain ⟨rfl, rfl⟩ := Cell.mk.inj hplace
      rw [if_pos rfl, Option.some.injEq]
      split
      · rename_i htarget
        exact iff_of_true (List.mem_append_right _ List.mem_cons_self) htarget.1
      · rename_i htarget
        exact iff_of_false (hnew u) fun heq => htarget ⟨heq, rfl⟩
    · rw [if_neg hplace, ← h.mem_sourcesOf_iff]
      split
      · rename_i htarget
        obtain ⟨rfl, rfl⟩ := htarget
        rw [List.mem_append, List.mem_singleton]
        exact or_iff_left fun heq => hplace (heq ▸ rfl)
      · exact Iff.rfl
  case nodup_sourcesOf =>
    intro u k
    rw [sourcesOf_addMove]
    split
    · rename_i htarget
      obtain ⟨rfl, rfl⟩ := htarget
      refine List.nodup_append.2 ⟨h.nodup_sourcesOf _ _, List.nodup_singleton _, ?_⟩
      intro s hs s' hs' heq
      rw [heq, List.mem_singleton.1 hs'] at hs
      exact hnew _ hs
    · exact h.nodup_sourcesOf u k

theorem InStep.foldl_addMove (h : t.InStep) (hmoves : t.Enterable moves) :
    (moves.foldl ClassTable.addMove t).InStep := by
  induction moves generalizing t with
  | nil => exact h
  | cons move moves ih =>
    obtain ⟨hfree, hrest⟩ := hmoves.of_cons
    exact ih (h.addMove hfree) hrest

/-! ## Tables -/

/-- The table holds the acceptance and the moves of the automaton. -/
structure Tabulates (t : ClassTable) (g : Automaton) : Prop where
  size_eq : t.size = g.size
  start_eq : t.start = g.initial
  isAccepting_eq : ∀ p, t.isAccepting p = g.isAccepting p
  disjoint : t.classes.Pairwise CharRange.Disjoint
  moves_iff : ∀ p c q, g.Moves p c q ↔
    ∃ k piece, t.classes[k]? = some piece ∧ c ∈ piece ∧ t.target? p k = some q
  /-- There are no moves but on the classes. -/
  lt_width : ∀ {p k q}, t.target? p k = some q → k < t.width
  inStep : t.InStep

theorem ofAutomaton?_eq_ok (hg : g.Valid) (hd : g.IsDeterministic) :
    ofAutomaton? g = .ok (tableOf g) := by
  unfold ofAutomaton?
  rw [Automaton.validate_eq_ok_iff.2 hg]
  exact if_pos hd

/-- A table is made of the valid deterministic automata and of no others. -/
theorem ofAutomaton?_eq_ok_iff :
    ofAutomaton? g = .ok t ↔ g.Valid ∧ g.IsDeterministic ∧ tableOf g = t := by
  refine ⟨fun h => ?_, fun ⟨hg, hd, heq⟩ => heq ▸ ofAutomaton?_eq_ok hg hd⟩
  unfold ofAutomaton? at h
  cases hvalidate : g.validate with
  | error e =>
    rw [hvalidate] at h
    cases h
  | ok u =>
    rw [hvalidate] at h
    by_cases hd : g.IsDeterministic
    · have htable : tableOf g = t := Except.ok.inj ((if_pos hd).symm.trans h)
      exact ⟨Automaton.validate_eq_ok_iff.1 hvalidate, hd, htable⟩
    · cases (if_neg hd).symm.trans h

theorem size_tableOf (g : Automaton) : (tableOf g).size = g.size :=
  (foldl_addMove_fields (blank g) g.classMoves).1

theorem start_tableOf (g : Automaton) : (tableOf g).start = g.initial :=
  (foldl_addMove_fields (blank g) g.classMoves).2.1

theorem acceptance_tableOf (g : Automaton) :
    (tableOf g).acceptance = g.states.map State.accepting :=
  (foldl_addMove_fields (blank g) g.classMoves).2.2.1

theorem classes_tableOf (g : Automaton) : (tableOf g).classes = g.classes :=
  (foldl_addMove_fields (blank g) g.classMoves).2.2.2

theorem isAccepting_tableOf (g : Automaton) (p : StateId) :
    (tableOf g).isAccepting p = g.isAccepting p := by
  unfold isAccepting Automaton.isAccepting Automaton.state
  rw [acceptance_tableOf, Array.getElem?_map]
  cases g.states[p]? with
  | none => rfl
  | some s => rfl

theorem target?_blank (g : Automaton) (p : StateId) (k : Nat) : (blank g).target? p k = none :=
  Std.TreeMap.getElem?_emptyc

theorem sourcesOf_blank (g : Automaton) (p : StateId) (k : Nat) : (blank g).sourcesOf p k = [] := by
  unfold sourcesOf blank
  rw [Std.TreeMap.getD_emptyc]

theorem inStep_blank (g : Automaton) : (blank g).InStep where
  mem_sourcesOf_iff s k u := by
    rw [sourcesOf_blank, target?_blank]
    exact iff_of_false List.not_mem_nil nofun
  nodup_sourcesOf u k := by
    rw [sourcesOf_blank]
    exact List.nodup_nil

theorem enterable_classMoves (hd : g.IsDeterministic) : (blank g).Enterable g.classMoves where
  distinct := Automaton.pairwise_classMoves hd
  free _ _ := target?_blank g _ _

theorem target?_tableOf (hd : g.IsDeterministic) {p q : StateId} {k : Nat} :
    (tableOf g).target? p k = some q ↔
      ∃ piece, g.classes[k]? = some piece ∧ g.Moves p piece.lo q := by
  refine (target?_foldl_addMove (enterable_classMoves hd)).trans ?_
  rw [target?_blank, Automaton.mem_classMoves]
  exact or_iff_right nofun

/-- The table of a deterministic automaton holds its moves, and both its sides are in step. -/
theorem tabulates_tableOf (hd : g.IsDeterministic) : (tableOf g).Tabulates g where
  size_eq := size_tableOf g
  start_eq := start_tableOf g
  isAccepting_eq := isAccepting_tableOf g
  disjoint := by
    rw [classes_tableOf]
    exact g.pairwise_disjoint_classes
  lt_width := by
    intro p k q h
    obtain ⟨piece, hk, _⟩ := (target?_tableOf hd).1 h
    rw [width, classes_tableOf]
    exact (List.getElem?_eq_some_iff.1 hk).1
  inStep := (inStep_blank g).foldl_addMove (enterable_classMoves hd)
  moves_iff p c q := by
    simp only [target?_tableOf hd, classes_tableOf]
    constructor
    · intro hmoves
      -- The first character of a class stands for every other one.
      obtain ⟨e, he, hc, _⟩ := id hmoves
      obtain ⟨piece, hpiece, hcp⟩ :=
        Automaton.exists_mem_classes (Automaton.mem_labels.2 ⟨p, e, he, rfl⟩) hc
      obtain ⟨k, hk⟩ := List.mem_iff_getElem?.1 hpiece
      have hlo := (Automaton.moves_iff_of_mem_classes hpiece hcp).1 hmoves
      exact ⟨k, piece, hk, hcp, piece, hk, hlo⟩
    · rintro ⟨k, piece, hk, hcp, other, hother, hlo⟩
      rw [Option.some.inj (hother.symm.trans hk)] at hlo
      exact (Automaton.moves_iff_of_mem_classes (List.mem_of_getElem? hk) hcp).2 hlo

theorem Tabulates.target?_eq_some_iff (h : t.Tabulates g) {k : Nat} {piece : CharRange}
    (hk : t.classes[k]? = some piece) {c : Char} (hc : c ∈ piece) {s u : StateId} :
    t.target? s k = some u ↔ g.Moves s c u := by
  rw [h.moves_iff]
  refine ⟨fun hu => ⟨k, piece, hk, hc, hu⟩, ?_⟩
  rintro ⟨j, other, hj, hco, hu⟩
  rw [CharRange.index_eq_of_pairwise_disjoint h.disjoint hk hj hc hco]
  exact hu

/-! ## Predecessors -/

theorem InStep.mem_predecessors (h : t.InStep) {targets : List StateId} {k : Nat} {s : StateId} :
    s ∈ t.predecessors targets k ↔ ∃ u ∈ targets, t.target? s k = some u := by
  unfold predecessors
  simp only [List.mem_flatMap, h.mem_sourcesOf_iff]

/-- A state has one target on a class, so it is the predecessor of one of the targets only. -/
theorem InStep.nodup_predecessors (h : t.InStep) {targets : List StateId} (hnodup : targets.Nodup)
    (k : Nat) : (t.predecessors targets k).Nodup := by
  unfold predecessors
  refine List.nodup_flatMap.2 ⟨fun u _ => h.nodup_sourcesOf u k, hnodup.imp fun hne => ?_⟩
  intro s hs hs'
  rw [h.mem_sourcesOf_iff] at hs hs'
  exact hne (Option.some.inj (hs.symm.trans hs'))

/-! ## What a table promises -/

/-- The table is the automaton with classes in place of characters. -/
structure Represents (t : ClassTable) (g : Automaton) : Prop extends t.Tabulates g where
  /-- Each class ends before the next one starts. -/
  ascending : t.classes.Pairwise fun r s => r.hi < s.lo
  /-- A character is in a class if and only if some edge reads it. -/
  covers : ∀ c, (∃ piece ∈ t.classes, c ∈ piece) ↔ ∃ p q, g.Moves p c q
  /-- A state goes on a class where its edge goes that reads a character of the class. -/
  target?_eq_some_iff : ∀ p k piece, t.classes[k]? = some piece → ∀ c ∈ piece, ∀ q,
    t.target? p k = some q ↔ g.Moves p c q
  /-- It goes nowhere on a class if and only if no edge reads a character of the class. -/
  target?_eq_none_iff : ∀ p k piece, t.classes[k]? = some piece → ∀ c ∈ piece,
    (t.target? p k = none ↔ ∀ q, ¬ g.Moves p c q)
  /-- The predecessors of some states on a class are the states that go to one of them. -/
  mem_predecessors_iff : ∀ targets k s,
    s ∈ t.predecessors targets k ↔ ∃ q ∈ targets, t.target? s k = some q
  /-- No predecessor is listed twice. -/
  nodup_predecessors : ∀ targets k, targets.Nodup → (t.predecessors targets k).Nodup

theorem represents_tableOf (hd : g.IsDeterministic) : (tableOf g).Represents g where
  toTabulates := tabulates_tableOf hd
  ascending := by
    rw [classes_tableOf]
    exact g.pairwise_classes
  covers c := by
    rw [classes_tableOf]
    exact Automaton.exists_mem_classes_iff
  target?_eq_some_iff p k piece hk c hc q := (tabulates_tableOf hd).target?_eq_some_iff hk hc
  target?_eq_none_iff p k piece hk c hc := by
    rw [Option.eq_none_iff_forall_ne_some]
    exact forall_congr' fun q => ((tabulates_tableOf hd).target?_eq_some_iff hk hc).not
  mem_predecessors_iff targets k s := (tabulates_tableOf hd).inStep.mem_predecessors
  nodup_predecessors targets k h := (tabulates_tableOf hd).inStep.nodup_predecessors h k

/-- The valid automata that have a table are the deterministic ones, and the table represents the
    automaton. -/
theorem table_represents (hg : g.Valid) :
    ((∃ t, ofAutomaton? g = .ok t) ↔ g.IsDeterministic) ∧
      ∀ t, ofAutomaton? g = .ok t → t.Represents g := by
  refine ⟨⟨fun h => ?_, fun hd => ⟨_, ofAutomaton?_eq_ok hg hd⟩⟩, fun t h => ?_⟩
  · obtain ⟨t, ht⟩ := h
    exact (ofAutomaton?_eq_ok_iff.1 ht).2.1
  · obtain ⟨_, hd, rfl⟩ := ofAutomaton?_eq_ok_iff.1 h
    exact represents_tableOf hd

/-- Labels that overlap, one that ends where the surrogates begin, one across the surrogates, and
    gaps that nothing reads. -/
def overlapping : Automaton :=
  .ofList [{ edges := [⟨⟨'a', 'z', by decide⟩, 1⟩, ⟨⟨'\ud700', '\ud7ff', by decide⟩, 0⟩] },
    { accepting := true, edges := [⟨⟨'m', 'p', by decide⟩, 0⟩] },
    { edges := [⟨.single 'k', 0⟩, ⟨⟨'\ud7ff', '\ue000', by decide⟩, 1⟩] }]

theorem table_represents_overlapping :
    let t := tableOf overlapping
    overlapping.Valid ∧ ofAutomaton? overlapping = .ok t ∧
      ((∃ t, ofAutomaton? overlapping = .ok t) ↔ overlapping.IsDeterministic) ∧
      t.Represents overlapping ∧ [1, 0].Nodup ∧ (t.predecessors [1, 0] 2).Nodup := by
  have hg : overlapping.Valid := by decide
  have h : ofAutomaton? overlapping = .ok (tableOf overlapping) := ofAutomaton?_eq_ok hg (by decide)
  obtain ⟨htable, hrepresents⟩ := table_represents hg
  have hnodup : [1, 0].Nodup := by decide
  exact ⟨hg, h, htable, hrepresents _ h, hnodup, (hrepresents _ h).nodup_predecessors _ 2 hnodup⟩

/-- What comes to the first target stands first. -/
example : (tableOf overlapping).predecessors [0, 1] 1 = [2, 0] := by cbv

end RegularLanguages.ClassTable
