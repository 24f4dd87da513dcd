import Mathlib.Data.Finset.Powerset
import RegularLanguages.Automaton.Rational
import RegularLanguages.Automaton.Subset
import RegularLanguages.Proofs.Automaton.Reachable
import RegularLanguages.Proofs.CharRange.Pieces

set_option autoImplicit false

/-! # The subset construction follows runs

A subset moves on a piece of the character space as one step of a run moves on each character
of the piece (`exists_mem_moves_iff`). A path of the subset automaton is therefore a run in
which no set is empty, and the language of a subset is the union of the languages of its members
(`languageFrom_determinizeFrom`). The result is deterministic, valid and reachable throughout.

`determinized` is what the operations that need a deterministic automaton work on. -/

namespace RegularLanguages

/-- There are at most `2 ^ n` sets of numbers below `n`. -/
theorem length_le_two_pow {n : Nat} {sets : List StateSet} (h : sets.Nodup)
    (hlt : ∀ s ∈ sets, ∀ p ∈ s, p < n) : sets.length ≤ 2 ^ n := by
  have hinj : Function.Injective fun s : StateSet => s.toList.toFinset := by
    intro s t hst
    refine StateSet.ext fun p => ?_
    have hmem := Finset.ext_iff.1 hst p
    simpa using hmem
  have hnodup : (sets.map fun s : StateSet => s.toList.toFinset).Nodup := h.map hinj
  have hsub : (sets.map fun s : StateSet => s.toList.toFinset).toFinset
      ⊆ (Finset.range n).powerset := by
    intro t ht
    rw [List.mem_toFinset, List.mem_map] at ht
    obtain ⟨s, hs, rfl⟩ := ht
    rw [Finset.mem_powerset]
    intro p hp
    exact Finset.mem_range.2 (hlt s hs p (List.mem_toFinset.1 hp))
  have hcard := Finset.card_le_card hsub
  rwa [List.toFinset_card_of_nodup hnodup, List.length_map, Finset.card_powerset,
    Finset.card_range] at hcard

namespace Automaton

variable {g : Automaton} {start s t : StateSet}

/-! ## One move -/

/-- Some edge of a member reads `c`. -/
def CanMove (g : Automaton) (s : StateSet) (c : Char) : Prop := ∃ p ∈ s, ∃ q, g.Moves p c q

theorem canMove_iff {c : Char} : g.CanMove s c ↔ g.successors s c ≠ [] := by
  constructor
  · rintro ⟨p, hp, q, hq⟩
    exact List.ne_nil_of_mem (mem_successors.2 ⟨p, hp, hq⟩)
  · intro h
    obtain ⟨q, hq⟩ := List.exists_mem_of_ne_nil _ h
    obtain ⟨p, hp, hpq⟩ := mem_successors.1 hq
    exact ⟨p, hp, q, hpq⟩

/-- The labels of all edges that leave a set. -/
def labelsOf (g : Automaton) (s : StateSet) : List CharRange :=
  (s.toList.flatMap fun id => (g.state id).edges).map Edge.label

theorem mem_labelsOf {p : StateId} (hp : p ∈ s) {e : Edge} (he : e ∈ (g.state p).edges) :
    e.label ∈ g.labelsOf s :=
  List.mem_map.2 ⟨e, List.mem_flatMap.2 ⟨p, hp, he⟩, rfl⟩

theorem mem_moves {piece : CharRange} :
    (piece, t) ∈ g.moves s ↔
      piece ∈ CharRange.intervals (CharRange.boundaries (g.labelsOf s)) ∧
        g.CanMove s piece.lo ∧ g.step s piece.lo = t := by
  -- The list that `moves` closes is the list of successors, and it is empty if nothing moves.
  have hreached : ∀ c, ((s.toList.flatMap fun id => (g.state id).edges).filterMap fun e =>
      if c ∈ e.label then some e.target else none) = g.successors s c := fun c =>
    List.filterMap_flatMap
  unfold moves
  simp only [hreached]
  rw [List.mem_filterMap]
  constructor
  · rintro ⟨r, hr, heq⟩
    split at heq
    · exact absurd heq.symm (Option.some_ne_none _)
    · rename_i hne
      obtain ⟨rfl, rfl⟩ := Prod.mk.inj (Option.some.inj heq)
      exact ⟨hr, canMove_iff.2 fun h => hne (by rw [h]; rfl), rfl⟩
  · rintro ⟨hpiece, hmove, rfl⟩
    refine ⟨piece, hpiece, ?_⟩
    rw [if_neg fun h => canMove_iff.1 hmove (List.isEmpty_iff.1 h)]
    rfl

/-- All characters of a piece move a set alike. -/
theorem moves_iff_of_mem_piece {piece : CharRange}
    (hpiece : piece ∈ CharRange.intervals (CharRange.boundaries (g.labelsOf s))) {c d : Char}
    (hc : c ∈ piece) (hd : d ∈ piece) {p q : StateId} (hp : p ∈ s) :
    g.Moves p c q ↔ g.Moves p d q := by
  refine exists_congr fun e => and_congr_right fun he => and_congr_left fun _ => ?_
  exact CharRange.mem_iff_of_mem_intervals hpiece hc hd (mem_labelsOf hp he)

theorem canMove_iff_of_mem_piece {piece : CharRange}
    (hpiece : piece ∈ CharRange.intervals (CharRange.boundaries (g.labelsOf s))) {c : Char}
    (hc : c ∈ piece) : g.CanMove s piece.lo ↔ g.CanMove s c :=
  exists_congr fun _ => and_congr_right fun hp => exists_congr fun _ =>
    moves_iff_of_mem_piece hpiece piece.lo_mem hc hp

theorem step_eq_of_mem_piece (hg : g.Valid) {piece : CharRange}
    (hpiece : piece ∈ CharRange.intervals (CharRange.boundaries (g.labelsOf s))) {c : Char}
    (hc : c ∈ piece) : g.step s piece.lo = g.step s c := by
  refine StateSet.ext fun q => ?_
  unfold step
  rw [mem_closureOf hg, mem_closureOf hg]
  refine exists_congr fun p => and_congr_left fun _ => ?_
  rw [mem_successors, mem_successors]
  exact exists_congr fun r => and_congr_right fun hr =>
    moves_iff_of_mem_piece hpiece piece.lo_mem hc hr

/-- A set moves on a character as one step of a run does. -/
theorem exists_mem_moves_iff (hg : g.Valid) {c : Char} :
    (∃ piece, (piece, t) ∈ g.moves s ∧ c ∈ piece) ↔ g.CanMove s c ∧ g.step s c = t := by
  constructor
  · rintro ⟨piece, hmem, hc⟩
    obtain ⟨hpiece, hmove, hstep⟩ := mem_moves.1 hmem
    rw [canMove_iff_of_mem_piece hpiece hc] at hmove
    rw [step_eq_of_mem_piece hg hpiece hc] at hstep
    exact ⟨hmove, hstep⟩
  · rintro ⟨hmove, hstep⟩
    obtain ⟨p, hp, q, e, he, hce, hq⟩ := hmove
    obtain ⟨piece, hpiece, hc⟩ := CharRange.exists_mem_intervals (mem_labelsOf hp he) hce
    refine ⟨piece, mem_moves.2 ⟨hpiece, ?_, ?_⟩, hc⟩
    · rw [canMove_iff_of_mem_piece hpiece hc]
      exact ⟨p, hp, q, e, he, hce, hq⟩
    · rw [step_eq_of_mem_piece hg hpiece hc]
      exact hstep

/-! ## The subsets found -/

/-- The set that some states and all words of epsilon edges from them make up. -/
def IsClosed (g : Automaton) (s : StateSet) : Prop := ∃ states, s = g.closureOf states

theorem IsClosed.lt_size (hg : g.Valid) (hs : g.IsClosed s) {p : StateId} (hp : p ∈ s) :
    p < g.size := by
  obtain ⟨states, rfl⟩ := hs
  obtain ⟨r, _, hr, hpath⟩ := (mem_closureOf hg).1 hp
  exact hpath.lt_size hg hr

theorem IsClosed.mem_run (hg : g.Valid) (hs : g.IsClosed s) {w : List Char} {q : StateId} :
    q ∈ g.run s w ↔ ∃ p ∈ s, g.Path p w q := by
  obtain ⟨states, rfl⟩ := hs
  rw [mem_run_closureOf hg]
  constructor
  · rintro ⟨p, hp, hlt, hpath⟩
    exact ⟨p, (mem_closureOf hg).2 ⟨p, hp, hlt, Path.nil p⟩, hpath⟩
  · rintro ⟨r, hr, hpath⟩
    obtain ⟨p, hp, hlt, hpr⟩ := (mem_closureOf hg).1 hr
    exact ⟨p, hp, hlt, hpr.append hpath⟩

theorem reached_moves_isClosed
    (h : Reached (fun s => (g.moves s).map Prod.snd) [g.epsilonClosure start] s) :
    g.IsClosed s := by
  cases h with
  | start h =>
    rw [List.mem_singleton.1 h]
    exact ⟨start.toList, rfl⟩
  | next _ h =>
    obtain ⟨⟨piece, t⟩, hmem, rfl⟩ := List.mem_map.1 h
    obtain ⟨_, _, hstep⟩ := mem_moves.1 hmem
    exact ⟨_, hstep.symm⟩

/-- No more subsets are reached than there are sets of states. -/
theorem length_le_of_reached_moves (hg : g.Valid) (sets : List StateSet) (hnodup : sets.Nodup)
    (hsets : ∀ s ∈ sets,
      Reached (fun s => (g.moves s).map Prod.snd) [g.epsilonClosure start] s) :
    sets.length ≤ 2 ^ g.size :=
  length_le_two_pow hnodup fun s hs _ hp => (reached_moves_isClosed (hsets s hs)).lt_size hg hp

theorem mem_subsets (hg : g.Valid) :
    s ∈ g.subsets start ↔
      Reached (fun s => (g.moves s).map Prod.snd) [g.epsilonClosure start] s := by
  unfold subsets
  exact mem_explore_iff (length_le_of_reached_moves hg)

theorem isClosed_of_mem_subsets (hg : g.Valid) (hs : s ∈ g.subsets start) : g.IsClosed s :=
  reached_moves_isClosed ((mem_subsets hg).1 hs)

theorem step_mem_subsets (hg : g.Valid) (hs : s ∈ g.subsets start) {c : Char}
    (hc : g.CanMove s c) : g.step s c ∈ g.subsets start := by
  obtain ⟨piece, hmem, _⟩ := (exists_mem_moves_iff hg).2 ⟨hc, rfl⟩
  rw [mem_subsets hg] at hs ⊢
  exact hs.next (List.mem_map.2 ⟨_, hmem, rfl⟩)

theorem rank?_subsets_epsilonClosure (g : Automaton) (start : StateSet) :
    (g.subsets start).rank? (g.epsilonClosure start) = some 0 :=
  rank?_explore_cons _ _ _ _ _

/-! ## The subset automaton -/

section Determinize

variable {i j : StateId}

theorem state_determinizeFrom (hs : (g.subsets start).rank? s = some i) :
    (g.determinizeFrom start).state i =
      { accepting := g.anyAccepting s
        edges := mergeEdges <| (g.moves s).filterMap fun (label, next) =>
          ((g.subsets start).rank? next).map fun target => ⟨label, target⟩ } :=
  state_ofList_map hs

theorem size_determinizeFrom (g : Automaton) (start : StateSet) :
    (g.determinizeFrom start).size = (g.subsets start).toList.length := by
  rw [determinizeFrom, size_ofList_map]

theorem exists_rank?_subsets (hi : i < (g.determinizeFrom start).size) :
    ∃ s, (g.subsets start).rank? s = some i := by
  rw [size_determinizeFrom] at hi
  exact Numbering.exists_rank?_of_lt_length hi

theorem isAccepting_determinizeFrom (hs : (g.subsets start).rank? s = some i) :
    (g.determinizeFrom start).isAccepting i = g.anyAccepting s := by
  rw [isAccepting, state_determinizeFrom hs]

theorem moves_determinizeFrom (hg : g.Valid) (hs : (g.subsets start).rank? s = some i)
    {c : Char} :
    (g.determinizeFrom start).Moves i c j ↔
      g.CanMove s c ∧ (g.subsets start).rank? (g.step s c) = some j := by
  rw [Moves, state_determinizeFrom hs, leads_mergeEdges, leads_filterMap_rank?]
  simp only [exists_mem_moves_iff hg]
  constructor
  · intro h
    obtain ⟨_, ⟨hmove, rfl⟩, hj⟩ := h
    exact ⟨hmove, hj⟩
  · intro h
    exact ⟨g.step s c, ⟨h.1, rfl⟩, h.2⟩

theorem epsilonFree_determinizeFrom (g : Automaton) (start : StateSet) :
    (g.determinizeFrom start).EpsilonFree := by
  refine epsilonFree_of_forall_lt fun i hi => ?_
  obtain ⟨s, hs⟩ := exists_rank?_subsets hi
  rw [state_determinizeFrom hs]

theorem isDeterministic_determinizeFrom (hg : g.Valid) (start : StateSet) :
    (g.determinizeFrom start).IsDeterministic := by
  refine isDeterministic_of_forall_lt fun i hi => ⟨epsilonFree_determinizeFrom g start i, ?_⟩
  obtain ⟨s, hs⟩ := exists_rank?_subsets hi
  have hfunctional : Functional ((g.determinizeFrom start).state i).edges := by
    intro c j k hj hk
    have hj' := ((moves_determinizeFrom hg hs).1 hj).2
    have hk' := ((moves_determinizeFrom hg hs).1 hk).2
    exact Option.some.inj (hj'.symm.trans hk')
  have hmerged : IsMerged ((g.determinizeFrom start).state i).edges := by
    rw [state_determinizeFrom hs]
    exact isMerged_mergeEdges _
  exact hmerged.pairwise_disjoint hfunctional

theorem valid_determinizeFrom (hg : g.Valid) (start : StateSet) :
    (g.determinizeFrom start).Valid := by
  have hlt : ∀ {s i}, (g.subsets start).rank? s = some i → i < (g.determinizeFrom start).size := by
    intro s i hs
    rw [size_determinizeFrom]
    exact Numbering.rank?_lt_length hs
  refine (epsilonFree_determinizeFrom g start).valid
    (hlt (rank?_subsets_epsilonClosure g start)) fun i hi c j hj => ?_
  obtain ⟨s, hs⟩ := exists_rank?_subsets hi
  exact hlt ((moves_determinizeFrom hg hs).1 hj).2

/-! ## Paths of the subset automaton -/

/-- A path of the subset automaton follows a run. -/
theorem Path.of_determinizeFrom (hg : g.Valid) {w : List Char}
    (h : (g.determinizeFrom start).Path i w j) (hs : (g.subsets start).rank? s = some i) :
    (g.subsets start).rank? (g.run s w) = some j := by
  induction h generalizing s with
  | nil i => exact hs
  | epsilon hq _ _ => exact absurd hq (epsilonFree_determinizeFrom g start).not_mem_epsilons
  | read hq _ ih =>
    rw [run_cons hg]
    exact ih ((moves_determinizeFrom hg hs).1 hq).2

/-- A run that ends in a set with members is a path of the subset automaton. -/
theorem path_determinizeFrom (hg : g.Valid) {w : List Char} {q : StateId}
    (hs : (g.subsets start).rank? s = some i) (hq : q ∈ g.run s w) :
    ∃ j, (g.determinizeFrom start).Path i w j := by
  induction w generalizing s i with
  | nil => exact ⟨i, Path.nil i⟩
  | cons c w ih =>
    have hmem := Numbering.mem_of_rank? hs
    -- The run ends in a member, so some member of the first set can move.
    have hmove : g.CanMove s c := by
      obtain ⟨p, hp, hpath⟩ := ((isClosed_of_mem_subsets hg hmem).mem_run hg).1 hq
      obtain ⟨r, r', hr, hmoves, _⟩ := hpath.exists_moves
      have hrs : r ∈ g.run s [] := ((isClosed_of_mem_subsets hg hmem).mem_run hg).2 ⟨p, hp, hr⟩
      exact ⟨r, hrs, r', hmoves⟩
    obtain ⟨k, hk⟩ := Numbering.mem_iff_exists_rank?.1 (step_mem_subsets hg hmem hmove)
    rw [run_cons hg] at hq
    obtain ⟨j, hj⟩ := ih hk hq
    exact ⟨j, Path.read ((moves_determinizeFrom hg hs).2 ⟨hmove, hk⟩) hj⟩

/-- The language of a subset is the union of the languages of its members. -/
theorem languageFrom_determinizeFrom (hg : g.Valid) (hs : (g.subsets start).rank? s = some i)
    {w : List Char} :
    w ∈ (g.determinizeFrom start).languageFrom i ↔ ∃ p ∈ s, w ∈ g.languageFrom p := by
  have hclosed := isClosed_of_mem_subsets hg (Numbering.mem_of_rank? hs)
  constructor
  · rintro ⟨j, hpath, hacc⟩
    rw [isAccepting_determinizeFrom (hpath.of_determinizeFrom hg hs), anyAccepting_iff] at hacc
    obtain ⟨q, hq, hqacc⟩ := hacc
    obtain ⟨p, hp, hpq⟩ := (hclosed.mem_run hg).1 hq
    exact ⟨p, hp, q, hpq, hqacc⟩
  · rintro ⟨p, hp, q, hpq, hqacc⟩
    have hq : q ∈ g.run s w := (hclosed.mem_run hg).2 ⟨p, hp, hpq⟩
    obtain ⟨j, hpath⟩ := path_determinizeFrom hg hs hq
    refine ⟨j, hpath, ?_⟩
    rw [isAccepting_determinizeFrom (hpath.of_determinizeFrom hg hs), anyAccepting_iff]
    exact ⟨q, hq, hqacc⟩

/-- Every state of the subset automaton is reachable. -/
theorem reachable_determinizeFrom (hg : g.Valid) (hi : i < (g.determinizeFrom start).size) :
    (g.determinizeFrom start).Reachable i := by
  obtain ⟨s, hs⟩ := exists_rank?_subsets hi
  have hreached := (mem_subsets hg).1 (Numbering.mem_of_rank? hs)
  clear hi
  induction hreached generalizing i with
  | start hmem =>
    rw [List.mem_singleton.1 hmem, rank?_subsets_epsilonClosure] at hs
    exact Option.some.inj hs ▸ reachable_initial _
  | @next t s ht hmem ih =>
    obtain ⟨⟨piece, _⟩, hmoves, rfl⟩ := List.mem_map.1 hmem
    obtain ⟨k, hk⟩ := Numbering.mem_iff_exists_rank?.1 ((mem_subsets hg).2 ht)
    obtain ⟨hmove, rfl⟩ := (exists_mem_moves_iff hg).1 ⟨piece, hmoves, piece.lo_mem⟩
    -- The piece has a first character, and reading it is the edge that the search followed.
    have hread := (moves_determinizeFrom hg hk).2 ⟨hmove, hs⟩
    exact (ih hk).path (Path.read hread (Path.nil i))

/-- The subset automaton accepts what is accepted from one of the states it starts in. -/
theorem mem_language_determinizeFrom (hg : g.Valid) (start : StateSet) {w : List Char} :
    w ∈ (g.determinizeFrom start).language ↔
      ∃ p ∈ start, p < g.size ∧ w ∈ g.languageFrom p := by
  rw [language]
  show w ∈ (g.determinizeFrom start).languageFrom 0 ↔ _
  rw [languageFrom_determinizeFrom hg (rank?_subsets_epsilonClosure g start)]
  constructor
  · rintro ⟨q, hq, hw⟩
    obtain ⟨p, hp, hlt, hpath⟩ := (mem_closureOf hg).1 hq
    exact ⟨p, hp, hlt, hpath.languageFrom_mem hw⟩
  · rintro ⟨p, hp, hlt, hw⟩
    exact ⟨p, (mem_closureOf hg).2 ⟨p, hp, hlt, Path.nil p⟩, hw⟩

/-- Determinizing keeps the language. -/
theorem language_determinize (hg : g.Valid) : g.determinize.language = g.language := by
  ext w
  rw [determinize, mem_language_determinizeFrom hg]
  constructor
  · rintro ⟨p, hp, _, hw⟩
    rw [StateSet.mem_singleton.1 hp] at hw
    exact hw
  · intro hw
    exact ⟨g.initial, StateSet.mem_singleton.2 rfl, hg.1, hw⟩

/-- There are at most as many states as sets of states of `g`. -/
theorem size_determinizeFrom_le (hg : g.Valid) (start : StateSet) :
    (g.determinizeFrom start).size ≤ 2 ^ g.size := by
  rw [size_determinizeFrom]
  refine length_le_two_pow (Numbering.nodup_toList _) fun s hs p hp => ?_
  exact (isClosed_of_mem_subsets hg (Numbering.mem_toList.1 hs)).lt_size hg hp

/-- The subset automaton is deterministic, and it accepts a word if `g` does so when started from
    one of the existing states of `start`. All its states are reachable, and there are at most
    `2 ^ n` of them. -/
theorem determinizeFrom_accepts_iff (hg : g.Valid) (start : StateSet) :
    (g.determinizeFrom start).IsDeterministic ∧
      (∀ w, (g.determinizeFrom start).accepts w = true ↔
        ∃ p ∈ start, p < g.size ∧ (g.startingAt p).accepts w = true) ∧
      (∀ w, g.determinize.accepts w = g.accepts w) ∧
      (∀ i < (g.determinizeFrom start).size, (g.determinizeFrom start).Reachable i) ∧
      (g.determinizeFrom start).size ≤ 2 ^ g.size := by
  have hvalid := valid_determinizeFrom hg start
  have hdeterminize : g.determinize.Valid := valid_determinizeFrom hg _
  refine ⟨isDeterministic_determinizeFrom hg start, fun w => ?_, ?_,
    fun _ hi => reachable_determinizeFrom hg hi, size_determinizeFrom_le hg start⟩
  · rw [accepts_iff_mem_language hvalid, mem_language_determinizeFrom hg]
    refine exists_congr fun p => and_congr_right fun _ => and_congr_right fun hp => ?_
    rw [accepts_iff_mem_language (hg.startingAt hp), language_startingAt]
  · exact (accepts_eq_accepts_iff hg hdeterminize).2 (language_determinize hg)

/-- A start set with a state that does not exist. -/
theorem determinizeFrom_accepts_iff_union_char :
    ((char 'a').union (char 'b')).Valid ∧
      let g := (char 'a').union (char 'b')
      let start := StateSet.ofList [1, 3, 9]
      (g.determinizeFrom start).IsDeterministic ∧
        (∀ w, (g.determinizeFrom start).accepts w = true ↔
          ∃ p ∈ start, p < g.size ∧ (g.startingAt p).accepts w = true) ∧
        (∀ w, g.determinize.accepts w = g.accepts w) ∧
        (∀ i < (g.determinizeFrom start).size, (g.determinizeFrom start).Reachable i) ∧
        (g.determinizeFrom start).size ≤ 2 ^ g.size :=
  ⟨by decide, determinizeFrom_accepts_iff (by decide) _⟩

end Determinize

/-! ## Determinizing where it is needed

Minimization and complement leave a deterministic automaton as it is, with its unreachable states
and its edges as they are stored. -/

/-- A deterministic automaton itself, and the subset automaton of any other. -/
def determinized (g : Automaton) : Automaton := if g.IsDeterministic then g else g.determinize

theorem determinized_cases (g : Automaton) :
    (g.IsDeterministic ∧ g.determinized = g) ∨ g.determinized = g.determinize := by
  by_cases hd : g.IsDeterministic
  · exact Or.inl ⟨hd, if_pos hd⟩
  · exact Or.inr (if_neg hd)

theorem valid_determinized (hg : g.Valid) : g.determinized.Valid := by
  obtain ⟨_, heq⟩ | heq := g.determinized_cases
  · rwa [heq]
  · rw [heq]
    exact valid_determinizeFrom hg _

theorem isDeterministic_determinized (hg : g.Valid) : g.determinized.IsDeterministic := by
  obtain ⟨hd, heq⟩ | heq := g.determinized_cases
  · rwa [heq]
  · rw [heq]
    exact isDeterministic_determinizeFrom hg _

theorem language_determinized (hg : g.Valid) : g.determinized.language = g.language := by
  obtain ⟨_, heq⟩ | heq := g.determinized_cases
  · rw [heq]
  · rw [heq]
    exact language_determinize hg

end Automaton

end RegularLanguages
