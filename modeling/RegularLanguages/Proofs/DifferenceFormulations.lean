import RegularLanguages.Proofs.Automaton.Difference
import RegularLanguages.Proofs.SameLanguage

set_option autoImplicit false

/-! # Two ways to a difference

What is taken away from an automaton can be all of `b` or only what it has in common with `b`. The
words that are left are the same, and if there are any, minimizing gives the same automaton. If
none is left, the refinements keep the loops of a dead initial state, and these come out of two
different constructions: from the sets of states of `b`, closed under epsilon edges, or from the
pairs of an intersection, which are not. `minimize_remainder_eq_iff` says for which automata the
results differ. It takes an epsilon edge of `b` that is followed after a character. -/

namespace RegularLanguages.Automaton

variable {a b g h : Automaton} {alphabet : Alphabet} {c : Char}

/-! ## Loops of the constructions -/

/-- A numbering that starts with `x` numbers the successors of `x`: number zero is the only one
    among them if and only if `x` is. -/
theorem forall_rank?_eq_zero_iff {α : Type} [Ord α] {order : Numbering α} {next : α → Prop} {x : α}
    (hx : order.rank? x = some 0) (hnext : ∀ y, next y → y ∈ order) :
    (∀ j, (∃ y, next y ∧ order.rank? y = some j) ↔ j = 0) ↔ ∀ y, next y ↔ y = x := by
  constructor
  · intro h y
    constructor
    · intro hy
      obtain ⟨j, hj⟩ := Numbering.mem_iff_exists_rank?.1 (hnext y hy)
      rw [(h j).1 ⟨y, hy, hj⟩] at hj
      exact Numbering.rank?_inj hj hx
    · intro heq
      obtain ⟨z, hz, hrank⟩ := (h 0).2 rfl
      rwa [heq, ← Numbering.rank?_inj hrank hx]
  · intro h j
    simp only [h, exists_eq_left, hx, Option.some.injEq]
    exact eq_comm

theorem onlyLoops_trimmed (hg : g.Valid) : (g.trimmed false).OnlyLoops c ↔ g.OnlyLoops c := by
  have hinitial := rank?_trimmedOrder_initial g false
  unfold OnlyLoops
  show (∀ j, (g.select (g.trimmedOrder false)).Moves 0 c j ↔ j = 0) ↔ _
  simp only [moves_select hinitial]
  refine forall_rank?_eq_zero_iff hinitial fun q hq => ?_
  exact keeps_trimmedOrder hg false g.initial (Numbering.mem_of_rank? hinitial) q hq.mem_targets
    nofun

/-- Removing epsilon edges follows the ones before a character. -/
theorem onlyLoops_withoutEpsilons (hg : g.Valid) :
    g.withoutEpsilons.OnlyLoops c ↔ g.Returns c := by
  obtain ⟨hfree, heq⟩ | heq := g.withoutEpsilons_cases
  · rw [heq, hfree.returns_iff hg]
  · rw [heq, onlyLoops_trimmed (valid_closedStates hg)]
    refine forall_congr' fun q => iff_congr ?_ Iff.rfl
    exact (moves_closedStates hg hg.1).trans (mem_successors_startSet hg).symm

theorem onlyLoops_product (ha : a.Valid) (hb : b.Valid) :
    (a.product b).OnlyLoops c ↔ a.OnlyLoops c ∧ b.OnlyLoops c := by
  have hinitial := rank?_jointPairs_initial a b
  have hreached := (mem_jointPairs ha hb).1 (Numbering.mem_of_rank? hinitial)
  have hpairs : (a.product b).OnlyLoops c ↔ ∀ next : StatePair,
      a.Moves a.initial c next.left ∧ b.Moves b.initial c next.right ↔
        next = ⟨a.initial, b.initial⟩ := by
    show (∀ j, (a.product b).Moves 0 c j ↔ j = 0) ↔ _
    simp only [moves_product hinitial]
    refine forall_rank?_eq_zero_iff hinitial fun next hnext => ?_
    exact (mem_jointPairs ha hb).2 (hreached.move hnext.1 hnext.2)
  rw [hpairs]
  constructor
  · intro h
    obtain ⟨hleft, hright⟩ := (h ⟨a.initial, b.initial⟩).2 rfl
    constructor
    · intro q
      constructor
      · intro hq
        exact congrArg StatePair.left ((h ⟨q, b.initial⟩).1 ⟨hq, hright⟩)
      · intro hq
        rwa [hq]
    · intro q
      constructor
      · intro hq
        exact congrArg StatePair.right ((h ⟨a.initial, q⟩).1 ⟨hleft, hq⟩)
      · intro hq
        rwa [hq]
  · intro h next
    rw [h.1, h.2]
    cases next
    rw [StatePair.mk.injEq]

/-- The start of an intersection comes back to itself where both sides return. -/
theorem step_intersection_eq_iff (ha : a.Valid) (hb : b.Valid) :
    (a.intersection b).step (a.intersection b).startSet c = (a.intersection b).startSet ↔
      a.Returns c ∧ b.Returns c := by
  have hvalid := valid_intersection a b
  have hfree : (a.intersection b).EpsilonFree := epsilonFree_product _ _
  rw [hfree.step_eq_iff hvalid, hfree.returns_iff hvalid, intersection,
    onlyLoops_product (valid_withoutEpsilons ha) (valid_withoutEpsilons hb),
    onlyLoops_withoutEpsilons ha, onlyLoops_withoutEpsilons hb]

/-- A complement returns where the determinized automaton loops. -/
theorem returns_complementOver (hb : b.Valid) :
    (b.determinized.complementOver alphabet).Returns c ↔
      c ∈ alphabet ∧ b.step b.startSet c = b.startSet := by
  have hvalid := valid_complementOver_determinized hb alphabet
  have hd := isDeterministic_complementOver (isDeterministic_determinized hb) alphabet
  have hinitial := (valid_determinized hb).1
  rw [← hd.epsilonFree.step_eq_iff hvalid, ← hd.loops_iff hvalid, ← loops_determinized hb]
  refine (moves_complementOver hinitial).trans (and_congr_right fun _ => ?_)
  -- The initial state is not the sink.
  exact or_iff_left fun h => absurd h.1 (Nat.ne_of_lt hinitial)

/-! ## The two formulations -/

/-- What is left of `a` without the words of `b`, for an alphabet that covers the edges of `a`. -/
def remainder (a b : Automaton) (alphabet : Alphabet) : Automaton :=
  a.intersection (b.determinized.complementOver alphabet)

theorem valid_remainder (a b : Automaton) (alphabet : Alphabet) :
    (a.remainder b alphabet).Valid :=
  valid_intersection _ _

theorem difference_eq_remainder (hsymbol : ∃ c, c ∈ alphabet)
    (hcovers : ∀ r ∈ a.labels, alphabet.Covers r) (ha : a.Valid) (b : Automaton) :
    a.difference b alphabet = .ok (a.remainder b alphabet) :=
  (difference_eq_ok_iff ha).2 ⟨hsymbol, coveredBy_of_forall_labels hcovers, rfl⟩

section Formulations

variable (ha : a.Valid) (hb : b.Valid) (hcovers : ∀ r ∈ a.labels, alphabet.Covers r)

include ha hb hcovers

theorem mem_language_remainder {w : List Char} :
    w ∈ (a.remainder b alphabet).language ↔ w ∈ a.language ∧ w ∉ b.language :=
  mem_language_intersection_complementOver ha hb (coveredBy_of_forall_labels hcovers)

/-- Taking away what `a` does not have changes nothing. -/
theorem language_remainder_intersection :
    (a.remainder b alphabet).language = (a.remainder (a.intersection b) alphabet).language := by
  ext w
  rw [mem_language_remainder ha hb hcovers,
    mem_language_remainder ha (valid_intersection a b) hcovers, mem_language_intersection ha hb]
  tauto

/-- A character on which `a` returns is on one of its edges, and so in the alphabet. -/
theorem step_remainder_eq_iff :
    (a.remainder b alphabet).step (a.remainder b alphabet).startSet c
        = (a.remainder b alphabet).startSet ↔
      a.Returns c ∧ b.step b.startSet c = b.startSet := by
  rw [remainder, step_intersection_eq_iff ha (valid_complementOver_determinized hb alphabet),
    returns_complementOver hb]
  refine and_congr_right fun hreturns => and_iff_right ?_
  obtain ⟨p, hpath, e, he, hc, _⟩ := (mem_successors_startSet ha).1 ((hreturns _).2 rfl)
  exact coveredBy_of_forall_labels hcovers p ⟨[], hpath⟩ e he c hc

/-- The two formulations are minimized to the same automaton unless nothing is left of `a`, a
    refinement is used, and on some character `a` returns to its initial state and `b` returns to
    its whole start, but only after epsilon edges. -/
theorem minimize_remainder_eq_iff (x : Algorithm) :
    (a.remainder b alphabet).minimize x = (a.remainder (a.intersection b) alphabet).minimize x ↔
      x = .brzozowski ∨ (∃ w, a.accepts w = true ∧ b.accepts w = false) ∨
        ∀ c, a.Returns c → b.step b.startSet c = b.startSet → b.Returns c := by
  have hab := valid_intersection a b
  have hword : (∃ w, (a.remainder b alphabet).accepts w = true) ↔
      ∃ w, a.accepts w = true ∧ b.accepts w = false := by
    refine exists_congr fun w => ?_
    rw [accepts_iff_mem_language (valid_remainder _ _ _), accepts_iff_mem_language ha,
      ← Bool.not_eq_true, accepts_iff_mem_language hb]
    exact mem_language_remainder ha hb hcovers
  rw [minimize_eq_iff_of_language_eq (valid_remainder _ _ _) (valid_remainder _ _ _)
    (language_remainder_intersection ha hb hcovers), hword]
  refine or_congr_right (or_congr_right (forall_congr' fun c => ?_))
  rw [step_remainder_eq_iff ha hb hcovers, step_remainder_eq_iff ha hab hcovers,
    step_intersection_eq_iff ha hb]
  constructor
  · intro h hreturns hstep
    exact (h.1 ⟨hreturns, hstep⟩).2.2
  · intro h
    constructor
    · intro hleft
      exact ⟨hleft.1, hleft.1, h hleft.1 hleft.2⟩
    · intro hright
      exact ⟨hright.1, hright.2.2.step_eq hb⟩

end Formulations

/-- For an alphabet with symbols that covers the edges of `a`, both formulations of the difference
    succeed and are minimized by every algorithm. The results are equal if and only if a word is
    left, or Brzozowski's algorithm is used, or `b` follows no epsilon edge to come back to its
    start on a character on which `a` returns; in particular they are equal for every `b` without
    epsilon edges. -/
theorem minimize_difference_formulations (ha : a.Valid) (hb : b.Valid)
    (hsymbol : ∃ c, c ∈ alphabet) (hcovers : ∀ r ∈ a.labels, alphabet.Covers r)
    (x : Algorithm) :
    ∃ d e m n, a.difference b alphabet = .ok d ∧
      a.difference (a.intersection b) alphabet = .ok e ∧
      d.minimize x = .ok m ∧ e.minimize x = .ok n ∧
      (m = n ↔ x = .brzozowski ∨ (∃ w, a.accepts w = true ∧ b.accepts w = false) ∨
        ∀ c, a.Returns c → b.step b.startSet c = b.startSet → b.Returns c) ∧
      (b.EpsilonFree → m = n) := by
  have heq := minimize_remainder_eq_iff ha hb hcovers x
  rw [minimize_eq_ok (valid_remainder _ _ _), minimize_eq_ok (valid_remainder _ _ _),
    Except.ok.injEq] at heq
  refine ⟨_, _, _, _, difference_eq_remainder hsymbol hcovers ha b,
    difference_eq_remainder hsymbol hcovers ha _, minimize_eq_ok (valid_remainder _ _ _) x,
    minimize_eq_ok (valid_remainder _ _ _) x, heq, fun hfree => heq.2 ?_⟩
  exact Or.inr (Or.inr fun c _ hstep => (hfree.step_eq_iff hb).1 hstep)

/-- One state with a loop. -/
def selfLoop : Automaton := ofList [{ accepting := true, edges := [⟨.single 'x', 0⟩] }]

/-- The same words, with a second state that does nothing for them. -/
def idleLoop : Automaton :=
  ofList [{ accepting := true, edges := [⟨.single 'x', 0⟩], epsilons := [1] },
    { edges := [⟨.single 'x', 1⟩] }]

theorem minimize_difference_formulations_loops :
    selfLoop.Valid ∧ idleLoop.Valid ∧ (∃ c, c ∈ Alphabet.ofChars ['x']) ∧
      (∀ r ∈ selfLoop.labels, (Alphabet.ofChars ['x']).Covers r) ∧
      ∃ d e m n, selfLoop.difference idleLoop (.ofChars ['x']) = .ok d ∧
        selfLoop.difference (selfLoop.intersection idleLoop) (.ofChars ['x']) = .ok e ∧
        d.minimize .hopcroft = .ok m ∧ e.minimize .hopcroft = .ok n ∧
        (m = n ↔ Algorithm.hopcroft = .brzozowski ∨
          (∃ w, selfLoop.accepts w = true ∧ idleLoop.accepts w = false) ∨
          ∀ c, selfLoop.Returns c → idleLoop.step idleLoop.startSet c = idleLoop.startSet →
            idleLoop.Returns c) ∧
        (idleLoop.EpsilonFree → m = n) :=
  have hsymbol : ∃ c, c ∈ Alphabet.ofChars ['x'] := ⟨'x', by decide⟩
  have hcovers : ∀ r ∈ selfLoop.labels, (Alphabet.ofChars ['x']).Covers r :=
    Alphabet.checkRanges_eq_ok_iff.1 (by decide)
  ⟨by decide, by decide, hsymbol, hcovers,
    minimize_difference_formulations (by decide) (by decide) hsymbol hcovers .hopcroft⟩

/-- Every word of the loop is a word of the other automaton. -/
theorem accepts_idleLoop {w : List Char} (hw : selfLoop.accepts w = true) :
    idleLoop.accepts w = true := by
  have hd : selfLoop.IsDeterministic := by decide
  have hsimulates : Simulates (fun p i => p = 0 ∧ i = 0) selfLoop idleLoop := by
    refine hd.simulates fun hpi hmoves => ?_
    obtain ⟨rfl, rfl⟩ := hpi
    obtain ⟨e, he, hc, rfl⟩ := hmoves
    rw [List.mem_singleton.1 he] at hc ⊢
    exact ⟨0, ⟨⟨.single 'x', 0⟩, List.mem_singleton.2 rfl, hc, rfl⟩, rfl, rfl⟩
  rw [accepts_iff_mem_language (by decide)] at hw ⊢
  exact hsimulates.mem_languageFrom (fun hpi _ => hpi.2 ▸ rfl) ⟨rfl, rfl⟩ hw

/-- Nothing is left of the loop, but the formulations are minimized to different automata. -/
theorem minimize_difference_formulations_differ :
    ¬ ∀ (a b : Automaton) (alphabet : Alphabet) (x : Algorithm), a.Valid → b.Valid →
      (∃ c, c ∈ alphabet) → (∀ r ∈ a.labels, alphabet.Covers r) →
      (∀ r ∈ b.labels, alphabet.Covers r) →
      ∃ d e m, a.difference b alphabet = .ok d ∧
        a.difference (a.intersection b) alphabet = .ok e ∧
        d.minimize x = .ok m ∧ e.minimize x = .ok m := by
  intro hall
  have ha : selfLoop.Valid := by decide
  have hb : idleLoop.Valid := by decide
  have hsymbol : ∃ c, c ∈ Alphabet.ofChars ['x'] := ⟨'x', by decide⟩
  have hcovers : ∀ r ∈ selfLoop.labels, (Alphabet.ofChars ['x']).Covers r :=
    Alphabet.checkRanges_eq_ok_iff.1 (by decide)
  obtain ⟨d, e, m, hd, he, hm, hn⟩ := hall selfLoop idleLoop (.ofChars ['x']) .hopcroft ha hb
    hsymbol hcovers (Alphabet.checkRanges_eq_ok_iff.1 (by decide))
  rw [difference_eq_remainder hsymbol hcovers ha, Except.ok.injEq] at hd he
  rw [← hd] at hm
  rw [← he, ← hm, eq_comm, minimize_remainder_eq_iff ha hb hcovers] at hn
  rcases hn with halgorithm | ⟨w, hw, hnot⟩ | hloops
  · exact nomatch halgorithm
  · rw [accepts_idleLoop hw] at hnot
    exact Bool.noConfusion hnot
  · have hsuccessors : selfLoop.successors selfLoop.startSet 'x' = [0] := by decide
    have hreturns : selfLoop.Returns 'x' := by
      intro q
      rw [hsuccessors]
      exact List.mem_singleton
    have hback := hloops 'x' hreturns (by decide) 1
    exact absurd (hback.1 (by decide)) (by decide)

end RegularLanguages.Automaton
