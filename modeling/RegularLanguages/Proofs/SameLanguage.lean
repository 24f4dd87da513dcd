import RegularLanguages.Proofs.EmptyLanguage

set_option autoImplicit false

/-! # Minimizing automata for the same language

Automata that accept the same words are minimized to the same automaton, with one exception: when
there is no such word, the loops on which a run returns to its start are left, and these belong to
the automaton and not to its language (`minimize_eq_iff_of_language_eq`).

The result of a minimization and the automaton it was made from are such a pair. Minimizing keeps
the loops that it does not remove altogether, so a second time nothing changes, whether or not a
word is accepted (`minimize_idempotent`). -/

namespace RegularLanguages.Automaton

variable {g h : Automaton}

/-! ## When the results are the same -/

/-- The loops decide whether two automata without words are minimized to the same one. -/
theorem minimize_eq_iff_of_dead (hg : g.Valid) (hh : h.Valid) (hgdead : ¬ g.Live g.initial)
    (hhdead : ¬ h.Live h.initial) (x : Algorithm) :
    g.minimize x = h.minimize x ↔ x = .brzozowski ∨
      ∀ c, g.step g.startSet c = g.startSet ↔ h.step h.startSet c = h.startSet := by
  constructor
  · intro heq
    obtain ⟨edges, hok, _, hlabels⟩ := exists_minimize_eq_ok_of_dead hg hgdead x
    obtain ⟨edges', hok', _, hlabels'⟩ := exists_minimize_eq_ok_of_dead hh hhdead x
    rw [hok, hok', Except.ok.injEq] at heq
    have hedges : edges = edges' := by simpa [ofList] using heq
    refine or_iff_not_imp_left.2 fun hx c => ?_
    rw [← and_iff_right (b := g.step g.startSet c = g.startSet) hx, ← hlabels, hedges, hlabels',
      and_iff_right hx]
  · intro h
    refine minimize_eq_minimize_of_dead hg hh hgdead hhdead fun c => ?_
    rw [loops_condensed hg hgdead, loops_condensed hh hhdead]
    exact and_congr_right fun hx => h.resolve_left hx c

/-- Automata for the same language are minimized to the same one, unless the language is empty and
    their loops differ. -/
theorem minimize_eq_iff_of_language_eq (hg : g.Valid) (hh : h.Valid)
    (hlanguage : g.language = h.language) (x : Algorithm) :
    g.minimize x = h.minimize x ↔ x = .brzozowski ∨ (∃ w, g.accepts w = true) ∨
      ∀ c, g.step g.startSet c = g.startSet ↔ h.step h.startSet c = h.startSet := by
  by_cases hlive : g.Live g.initial
  · have hword : ∃ w, g.accepts w = true := by
      obtain ⟨w, hw⟩ := hlive
      exact ⟨w, (accepts_iff_mem_language hg).2 hw⟩
    refine iff_of_true ?_ (Or.inr (Or.inl hword))
    rw [minimize_eq_ok hg, minimize_eq_ok hh]
    refine congrArg _ ((reduced_trimmed_condensed hg x).canonical_eq
      (reduced_trimmed_condensed hh x) ?_ ?_)
    · rw [language_trimmed_condensed hg, language_trimmed_condensed hh, hlanguage]
    · exact hlive.of_languageFrom_eq (language_trimmed_condensed hg x).symm
  · have hnone : ¬ ∃ w, g.accepts w = true := by
      intro hword
      obtain ⟨w, hw⟩ := hword
      rw [(not_live_initial_iff hg).1 hlive w] at hw
      exact Bool.false_ne_true hw
    rw [or_iff_right hnone]
    exact minimize_eq_iff_of_dead hg hh hlive
      (not_live_initial_of_language_eq hlanguage.symm hlive) x

/-! ## Minimizing twice -/

/-- The result of a refinement has the loops on which a run of the automaton returns to its
    start. -/
theorem loops_minimized (hg : g.Valid) (hdead : ¬ g.Live g.initial) (a : Algorithm) {c : Char} :
    ((g.condensed a).trimmed true).canonical.Loops c ↔
      a ≠ .brzozowski ∧ g.step g.startSet c = g.startSet := by
  rw [loops_canonical, loops_trimmed, loops_condensed hg hdead]

/-- Minimizing the result again, by the same algorithm, succeeds and does not change it. -/
theorem minimize_idempotent (hg : g.Valid) (a : Algorithm) :
    ∃ m, g.minimize a = .ok m ∧ m.minimize a = .ok m := by
  have hreduced := (reduced_trimmed_condensed hg a).canonical
  have hvalid := valid_canonical ((g.condensed a).trimmed true)
  have hlanguage := (language_canonical (valid_trimmed _ true)).trans
    (language_trimmed_condensed hg a)
  refine ⟨_, minimize_eq_ok hg a, ?_⟩
  rw [← minimize_eq_ok hg a, minimize_eq_iff_of_language_eq hvalid hg hlanguage a]
  by_cases hlive : g.Live g.initial
  · obtain ⟨w, hw⟩ := hlive
    refine Or.inr (Or.inl ⟨w, (accepts_iff_mem_language hvalid).2 ?_⟩)
    rw [hlanguage]
    exact hw
  · -- The result is deterministic, so its runs return to their start where it loops.
    refine or_iff_not_imp_left.2 fun ha => Or.inr fun c => ?_
    rw [← hreduced.deterministic.loops_iff hvalid, loops_minimized hg hlive, and_iff_right ha]

/-- Nothing is accepted, and a loop is left of an automaton that has been determinized. -/
theorem minimize_idempotent_dead :
    let g := ofList [{ edges := [⟨.single 'a', 0⟩, ⟨.single 'b', 1⟩], epsilons := [1] },
      { edges := [⟨.single 'b', 0⟩] }]
    g.Valid ∧ ∃ m, g.minimize .moore = .ok m ∧ m.minimize .moore = .ok m :=
  ⟨by decide, minimize_idempotent (by decide) .moore⟩

end RegularLanguages.Automaton
