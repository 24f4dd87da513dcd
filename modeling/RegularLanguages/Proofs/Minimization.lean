import RegularLanguages.Automaton.Minimal
import RegularLanguages.Automaton.Rational
import RegularLanguages.Proofs.Automaton.Minimality
import RegularLanguages.Proofs.Automaton.Reversal
import RegularLanguages.Proofs.Partition.Hopcroft
import RegularLanguages.Proofs.Partition.Moore
import RegularLanguages.Proofs.Partition.Quotient

set_option autoImplicit false

/-! # Minimization

All three ways arrive at the same point: a deterministic automaton for the language in which the
reachable live states are told apart by their languages (`Condenses`). The two refinements get
there because they find the coarsest congruence of an automaton without dead states,
Brzozowski's way because it reverses an automaton all of whose states are reachable. From there
on the way is common: trimming reduces the automaton, and canonical numbering makes the result
depend on nothing but the language. -/

namespace RegularLanguages.Automaton

variable {g : Automaton}

/-! ## Condensed automata -/

/-- A deterministic automaton for the language of `g` whose states that matter are told apart by
    their languages. -/
structure Condenses (s g : Automaton) : Prop where
  valid : s.Valid
  deterministic : s.IsDeterministic
  language_eq : s.language = g.language
  distinguished : s.Distinguished

/-- The quotient of a trimmed automaton by the coarsest congruence is condensed. -/
theorem condenses_quotient {refine : ClassTable → Partition}
    (hrefine : ∀ t : ClassTable, t.Coherent → t.IsCoarsest (refine t)) (hg : g.Valid)
    (hd : g.IsDeterministic) :
    Condenses ((ClassTable.tableOf (g.trimmed true)).quotient
      (refine (ClassTable.tableOf (g.trimmed true)))) g := by
  have hvalid := valid_trimmed g true
  have hdeterministic := hd.trimmed true
  have htable := ClassTable.tabulates_tableOf hdeterministic
  have hcoarsest := hrefine _ (htable.coherent hvalid)
  constructor
  case valid =>
    exact ClassTable.valid_quotient htable hvalid hdeterministic hcoarsest.partitions.assigns
  case deterministic => exact ClassTable.isDeterministic_quotient htable hdeterministic _
  case language_eq =>
    have hquotient := ClassTable.language_quotient htable hcoarsest.partitions.assigns
      hcoarsest.congruence hvalid hdeterministic
    exact hquotient.trans (language_trimmed hg true)
  case distinguished =>
    refine ClassTable.distinguished_quotient htable hcoarsest hvalid hdeterministic ?_
    intro hinitial s hs
    by_cases heq : s = (g.trimmed true).initial
    · rw [heq]
      exact hinitial
    · exact live_trimmed hg hs heq

/-- Reversing and determinizing twice condenses. -/
theorem condenses_determinizeReversal_twice (hg : g.Valid) :
    Condenses g.determinizeReversal.determinizeReversal g where
  valid := valid_determinizeReversal _
  deterministic := isDeterministic_determinizeReversal _
  language_eq := language_determinizeReversal_twice hg
  distinguished := distinguished_determinizeReversal (valid_determinizeReversal g)
    (isDeterministic_determinizeReversal g) fun _ => reachable_determinizeReversal g

/-! ## What the algorithms leave -/

/-- The quotient of the trimmed deterministic automaton by a refinement. -/
def collapsed (g : Automaton) (refine : ClassTable → Partition) : Automaton :=
  let t := ClassTable.tableOf (g.determinized.trimmed true)
  t.quotient (refine t)

/-- What an algorithm makes of an automaton before the result is trimmed and numbered. -/
def condensed (g : Automaton) : Algorithm → Automaton
  | .hopcroft => g.collapsed Hopcroft.refine
  | .moore => g.collapsed Moore.refine
  | .brzozowski => g.determinizeReversal.determinizeReversal

theorem collapse_eq_ok (hg : g.Valid) (refine : ClassTable → Partition) :
    g.collapse refine = .ok (g.collapsed refine) := by
  have hd := isDeterministic_determinized hg
  show (ClassTable.ofAutomaton? (g.determinized.trimmed true)).bind _ = _
  rw [ClassTable.ofAutomaton?_eq_ok (valid_trimmed g.determinized true) (hd.trimmed true)]
  rfl

theorem condenses_collapsed {refine : ClassTable → Partition}
    (hrefine : ∀ t : ClassTable, t.Coherent → t.IsCoarsest (refine t)) (hg : g.Valid) :
    Condenses (g.collapsed refine) g :=
  have hcondenses := condenses_quotient hrefine (valid_determinized hg)
    (isDeterministic_determinized hg)
  { hcondenses with language_eq := hcondenses.language_eq.trans (language_determinized hg) }

theorem condenses_condensed (hg : g.Valid) (a : Algorithm) : Condenses (g.condensed a) g := by
  cases a with
  | hopcroft => exact condenses_collapsed (fun _ => Hopcroft.isCoarsest_refine) hg
  | moore => exact condenses_collapsed (fun _ => Moore.isCoarsest_refine) hg
  | brzozowski => exact condenses_determinizeReversal_twice hg

/-! ## The result -/

/-- Minimization never fails on a valid automaton: its last check always passes. -/
theorem minimize_eq_ok (hg : g.Valid) (a : Algorithm) :
    g.minimize a = .ok ((g.condensed a).trimmed true).canonical := by
  have hd := (((condenses_condensed hg a).deterministic).trimmed true).canonical
  unfold minimize
  rw [validate_eq_ok_iff.2 hg]
  cases a with
  | hopcroft =>
    rw [collapse_eq_ok hg Hopcroft.refine]
    exact if_pos hd
  | moore =>
    rw [collapse_eq_ok hg Moore.refine]
    exact if_pos hd
  | brzozowski => exact if_pos hd

theorem reduced_trimmed_condensed (hg : g.Valid) (a : Algorithm) :
    ((g.condensed a).trimmed true).Reduced :=
  have hcondenses := condenses_condensed hg a
  hcondenses.distinguished.reduced_trimmed hcondenses.valid hcondenses.deterministic

theorem language_trimmed_condensed (hg : g.Valid) (a : Algorithm) :
    ((g.condensed a).trimmed true).language = g.language :=
  have hcondenses := condenses_condensed hg a
  (language_trimmed hcondenses.valid true).trans hcondenses.language_eq

/-- Minimization never fails on a valid automaton, and returns the canonical form of a reduced
    automaton for its language. -/
theorem exists_minimize_eq_ok (hg : g.Valid) (a : Algorithm) :
    ∃ r : Automaton, g.minimize a = .ok r.canonical ∧ r.Reduced ∧ r.language = g.language :=
  ⟨_, minimize_eq_ok hg a, reduced_trimmed_condensed hg a, language_trimmed_condensed hg a⟩

/-- What is minimized stays valid and keeps its language. -/
theorem exists_minimize_language_eq (hg : g.Valid) (a : Algorithm) :
    ∃ m, g.minimize a = .ok m ∧ m.Valid ∧ m.language = g.language := by
  obtain ⟨r, hr, hreduced, hlanguage⟩ := exists_minimize_eq_ok hg a
  exact ⟨r.canonical, hr, hreduced.canonical.valid,
    (language_canonical hreduced.valid).trans hlanguage⟩

/-- Minimization of a valid automaton succeeds, and the result is deterministic and accepts the
    same words. -/
theorem minimize_accepts (hg : g.Valid) (a : Algorithm) :
    ∃ m, g.minimize a = .ok m ∧ m.IsDeterministic ∧ ∀ w, m.accepts w = g.accepts w := by
  obtain ⟨r, hr, hreduced, hlanguage⟩ := exists_minimize_eq_ok hg a
  refine ⟨r.canonical, hr, hreduced.canonical.deterministic, ?_⟩
  rw [accepts_eq_accepts_iff hg hreduced.canonical.valid, language_canonical hreduced.valid]
  exact hlanguage

/-- A nondeterministic automaton is minimized and keeps its words. -/
theorem minimize_accepts_union_char :
    ((char 'a').union (char 'a')).Valid ∧
      ∃ m, ((char 'a').union (char 'a')).minimize .hopcroft = .ok m ∧ m.IsDeterministic ∧
        ∀ w, m.accepts w = ((char 'a').union (char 'a')).accepts w :=
  ⟨by decide, minimize_accepts (by decide) .hopcroft⟩

/-- The result has no more states than any valid deterministic automaton that accepts the same
    words. All its states are reachable, all but the initial one are live, and two different
    states are told apart by a word. -/
theorem minimize_minimal (hg : g.Valid) (a : Algorithm) :
    ∃ m, g.minimize a = .ok m ∧
      (∀ d : Automaton, d.Valid → d.IsDeterministic → (∀ w, d.accepts w = g.accepts w) →
        m.size ≤ d.size) ∧
      (∀ p < m.size, m.Reachable p) ∧
      (∀ p < m.size, p ≠ m.initial → m.Live p) ∧
      (∀ p < m.size, ∀ q < m.size, p ≠ q →
        ∃ w, ¬ (w ∈ m.languageFrom p ↔ w ∈ m.languageFrom q)) := by
  obtain ⟨r, hr, hreduced, hlanguage⟩ := exists_minimize_eq_ok hg a
  have hminimal := hreduced.canonical
  refine ⟨r.canonical, hr, fun d hd hdeterministic haccepts => ?_, hminimal.reachable,
    hminimal.live, fun p hp q hq hne => ?_⟩
  · apply hminimal.size_le hdeterministic hd
    rw [language_canonical hreduced.valid, hlanguage]
    exact ((accepts_eq_accepts_iff hg hd).1 haccepts).symm
  · by_contra hsame
    apply hne
    apply hminimal.distinct p hp q hq
    ext w
    exact not_not.1 (not_exists.1 hsame w)

/-- The smallest automaton for one character. -/
theorem minimize_minimal_char :
    (char 'a').Valid ∧
      ∃ m, (char 'a').minimize .moore = .ok m ∧
        (∀ d : Automaton, d.Valid → d.IsDeterministic →
          (∀ w, d.accepts w = (char 'a').accepts w) → m.size ≤ d.size) ∧
        (∀ p < m.size, m.Reachable p) ∧
        (∀ p < m.size, p ≠ m.initial → m.Live p) ∧
        (∀ p < m.size, ∀ q < m.size, p ≠ q →
          ∃ w, ¬ (w ∈ m.languageFrom p ↔ w ∈ m.languageFrom q)) :=
  ⟨by decide, minimize_minimal (by decide) .moore⟩

/-- Minimization gives a normal form: for two valid automata, the first of which accepts a word,
    and any two algorithms the results are the same automaton if and only if the automata accept
    the same words. -/
theorem minimize_eq_minimize_iff {h : Automaton} (hg : g.Valid) (hh : h.Valid)
    (hword : ∃ w, g.accepts w = true) (a b : Algorithm) :
    ∃ m n, g.minimize a = .ok m ∧ h.minimize b = .ok n ∧
      (m = n ↔ ∀ w, g.accepts w = h.accepts w) := by
  obtain ⟨r, hr, hreduced, hlanguage⟩ := exists_minimize_eq_ok hg a
  obtain ⟨s, hs, hreduced', hlanguage'⟩ := exists_minimize_eq_ok hh b
  refine ⟨r.canonical, s.canonical, hr, hs, ?_⟩
  rw [accepts_eq_accepts_iff hh hg, ← hlanguage, ← hlanguage']
  constructor
  · intro heq
    rw [← language_canonical hreduced.valid, heq, language_canonical hreduced'.valid]
  · intro heq
    obtain ⟨w, hw⟩ := hword
    rw [accepts_iff_mem_language hg, ← hlanguage] at hw
    exact hreduced.canonical_eq hreduced' heq ⟨w, hw⟩

/-- One character, and its union with itself, by two algorithms. -/
theorem minimize_eq_minimize_iff_char :
    (char 'a').Valid ∧ ((char 'a').union (char 'a')).Valid ∧ (char 'a').accepts ['a'] = true ∧
      ∃ m n, (char 'a').minimize .hopcroft = .ok m ∧
        ((char 'a').union (char 'a')).minimize .brzozowski = .ok n ∧
        (m = n ↔ ∀ w, (char 'a').accepts w = ((char 'a').union (char 'a')).accepts w) :=
  ⟨by decide, by decide, by decide, minimize_eq_minimize_iff (by decide) (by decide)
    ⟨['a'], by decide⟩ .hopcroft .brzozowski⟩

end RegularLanguages.Automaton
