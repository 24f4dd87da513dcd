import Mathlib.Data.Fintype.EquivFin
import RegularLanguages.Proofs.Automaton.Renumbering

set_option autoImplicit false

/-! # Reduced automata are smallest, and alike

Every live state of a reduced automaton has a language that each deterministic automaton for the
same language must have at some state as well, so no such automaton is smaller
(`Reduced.size_le`). Between two reduced automata the states with equal languages correspond one
to one; the correspondence renames one automaton to the other, and canonical numbering does not
see the names (`Reduced.canonical_eq`).

The second statement needs a word in the language. For the empty language the initial state is
dead, and what a dead state does is not determined by the language. -/

namespace RegularLanguages.Automaton

variable {g h : Automaton}

/-- A word that leads to a live state leads somewhere in every deterministic automaton for the
    language, and to a state with the same language. -/
theorem exists_languageFrom_eq (hg : g.IsDeterministic) (hh : h.IsDeterministic) (hv : h.Valid)
    (heq : g.language = h.language) {p : StateId} (hp : g.Reachable p) (hlive : g.Live p) :
    ∃ q, q < h.size ∧ h.languageFrom q = g.languageFrom p := by
  obtain ⟨u, hu⟩ := hp
  obtain ⟨v, hv'⟩ := hlive
  -- The word that leads to `p` begins an accepted word, so it leads somewhere in `h` too.
  have hword : u ++ v ∈ h.language := by
    rw [← heq]
    exact hu.languageFrom_mem hv'
  obtain ⟨r, hr, _⟩ := hword
  obtain ⟨q, hq, _⟩ := hr.exists_append
  refine ⟨q, hq.lt_size hv hv.1, Language.ext fun w => ?_⟩
  rw [hq.mem_languageFrom_iff hh, hu.mem_languageFrom_iff hg]
  show u ++ w ∈ h.language ↔ u ++ w ∈ g.language
  rw [heq]

theorem Reduced.exists_languageFrom_eq (hg : g.Reduced) (hh : h.IsDeterministic) (hv : h.Valid)
    (heq : g.language = h.language) {p : StateId} (hp : p < g.size) :
    ∃ q, q < h.size ∧ h.languageFrom q = g.languageFrom p := by
  by_cases hinitial : p = g.initial
  · exact ⟨h.initial, hv.1, by rw [hinitial]; exact heq.symm⟩
  · exact Automaton.exists_languageFrom_eq hg.deterministic hh hv heq (hg.reachable p hp)
      (hg.live p hp hinitial)

/-- No valid deterministic automaton for the language has fewer states. -/
theorem Reduced.size_le (hg : g.Reduced) (hh : h.IsDeterministic) (hv : h.Valid)
    (heq : g.language = h.language) : g.size ≤ h.size := by
  choose f hlt hlanguage using fun p : Fin g.size => hg.exists_languageFrom_eq hh hv heq p.isLt
  have hinjective : Function.Injective fun p => (⟨f p, hlt p⟩ : Fin h.size) := by
    intro p q hpq
    have hf : f p = f q := congrArg Fin.val hpq
    apply Fin.ext
    apply hg.distinct p p.isLt q q.isLt
    rw [← hlanguage p, ← hlanguage q, hf]
  simpa using Fintype.card_le_of_injective _ hinjective

/-! ## Renaming -/

/-- The second automaton is the first one under other names. -/
structure Renames (f : StateId → StateId) (g h : Automaton) : Prop where
  size_eq : h.size = g.size
  initial_eq : h.initial = f g.initial
  injective : ∀ p < g.size, ∀ q < g.size, f p = f q → p = q
  isAccepting_eq : ∀ p < g.size, h.isAccepting (f p) = g.isAccepting p
  moves_iff : ∀ p < g.size, ∀ c q, h.Moves (f p) c q ↔ ∃ r, g.Moves p c r ∧ f r = q

/-- Between deterministic automata, renaming is renumbering: there are no ties. -/
theorem Renames.renumbers {f : StateId → StateId} (hf : Renames f g h) (hg : g.Valid)
    (hgd : g.IsDeterministic) (hhd : h.IsDeterministic) : Renumbers f g h where
  size_eq := hf.size_eq
  initial_eq := hf.initial_eq
  injective := hf.injective
  merged_eq p hp := by
    have hlt := hp.lt_size hg
    unfold State.merged State.retarget
    rw [hgd.epsilons_eq_nil, hhd.epsilons_eq_nil, State.mk.injEq]
    refine ⟨hf.isAccepting_eq p hlt, ?_, rfl⟩
    refine mergeEdges_of_leads_retarget ((hgd.functional p).mergeEdges.keepsTies f)
      (fun c d x y hx hy => ?_) (hf.moves_iff p hlt)
    exact hf.injective x (hg.target_lt (Moves.mem_targets hx)) y
      (hg.target_lt (Moves.mem_targets hy))

/-! ## Uniqueness -/

theorem Reduced.forall_live (hg : g.Reduced) (hne : g.Live g.initial) :
    ∀ p < g.size, g.Live p := by
  intro p hp
  by_cases hinitial : p = g.initial
  · rw [hinitial]
    exact hne
  · exact hg.live p hp hinitial

/-- Reduced automata with the same words, and at least one, differ in names only. -/
theorem Reduced.exists_renames (hg : g.Reduced) (hh : h.Reduced) (heq : g.language = h.language)
    (hne : g.Live g.initial) : ∃ f, Renames f g h := by
  have hglive := hg.forall_live hne
  have hhlive := hh.forall_live (hne.of_languageFrom_eq heq)
  -- A state is renamed to the state with its language.
  choose! f hf using fun p (hp : p < g.size) =>
    hg.exists_languageFrom_eq hh.deterministic hh.valid heq hp
  refine ⟨f, ?_, ?_, fun p hp q hq hpq => ?_, fun p hp => ?_, fun p hp c q => ?_⟩
  · exact Nat.le_antisymm (hh.size_le hg.deterministic hg.valid heq.symm)
      (hg.size_le hh.deterministic hh.valid heq)
  · have hinitial := hf g.initial hg.valid.1
    exact hh.distinct _ hh.valid.1 _ hinitial.1 (heq.symm.trans hinitial.2.symm)
  · apply hg.distinct p hp q hq
    rw [← (hf p hp).2, ← (hf q hq).2, hpq]
  · exact isAccepting_eq_of_languageFrom_eq hh.deterministic hg.deterministic (hf p hp).2
  · constructor
    · intro hmoves
      have hq := hh.valid.target_lt hmoves.mem_targets
      obtain ⟨r, hr, hlanguage⟩ := hmoves.exists_moves_of_languageFrom_eq hh.deterministic
        hg.deterministic (hhlive q hq) (hf p hp).2
      have hrlt := hg.valid.target_lt hr.mem_targets
      refine ⟨r, hr, hh.distinct _ (hf r hrlt).1 _ hq ?_⟩
      rw [(hf r hrlt).2, hlanguage]
    · rintro ⟨r, hr, rfl⟩
      have hrlt := hg.valid.target_lt hr.mem_targets
      obtain ⟨q, hq, hlanguage⟩ := hr.exists_moves_of_languageFrom_eq hg.deterministic
        hh.deterministic (hglive r hrlt) (hf p hp).2.symm
      have hqlt := hh.valid.target_lt hq.mem_targets
      have hfr : f r = q := by
        apply hh.distinct _ (hf r hrlt).1 _ hqlt
        rw [(hf r hrlt).2, hlanguage]
      rw [hfr]
      exact hq

/-- Reduced automata with the same words, and at least one, have the same canonical form. -/
theorem Reduced.canonical_eq (hg : g.Reduced) (hh : h.Reduced) (heq : g.language = h.language)
    (hne : g.Live g.initial) : g.canonical = h.canonical := by
  obtain ⟨f, hf⟩ := hg.exists_renames hh heq hne
  exact ((hf.renumbers hg.valid hg.deterministic hh.deterministic).canonical_eq hg.valid).symm

/-! ## No word at all

A reduced automaton for the empty language is its dead initial state. Nothing of it is left to
the language but the loops of this state, and these decide the canonical form. -/

theorem Reduced.eq_initial (hg : g.Reduced) (hdead : ¬ g.Live g.initial) {p : StateId}
    (hp : p < g.size) : p = g.initial := by
  by_contra hne
  exact hdead ((hg.reachable p hp).live_initial (hg.live p hp hne))

theorem Reduced.size_eq_one (hg : g.Reduced) (hdead : ¬ g.Live g.initial) : g.size = 1 := by
  have hpos : 0 < g.size := Nat.zero_lt_of_lt hg.valid.1
  by_contra hsize
  have hone : 1 < g.size := by omega
  have hsame : 0 = 1 := (hg.eq_initial hdead hpos).trans (hg.eq_initial hdead hone).symm
  exact Nat.zero_ne_one hsame

/-- Reduced automata without words that loop on the same characters have the same canonical
    form. -/
theorem Reduced.canonical_eq_of_loops (hg : g.Reduced) (hh : h.Reduced)
    (hgdead : ¬ g.Live g.initial) (hhdead : ¬ h.Live h.initial)
    (hloops : ∀ c, g.Loops c ↔ h.Loops c) : g.canonical = h.canonical := by
  have hrenames : Renames (fun _ => h.initial) g h := by
    constructor
    case size_eq => rw [hg.size_eq_one hgdead, hh.size_eq_one hhdead]
    case initial_eq => rfl
    case injective =>
      intro p hp q hq _
      rw [hg.eq_initial hgdead hp, hg.eq_initial hgdead hq]
    case isAccepting_eq =>
      intro p hp
      have hgacc : ¬ g.isAccepting g.initial = true := fun hacc => hgdead (live_of_isAccepting hacc)
      have hhacc : ¬ h.isAccepting h.initial = true := fun hacc => hhdead (live_of_isAccepting hacc)
      rw [hg.eq_initial hgdead hp, Bool.eq_false_of_not_eq_true hgacc,
        Bool.eq_false_of_not_eq_true hhacc]
    case moves_iff =>
      intro p hp c q
      rw [hg.eq_initial hgdead hp]
      constructor
      · intro hmoves
        have hq := hh.eq_initial hhdead (hh.valid.target_lt hmoves.mem_targets)
        rw [hq] at hmoves
        exact ⟨g.initial, (hloops c).2 hmoves, hq.symm⟩
      · intro hmoves
        obtain ⟨r, hr, rfl⟩ := hmoves
        rw [hg.eq_initial hgdead (hg.valid.target_lt hr.mem_targets)] at hr
        exact (hloops c).1 hr
  have hrenumbers := hrenames.renumbers hg.valid hg.deterministic hh.deterministic
  exact (hrenumbers.canonical_eq hg.valid).symm

end RegularLanguages.Automaton
