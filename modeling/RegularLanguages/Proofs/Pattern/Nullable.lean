import RegularLanguages.Proofs.Pattern.Compilation
import RegularLanguages.Proofs.Pattern.WellFormed

set_option autoImplicit false

/-! # Matching nothing

A tree tells by itself whether it matches the empty word: `isNullable` goes down the tree and
builds no automaton. It is right about every tree whose repetitions have their bounds in order
(`Pattern.Grammatical.isNullable_iff`), and the reader returns no other. So it predicts what the
automaton compiled from a text does before it reads a character (`accepts_nil_compile_iff`). -/

namespace RegularLanguages

namespace Pattern

theorem allNullable_iff {ps : List Pattern} :
    allNullable ps = true ↔ ∀ p ∈ ps, p.isNullable = true := by
  induction ps with
  | nil => exact iff_of_true rfl fun _ hp => absurd hp List.not_mem_nil
  | cons p rest ih => rw [allNullable, Bool.and_eq_true, ih, List.forall_mem_cons]

theorem anyNullable_iff {ps : List Pattern} :
    anyNullable ps = true ↔ ∃ p ∈ ps, p.isNullable = true := by
  induction ps with
  | nil => exact iff_of_false Bool.false_ne_true fun ⟨_, hp, _⟩ => List.not_mem_nil hp
  | cons p rest ih => rw [anyNullable, Bool.or_eq_true, ih, List.exists_mem_cons_iff]

theorem languages_eq_map (ps : List Pattern) : languages ps = ps.map language := by
  induction ps with
  | nil => rfl
  | cons p rest ih => exact congrArg (p.language :: ·) ih

theorem nil_notMem_oneChar {P : Char → Prop} : [] ∉ oneChar P :=
  fun ⟨_, h, _⟩ => List.cons_ne_nil _ _ h.symm

/-- The tree tells whether its language has the empty word. -/
theorem Grammatical.isNullable_iff {p : Pattern} (h : p.Grammatical) :
    p.isNullable = true ↔ [] ∈ p.language := by
  induction h with
  | empty => exact iff_of_true rfl Language.nil_mem_one
  | literal _ c => exact iff_of_false Bool.false_ne_true (List.cons_ne_nil c []).symm
  | anyChar => exact iff_of_false Bool.false_ne_true fun ⟨_, hw⟩ => List.cons_ne_nil _ _ hw.symm
  | charClass _ negated =>
    -- A class is one character, also if that leaves none.
    cases negated <;> exact iff_of_false Bool.false_ne_true nil_notMem_oneChar
  | concat _ _ _ _ ih =>
    rw [isNullable, allNullable_iff, language, nil_mem_prod, languages_eq_map, List.forall_mem_map]
    exact forall₂_congr ih
  | alternation _ _ _ _ ih =>
    rw [isNullable, anyNullable_iff, language, mem_sum, languages_eq_map]
    simp only [List.mem_map, exists_exists_and_eq_and]
    exact exists_congr fun p => and_congr_right (ih p)
  | repetition _ _ _ _ hmax ih =>
    rw [isNullable, Bool.or_eq_true, beq_iff_eq, ih, language,
      nil_mem_powersBetween fun bound hbound => (hmax bound hbound).1]
  | group _ _ ih => exact ih

end Pattern

/-- A text that can be read is compiled, and the automaton accepts the empty word if and only if
    the tree says so. -/
theorem accepts_nil_compile_iff {text : String} {p : Pattern}
    (h : Pattern.parse text.toList = .ok p) :
    ∃ g, compile text = .ok g ∧ (p.isNullable = true ↔ g.accepts [] = true) := by
  have hgrammatical := (Pattern.admissible_of_parseWithin_eq_ok h).grammatical
  refine ⟨p.automaton, compile_eq_ok_iff.2 ⟨p, h, rfl⟩, ?_⟩
  rw [hgrammatical.isNullable_iff, Automaton.accepts_iff_mem_language (Pattern.valid_automaton p),
    Pattern.language_automaton]

/-- A group that must be there twice, but may be empty, before a class that need not be there. -/
theorem accepts_nil_compile_iff_group :
    let t := Pattern.concat 0 [
      .repetition 0 (.group 0 (.alternation 1 [.literal 1 'a',
        .repetition 3 (.literal 3 'b') 0 (some 1)])) 2 (some 3),
      .repetition 11 (.charClass 11 true [.single 'x']) 0 (some 0)]
    Pattern.parse "(a|b?)\x7b2,3\x7d[^x]\x7b0\x7d".toList = .ok t ∧
      ∃ g, compile "(a|b?)\x7b2,3\x7d[^x]\x7b0\x7d" = .ok g ∧
        (t.isNullable = true ↔ g.accepts [] = true) := by
  intro t
  have hread : Pattern.parse "(a|b?)\x7b2,3\x7d[^x]\x7b0\x7d".toList = .ok t :=
    (Pattern.parse_eq_readAll _).trans rfl
  exact ⟨hread, accepts_nil_compile_iff hread⟩

end RegularLanguages
