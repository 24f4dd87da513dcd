import RegularLanguages.Proofs.Minimization
import RegularLanguages.Proofs.Pattern.Language

set_option autoImplicit false

/-! # Compiling texts

A text is compiled in two steps, and only the first of them can fail: a tree always has an
automaton, and a valid automaton is always minimized. So compiling refuses exactly the texts that
cannot be read, with the reader's error, and whatever it returns has the language of the tree. -/

namespace RegularLanguages

variable {text : String} {algorithm : Algorithm} {g : Automaton} {p : Pattern}

theorem compile_eq_ok_iff :
    compile text = .ok g ↔ ∃ p, Pattern.parse text.toList = .ok p ∧ p.automaton = g := by
  unfold compile
  cases Pattern.parse text.toList with
  | error cause => exact ⟨nofun, nofun⟩
  | ok p => simp [Except.map]

/-- The smallest automaton of a tree that could be read. -/
theorem compileMinimal_of_parse_eq_ok (h : Pattern.parse text.toList = .ok p) :
    compileMinimal text algorithm =
      (p.automaton.minimize algorithm).mapError Error.invariant := by
  unfold compileMinimal
  rw [compile_eq_ok_iff.2 ⟨p, h, rfl⟩]
  rfl

theorem compileMinimal_of_parse_eq_error {cause : SyntaxError}
    (h : Pattern.parse text.toList = .error cause) :
    compileMinimal text algorithm = .error (.malformed cause) := by
  unfold compileMinimal compile
  rw [h]
  rfl

/-- The smallest automaton exists, and it has the language of the tree. -/
theorem exists_compileMinimal_eq_ok (h : Pattern.parse text.toList = .ok p)
    (algorithm : Algorithm) :
    ∃ g, compileMinimal text algorithm = .ok g ∧ g.Valid ∧ g.language = p.language := by
  obtain ⟨g, hminimize, hg, hlanguage⟩ :=
    Automaton.exists_minimize_language_eq (Pattern.valid_automaton p) algorithm
  refine ⟨g, ?_, hg, hlanguage.trans (Pattern.language_automaton p)⟩
  rw [compileMinimal_of_parse_eq_ok h, hminimize]
  rfl

end RegularLanguages
