import RegularLanguages.CommandLine.Output
import RegularLanguages.Proofs.Pattern.Compilation

set_option autoImplicit false

/-! # Verdicts

What testing words against a pattern prints is said with the tree of the pattern and the words it
matches alone (`Verdict`): neither the construction of the automaton nor its minimization can be
seen in the output, and neither adds a way to fail. -/

namespace RegularLanguages.CommandLine

variable {pattern : String} {p : Pattern} {g : Automaton}

/-- The line that a word gets. -/
inductive Verdict (p : Pattern) (input : String) : String → Prop where
  | accept (h : input.toList ∈ p.language) : Verdict p input ("accept" ++ "\t" ++ input ++ "\n")
  | reject (h : input.toList ∉ p.language) : Verdict p input ("reject" ++ "\t" ++ input ++ "\n")

theorem verdict_verdictLine (hg : g.Valid) (hlanguage : g.language = p.language) (input : String) :
    Verdict p input (verdictLine g input) := by
  have haccepts : g.accepts input.toList = true ↔ input.toList ∈ p.language := by
    rw [Automaton.accepts_iff_mem_language hg, hlanguage]
  unfold verdictLine
  by_cases hword : input.toList ∈ p.language
  · rw [if_pos (haccepts.2 hword)]
    exact .accept hword
  · rw [if_neg (mt haccepts.1 hword)]
    exact .reject hword

/-- A pattern that could be read gives a line for each word. -/
theorem exists_output_test (h : Pattern.parse pattern.toList = .ok p) (inputs : List String) :
    ∃ lines, (Command.test pattern inputs).output = .ok (String.join lines) ∧
      List.Forall₂ (Verdict p) inputs lines := by
  obtain ⟨g, hcompile, hg, hlanguage⟩ := exists_compileMinimal_eq_ok h .hopcroft
  refine ⟨inputs.map (verdictLine g), ?_, ?_⟩
  · show (compileMinimal pattern .hopcroft).bind _ = _
    rw [hcompile]
    rfl
  · rw [List.forall₂_map_right_iff, List.forall₂_same]
    exact fun input _ => verdict_verdictLine hg hlanguage input

theorem output_test_of_parse_eq_error {cause : SyntaxError}
    (h : Pattern.parse pattern.toList = .error cause) (inputs : List String) :
    (Command.test pattern inputs).output = .error (.malformed cause) := by
  show (compileMinimal pattern .hopcroft).bind _ = _
  rw [compileMinimal_of_parse_eq_error h]
  rfl

/-- Testing words fails exactly if the pattern cannot be read, and then with the reader's error.
    Otherwise it prints nothing but one line for each word, in order, which says whether the
    pattern matches the word; the automaton compiled from the pattern, before it is minimized,
    says the same. -/
theorem output_test_verdicts (pattern : String) (inputs : List String) :
    (∀ e, (Command.test pattern inputs).output = .error e ↔
      ∃ cause, Pattern.parse pattern.toList = .error cause ∧ e = .malformed cause) ∧
      ∀ p, Pattern.parse pattern.toList = .ok p →
        (∃ lines, (Command.test pattern inputs).output = .ok (String.join lines) ∧
          List.Forall₂ (Verdict p) inputs lines) ∧
        ∃ g, compile pattern = .ok g ∧ ∀ w, w ∈ p.language ↔ g.accepts w = true := by
  refine ⟨fun e => ?_, fun p hparse => ⟨exists_output_test hparse inputs, p.automaton, ?_, ?_⟩⟩
  · cases hparse : Pattern.parse pattern.toList with
    | error cause =>
      rw [output_test_of_parse_eq_error hparse]
      simp [eq_comm]
    | ok p =>
      obtain ⟨lines, houtput, _⟩ := exists_output_test hparse inputs
      rw [houtput]
      simp
  · exact compile_eq_ok_iff.2 ⟨p, hparse, rfl⟩
  · intro w
    rw [Automaton.accepts_iff_mem_language (Pattern.valid_automaton p), Pattern.language_automaton]

/-- A word that is matched, one that is not, and a pattern that cannot be read. -/
theorem output_test_verdicts_star :
    let p := Pattern.concat 0 [.repetition 0 (.literal 0 'a') 0 none, .literal 2 'b']
    (Pattern.parse "a*b".toList = .ok p ∧
      (∃ lines, (Command.test "a*b" ["aab", "ba"]).output = .ok (String.join lines) ∧
        List.Forall₂ (Verdict p) ["aab", "ba"] lines) ∧
      ∃ g, compile "a*b" = .ok g ∧ ∀ w, w ∈ p.language ↔ g.accepts w = true) ∧
      (Command.test "(ab" ["ab"]).output = .error (.malformed ⟨0, .unclosedGroup⟩) := by
  intro p
  have hread : Pattern.parse "a*b".toList = .ok p := (Pattern.parse_eq_readAll _).trans rfl
  have hrefuse : Pattern.parse "(ab".toList = .error ⟨0, .unclosedGroup⟩ :=
    (Pattern.parse_eq_readAll _).trans rfl
  exact ⟨⟨hread, (output_test_verdicts "a*b" ["aab", "ba"]).2 p hread⟩,
    ((output_test_verdicts "(ab" ["ab"]).1 _).2 ⟨_, hrefuse, rfl⟩⟩

example : (Command.test "a*b" ["aab", "ba"]).output.toOption =
    some "accept\taab\nreject\tba\n" := by
  have hread : Pattern.parse "a*b".toList =
      .ok (.concat 0 [.repetition 0 (.literal 0 'a') 0 none, .literal 2 'b']) :=
    (Pattern.parse_eq_readAll _).trans rfl
  rw [Command.output, compileMinimal_of_parse_eq_ok hread]
  decide +kernel

end RegularLanguages.CommandLine
