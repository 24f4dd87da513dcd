import RegularLanguages.Pattern.Automaton
import RegularLanguages.Proofs.Alphabet
import RegularLanguages.Proofs.Automaton.Rational
import RegularLanguages.Proofs.Pattern.Descent

set_option autoImplicit false

/-! # What patterns match

The language of a pattern is defined on the tree and knows nothing of automata. The automaton of
a pattern has this language (`language_automaton`), whatever the nesting, because every operation
on automata has the language of its operator for all valid operands. -/

namespace RegularLanguages

namespace Pattern

mutual

/-- The words that a pattern matches. -/
def language : Pattern → Language Char
  | empty _ => 1
  | literal _ c => {[c]}
  | anyChar _ => {w | ∃ c, w = [c]}
  | charClass _ false ranges => {w | ∃ c, w = [c] ∧ ∃ r ∈ ranges, c ∈ r}
  | charClass _ true ranges => {w | ∃ c, w = [c] ∧ ∀ r ∈ ranges, c ∉ r}
  | concat _ items => (languages items).prod
  | alternation _ branches => (languages branches).sum
  | repetition _ body min max => powersBetween (language body) min max
  | group _ body => language body

/-- The languages of several patterns. -/
def languages : List Pattern → List (Language Char)
  | [] => []
  | p :: rest => language p :: languages rest

end

/-! ## Characters -/

/-- What a class leaves out is taken from all characters. -/
theorem exists_mem_uncovered_iff {ranges : List CharRange} {c : Char} :
    (∃ r ∈ Alphabet.unicode.uncovered ranges, c ∈ r) ↔ ∀ r ∈ ranges, c ∉ r := by
  rw [Alphabet.exists_mem_uncovered_iff]
  exact and_iff_right ⟨CharRange.full, List.mem_singleton.2 rfl, CharRange.mem_full c⟩

/-! ## Repetition -/

theorem valid_repeatAutomaton {a : Automaton} (ha : a.Valid) (min : Nat) (max : Option Nat) :
    (repeatAutomaton a min max).Valid := by
  unfold repeatAutomaton
  split
  · exact Automaton.valid_star ha
  · exact Automaton.valid_plus ha
  · exact Automaton.valid_optional ha
  · exact Automaton.valid_repeated ha min max

/-- The operators of their own agree with the repetition between bounds. -/
theorem language_repeatAutomaton {a : Automaton} (ha : a.Valid) (min : Nat) (max : Option Nat) :
    (repeatAutomaton a min max).language = powersBetween a.language min max := by
  unfold repeatAutomaton
  split
  · rw [Automaton.language_star ha, powersBetween_none, pow_zero, one_mul]
  · rw [Automaton.language_plus ha, powersBetween_none, pow_one]
  · rw [Automaton.language_optional ha, powersBetween_some (Nat.zero_le 1), pow_zero, one_mul,
      powersUpTo_succ, powersUpTo_zero, mul_one, add_comm]
  · exact Automaton.language_repeated ha min max

/-! ## Every tree -/

mutual

theorem valid_automaton : ∀ p : Pattern, p.automaton.Valid
  | empty _ => Automaton.valid_epsilon
  | literal _ _ => Automaton.valid_oneOf _
  | anyChar _ => Automaton.valid_oneOf _
  | charClass _ false _ => Automaton.valid_oneOf _
  | charClass _ true _ => Automaton.valid_oneOf _
  | concat _ items => Automaton.valid_concatAll (valid_automata items)
  | alternation _ branches => Automaton.valid_unionAll (valid_automata branches)
  | repetition _ body min max => valid_repeatAutomaton (valid_automaton body) min max
  | group _ body => valid_automaton body

theorem valid_automata : ∀ ps : List Pattern, ∀ a ∈ automata ps, a.Valid
  | [] => fun _ h => absurd h List.not_mem_nil
  | p :: rest => List.forall_mem_cons.2 ⟨valid_automaton p, valid_automata rest⟩

end

mutual

/-- The automaton of a pattern accepts the words that the pattern matches. -/
theorem language_automaton : ∀ p : Pattern, p.automaton.language = p.language
  | empty _ => Automaton.language_epsilon
  | literal _ _ => Language.ext fun _ => Automaton.mem_language_char
  | anyChar _ => Language.ext fun _ => Automaton.mem_language_anyChar
  | charClass _ false _ => Language.ext fun _ => Automaton.mem_language_oneOf
  | charClass _ true ranges => by
    ext w
    show w ∈ (Automaton.oneOf _).language ↔ ∃ c, w = [c] ∧ ∀ r ∈ ranges, c ∉ r
    rw [Automaton.mem_language_oneOf]
    simp only [exists_mem_uncovered_iff]
  | concat _ items => by
    show (Automaton.concatAll (automata items)).language = (languages items).prod
    rw [Automaton.language_concatAll (valid_automata items), map_language_automata items]
  | alternation _ branches => by
    show (Automaton.unionAll (automata branches)).language = (languages branches).sum
    rw [Automaton.language_unionAll (valid_automata branches), map_language_automata branches]
  | repetition _ body min max => by
    show (repeatAutomaton body.automaton min max).language = powersBetween body.language min max
    rw [language_repeatAutomaton (valid_automaton body), language_automaton body]
  | group _ body => language_automaton body

theorem map_language_automata :
    ∀ ps : List Pattern, (automata ps).map Automaton.language = languages ps
  | [] => rfl
  | p :: rest => by
    show p.automaton.language :: (automata rest).map Automaton.language = _
    rw [language_automaton p, map_language_automata rest]
    rfl

end

end Pattern

/-- The automaton compiled from a text accepts the words that the pattern read from the text
    matches. -/
theorem accepts_compile_iff {text : String} {p : Pattern}
    (h : Pattern.parse text.toList = .ok p) :
    ∃ g, compile text = .ok g ∧ ∀ w, g.accepts w = true ↔ w ∈ p.language := by
  refine ⟨p.automaton, ?_, fun w => ?_⟩
  · rw [compile, h]
    rfl
  · rw [Automaton.accepts_iff_mem_language (Pattern.valid_automaton p), Pattern.language_automaton]

/-- A pattern with a group, an alternation and a repetition. -/
theorem accepts_compile_iff_group :
    Pattern.parse "(a|.)*".toList = .ok (.repetition 0 (.group 0
        (.alternation 1 [.literal 1 'a', .anyChar 3])) 0 none) ∧
      ∃ g, compile "(a|.)*" = .ok g ∧ ∀ w, g.accepts w = true ↔
        w ∈ (Pattern.repetition 0 (.group 0
          (.alternation 1 [.literal 1 'a', .anyChar 3])) 0 none).language := by
  have hread : Pattern.parse "(a|.)*".toList = .ok (.repetition 0 (.group 0
      (.alternation 1 [.literal 1 'a', .anyChar 3])) 0 none) :=
    (Pattern.parse_eq_readAll _).trans rfl
  exact ⟨hread, accepts_compile_iff hread⟩

end RegularLanguages
