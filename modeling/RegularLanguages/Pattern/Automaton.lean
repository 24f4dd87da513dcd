import RegularLanguages.Automaton.Minimal
import RegularLanguages.Automaton.Rational
import RegularLanguages.Pattern.Parser

set_option autoImplicit false

/-! # The automaton of a pattern

A pattern becomes an automaton part by part, each operator by the operation of the same name.
`compile` leaves the epsilon edges in, `compileMinimal` makes the smallest deterministic
automaton. -/

namespace RegularLanguages

namespace Pattern

/-- Repeats an automaton; the three bounds that have an operator of their own have an operation
    of their own. -/
def repeatAutomaton (a : Automaton) (min : Nat) (max : Option Nat) : Automaton :=
  match min, max with
  | 0, none => a.star
  | 1, none => a.plus
  | 0, some 1 => a.optional
  | _, _ => a.repeated min max

mutual

/-- The automaton that accepts what the pattern matches. -/
def automaton : Pattern → Automaton
  | empty _ => .epsilon
  | literal _ c => .char c
  | anyChar _ => .anyChar
  | charClass _ false ranges => .oneOf ranges
  | charClass _ true ranges => .oneOf (Alphabet.unicode.uncovered ranges)
  | concat _ items => .concatAll (automata items)
  | alternation _ branches => .unionAll (automata branches)
  | repetition _ body min max => repeatAutomaton (automaton body) min max
  | group _ body => automaton body

/-- The automata of several patterns. -/
def automata : List Pattern → List Automaton
  | [] => []
  | p :: rest => automaton p :: automata rest

end

end Pattern

/-- The automaton for a text. -/
def compile (text : String) : Except SyntaxError Automaton :=
  (Pattern.parse text.toList).map Pattern.automaton

/-- The smallest deterministic automaton for a text. -/
def compileMinimal (text : String) (algorithm : Algorithm) : Except Error Automaton := do
  let g ← (compile text).mapError Error.malformed
  (g.minimize algorithm).mapError Error.invariant

end RegularLanguages
