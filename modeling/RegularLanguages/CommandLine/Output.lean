import RegularLanguages.Automaton.Dot
import RegularLanguages.CommandLine.Invocation

set_option autoImplicit false

/-! # What the commands print

`dot` prints a drawing; `match` a line with a verdict for each word; `lang` a drawing or one
line of counts. A pattern that cannot be read is the only way to fail. -/

namespace RegularLanguages.CommandLine

/-- The line for a tested word: the verdict, a tab and the word. -/
def verdictLine (g : Automaton) (input : String) : String :=
  (if g.accepts input.toList then "accept" else "reject") ++ "\t" ++ input ++ "\n"

/-- The size of an automaton in words. -/
def summary (g : Automaton) : String :=
  toString g.size ++ " states, " ++ toString g.edgeCount ++ " transitions, "
    ++ toString g.acceptingStates.length ++ " accepting"
    ++ (if g.IsDeterministic then ", deterministic" else "")

/-- What a command prints. -/
def Command.output : Command → Except Error String
  | .dot pattern none => ((compile pattern).map Automaton.toDot).mapError .malformed
  | .dot pattern (some algorithm) => (compileMinimal pattern algorithm).map Automaton.toDot
  | .test pattern inputs => do
    let g ← compileMinimal pattern .hopcroft
    return String.join (inputs.map (verdictLine g))
  | .lang language drawn algorithm => do
    let g ← language.build algorithm
    return if drawn then g.toDot else language.name ++ ": " ++ summary g ++ "\n"

end RegularLanguages.CommandLine
