import RegularLanguages.Automaton.Canonical
import RegularLanguages.Automaton.Reversal
import RegularLanguages.Automaton.Subset
import RegularLanguages.Partition.Hopcroft
import RegularLanguages.Partition.Moore
import RegularLanguages.Text.Lowercase

set_option autoImplicit false

/-! # Minimization

Three ways to the smallest deterministic automaton for a language. Hopcroft's and Moore's
refine a partition of the states of a trimmed deterministic automaton and make one state of each
block. Brzozowski's applies the subset construction to the reversal, twice. The result is
trimmed and numbered canonically, so automata for the same language come out equal.

Trimming keeps the initial state even if it is dead, together with its loops, so for the empty
language the first two can leave a loop that the third one has not. -/

namespace RegularLanguages

/-- A way to minimize. -/
inductive Algorithm where
  | hopcroft
  | moore
  | brzozowski
  deriving DecidableEq, Inhabited

namespace Algorithm

def all : List Algorithm := [hopcroft, moore, brzozowski]

def name : Algorithm → String
  | hopcroft => "hopcroft"
  | moore => "moore"
  | brzozowski => "brzozowski"

/-- The algorithm with the given name, in any case. -/
def ofName? (text : String) : Except UnknownName Algorithm :=
  match all.find? fun a => Text.spells text a.name with
  | some a => .ok a
  | none => .error (.algorithm text)

end Algorithm

namespace Automaton

/-- The subset construction over the reversal, from the states that accepted. -/
def determinizeReversal (g : Automaton) : Automaton :=
  g.reversal.determinizeFrom (.ofList g.acceptingStates)

/-- Minimizes by a refinement of the states. -/
def collapse (refine : ClassTable → Partition) (g : Automaton) :
    Except InvariantViolation Automaton := do
  let d := if g.IsDeterministic then g else g.determinize
  let t ← ClassTable.ofAutomaton? (d.trimmed true)
  return t.quotient (refine t)

/-- The smallest deterministic automaton for the language of `g`. -/
def minimize (g : Automaton) (algorithm : Algorithm) : Except InvariantViolation Automaton := do
  g.validate
  let small ← match algorithm with
    | .hopcroft => g.collapse Hopcroft.refine
    | .moore => g.collapse Moore.refine
    | .brzozowski => pure g.determinizeReversal.determinizeReversal
  let minimal := (small.trimmed true).canonical
  if minimal.IsDeterministic then return minimal else throw .minimalNondeterministic

end Automaton

end RegularLanguages
