import RegularLanguages.Automaton.Basic
import RegularLanguages.Exploration

set_option autoImplicit false

/-! # Running an automaton

A run follows the set of states that the automaton can be in. `epsilonClosure` adds what is
reached without reading, `step` reads one character, and a word is accepted when a set that
holds an accepting state is left at its end. An automaton that is not valid is not run at all. -/

namespace RegularLanguages.Automaton

/-- The states reached from some states along epsilon edges, these included. Numbers that are
    not in use are left out. -/
def closureOf (g : Automaton) (states : List StateId) : StateSet :=
  .ofNumbering <| explore .newestFirst (fun id => (g.state id).epsilons) g.size
    (states.filter fun id => id < g.size)

/-- The states reached from a set along epsilon edges. -/
def epsilonClosure (g : Automaton) (states : StateSet) : StateSet := g.closureOf states.toList

/-- Where the labelled edges of a set lead on `c`. -/
def successors (g : Automaton) (states : StateSet) (c : Char) : List StateId :=
  states.toList.flatMap fun id =>
    (g.state id).edges.filterMap fun e => if c ∈ e.label then some e.target else none

/-- The states reached from a set by reading `c`. -/
def step (g : Automaton) (states : StateSet) (c : Char) : StateSet :=
  g.closureOf (g.successors states c)

/-- The states reached from a set by reading a word. When no state is left the rest of the word is
    not read. -/
def run (g : Automaton) (states : StateSet) : List Char → StateSet
  | [] => states
  | c :: rest =>
    let next := g.step states c
    if next.isEmpty then next else run g next rest

/-- Some member accepts. -/
def anyAccepting (g : Automaton) (states : StateSet) : Bool := states.toList.any g.isAccepting

/-- The automaton accepts the word; one that is not valid accepts nothing. -/
def accepts (g : Automaton) (word : List Char) : Bool :=
  match g.validate with
  | .error _ => false
  | .ok () => g.anyAccepting (g.run (g.epsilonClosure (.singleton g.initial)) word)

end RegularLanguages.Automaton
