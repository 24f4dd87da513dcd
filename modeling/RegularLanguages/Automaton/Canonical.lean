import RegularLanguages.Automaton.Reachable

set_option autoImplicit false

/-! # Canonical numbering

Two automata that differ in the numbers of their states only are brought to the same form: the
states are numbered breadth first from the initial state, following merged edges in ascending
order and then epsilon edges, and unreachable states are dropped. -/

namespace RegularLanguages

namespace State

/-- The state with merged edges and its epsilon edges in ascending order. -/
def merged (s : State) : State :=
  { s with edges := mergeEdges s.edges, epsilons := Ascending.ofList s.epsilons }

/-- The state with its edges of both kinds in ascending order. -/
def sorted (s : State) : State :=
  { s with edges := Ascending.ofList s.edges, epsilons := Ascending.ofList s.epsilons }

end State

namespace Automaton

/-- The reachable states in breadth-first order. -/
def breadthFirst (g : Automaton) : Numbering StateId :=
  explore .oldestFirst (fun id => (g.state id).targets) g.size [g.initial]

/-- The automaton with its states numbered breadth first and its edges merged and sorted. -/
def canonical (g : Automaton) : Automaton :=
  let h := g.mapStates State.merged
  (h.select h.breadthFirst).mapStates State.sorted

/-- The two automata have the same canonical form. -/
def isIsomorphic (g h : Automaton) : Bool := g.canonical = h.canonical

end Automaton

end RegularLanguages
