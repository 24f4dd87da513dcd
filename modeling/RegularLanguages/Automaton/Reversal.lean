import RegularLanguages.Automaton.Basic
import RegularLanguages.Buckets

set_option autoImplicit false

/-! # Reversal

Every edge is turned round. The initial state becomes the only accepting one, and a new initial
state, numbered last, leads to the states that accepted. -/

namespace RegularLanguages.Automaton

/-- For each state the edges that lead to it, each with its source as the new target. -/
def edgesInto (g : Automaton) : Array (List Edge) :=
  buckets g.size <| g.toList.zipIdx.flatMap fun (s, source) =>
    s.edges.map fun e => (e.target, ⟨e.label, source⟩)

/-- For each state the sources of the epsilon edges that lead to it, once for each edge. -/
def epsilonsInto (g : Automaton) : Array (List StateId) :=
  buckets g.size <| g.toList.zipIdx.flatMap fun (s, source) =>
    s.epsilons.map fun target => (target, source)

/-- The words of `g` read backwards. -/
def reversal (g : Automaton) : Automaton :=
  let edges := g.edgesInto
  let epsilons := g.epsilonsInto
  let turned (id : StateId) : State :=
    { accepting := id = g.initial
      edges := edges[id]?.getD []
      epsilons := epsilons[id]?.getD [] }
  let entry : State := { epsilons := g.acceptingStates }
  { states := ((List.range g.size).map turned).toArray.push entry, initial := g.size }

end RegularLanguages.Automaton
