import RegularLanguages.Automaton.Reachable

set_option autoImplicit false

/-! # Removing epsilon edges

A state takes over the edges and the acceptance of everything it reaches without reading. -/

namespace RegularLanguages.Automaton

/-- The state that does at once what `id` can do after epsilon edges. -/
def closedState (g : Automaton) (id : StateId) : State :=
  let closure := g.epsilonClosure (.singleton id)
  { accepting := g.anyAccepting closure
    edges := Ascending.ofList (closure.toList.flatMap fun member => (g.state member).edges) }

/-- An automaton without epsilon edges for the same language. One that has none is left alone;
    otherwise unreachable states are dropped. -/
def withoutEpsilons (g : Automaton) : Automaton :=
  if g.hasEpsilons then
    trimmed { g with states := ((List.range g.size).map g.closedState).toArray } false
  else g

end RegularLanguages.Automaton
