import RegularLanguages.Automaton.Run
import RegularLanguages.Buckets

set_option autoImplicit false

/-! # Useful states

A state matters to the language if the initial state reaches it and if it reaches an accepting
state. `trimmed` keeps the states that matter, and the initial state in any case. -/

namespace RegularLanguages.Automaton

/-- The states that the initial state reaches. -/
def reachable (g : Automaton) : StateSet :=
  .ofNumbering <| explore .newestFirst (fun id => (g.state id).targets) g.size
    ([g.initial].filter fun id => id < g.size)

/-- For each state the sources of the edges that lead to it, in ascending order, once for each
    edge. -/
def sources (g : Automaton) : Array (List StateId) :=
  buckets g.size <| g.toList.zipIdx.flatMap fun (s, source) =>
    s.targets.map fun target => (target, source)

/-- The states that reach an accepting state, those nearer to one first. -/
def coreachable (g : Automaton) : Numbering StateId :=
  let sources := g.sources
  explore .oldestFirst (fun id => sources[id]?.getD []) g.size g.acceptingStates

/-- The states that reach an accepting state. -/
def live (g : Automaton) : StateSet := .ofNumbering g.coreachable

/-- No reachable state accepts. -/
def isEmptyLanguage (g : Automaton) : Bool := !g.anyAccepting g.reachable

/-! ## Keeping some states -/

/-- The states that have a place in `order`, numbered by it; edges to other states are dropped,
    and the first one is the initial state. -/
def select (g : Automaton) (order : Numbering StateId) : Automaton :=
  ofList <| order.toList.map fun id =>
    let s := g.state id
    { accepting := s.accepting
      edges := s.edges.filterMap fun e =>
        (order.rank? e.target).map fun target => ⟨e.label, target⟩
      epsilons := s.epsilons.filterMap order.rank? }

/-- The initial state and the other reachable states, with `liveOnly` only the live ones of
    these, in ascending order after the initial state. -/
def trimmed (g : Automaton) (liveOnly : Bool) : Automaton :=
  let live := g.coreachable
  g.select <| .ofList <| g.initial :: g.reachable.toList.filter fun id => !liveOnly || id ∈ live

end RegularLanguages.Automaton
