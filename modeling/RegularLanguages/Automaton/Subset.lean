import RegularLanguages.Automaton.Run

set_option autoImplicit false

/-! # Subset construction

A deterministic automaton follows what a run follows, the set of possible states. Its states
are the epsilon-closed sets that some word leads to, numbered breadth first. The characters are
cut at the boundaries of the members' labels; within one piece every edge is either fully
present or fully absent, so one character decides for the whole piece. A piece that leads
nowhere gets no edge. -/

namespace RegularLanguages.Automaton

/-- The pieces of the character space on which a set of states can move, in ascending order,
    each with the closed set that it leads to. -/
def moves (g : Automaton) (states : StateSet) : List (CharRange × StateSet) :=
  let edges := states.toList.flatMap fun id => (g.state id).edges
  (CharRange.intervals (CharRange.boundaries (edges.map Edge.label))).filterMap fun piece =>
    let reached := edges.filterMap fun e => if piece.lo ∈ e.label then some e.target else none
    if reached.isEmpty then none else some (piece, g.closureOf reached)

/-- The closed sets that words lead to from `start`, breadth first. -/
def subsets (g : Automaton) (start : StateSet) : Numbering StateSet :=
  explore .oldestFirst (fun states => (g.moves states).map Prod.snd)
    (Nat.pow 2 g.size) [g.epsilonClosure start]

/-- The subset automaton that starts in the closure of `start` instead of in the initial
    state. -/
def determinizeFrom (g : Automaton) (start : StateSet) : Automaton :=
  let subsets := g.subsets start
  ofList <| subsets.toList.map fun states =>
    { accepting := g.anyAccepting states
      edges := mergeEdges <| (g.moves states).filterMap fun (label, next) =>
        (subsets.rank? next).map fun target => ⟨label, target⟩ }

/-- The deterministic automaton with the same language. -/
def determinize (g : Automaton) : Automaton := g.determinizeFrom (.singleton g.initial)

end RegularLanguages.Automaton
