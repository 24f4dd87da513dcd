import RegularLanguages.Automaton.Primitive

set_option autoImplicit false

/-! # Rational operations

Concatenation, union and repetition. Each copies its operands side by side, with the numbers of
the later ones moved up, and joins the copies by epsilon edges.

Two joins are enough. `followedBy` hangs one automaton behind the accepting states of another;
if the continuation may be skipped, those states go on accepting. `fork` puts a new initial
state in front of several automata. Concatenation and counted repetition are chains of
`followedBy`; union and star are forks. -/

namespace RegularLanguages.Automaton

/-- The states with every target moved up by `offset`. -/
def shifted (g : Automaton) (offset : Nat) : List State :=
  g.toList.map (State.retarget (· + offset))

/-- Gives every accepting state an epsilon edge to `target`; `keep` says whether they go on
    accepting. -/
def linkAccepting (g : Automaton) (keep : Bool) (target : StateId) : List State :=
  g.toList.map fun s =>
    if s.accepting then { s with accepting := keep, epsilons := s.epsilons ++ [target] } else s

/-! ## One after the other -/

/-- A word of `a` and then a word of `b`; with `optional` also a word of `a` alone. -/
def followedBy (a : Automaton) (optional : Bool) (b : Automaton) : Automaton :=
  { states := (a.linkAccepting optional (b.initial + a.size) ++ b.shifted a.size).toArray
    initial := a.initial }

/-- A word of `a` followed by a word of `b`. -/
def concat (a b : Automaton) : Automaton := a.followedBy false b

/-- A word of `a` followed by words of the listed automata, in order. Each of them says whether
    the word may end before it. -/
def chain (a : Automaton) : List (Bool × Automaton) → Automaton
  | [] => a
  | (optional, b) :: rest => a.followedBy optional (chain b rest)

/-- A word of each automaton, in order. -/
def concatAll (parts : List Automaton) : Automaton := chain epsilon (parts.map fun a => (false, a))

/-! ## One of several -/

/-- Copies of the automata, the first one with its numbers moved up by `offset` and each later
    one further up. -/
def sideBySide (offset : Nat) : List Automaton → List State
  | [] => []
  | a :: rest => a.shifted offset ++ sideBySide (offset + a.size) rest

/-- The initial states of the copies that `sideBySide` makes. -/
def entries (offset : Nat) : List Automaton → List StateId
  | [] => []
  | a :: rest => (a.initial + offset) :: entries (offset + a.size) rest

/-- A new initial state with an epsilon edge to each of the automata. -/
def fork (accepting : Bool) (parts : List Automaton) : Automaton :=
  ofList <| { accepting, epsilons := entries 1 parts } :: sideBySide 1 parts

/-- A word of any of the automata. -/
def unionAll (parts : List Automaton) : Automaton := fork false parts

/-- A word of `a` or of `b`. -/
def union (a b : Automaton) : Automaton := unionAll [a, b]

/-! ## Repetition -/

/-- One or more words of `a`. -/
def plus (a : Automaton) : Automaton :=
  { a with states := (a.linkAccepting true a.initial).toArray }

/-- Zero or more words of `a`. -/
def star (a : Automaton) : Automaton := fork true [a.plus]

/-- A word of `a` or the empty word. -/
def optional (a : Automaton) : Automaton := a.union epsilon

/-- At least `min` words of `a`, and at most `max` if there is such a bound. Bounds in the wrong
    order leave no word. -/
def repeated (a : Automaton) (min : Nat) (max : Option Nat) : Automaton :=
  match max with
  | none => chain epsilon (List.replicate min (false, a) ++ [(false, a.star)])
  | some max =>
    if max < min then empty
    else chain epsilon (List.replicate min (false, a) ++ List.replicate (max - min) (true, a))

end RegularLanguages.Automaton
