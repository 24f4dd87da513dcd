import RegularLanguages.Automaton.EpsilonFree
import RegularLanguages.Automaton.Subset

set_option autoImplicit false

/-! # Boolean operations

Intersection runs two automata in step: its states are pairs, numbered in the order in which
the search meets them, and the pair met last is expanded next.

Complement and difference are relative to an alphabet. The complement of a deterministic
automaton gets a sink for every move that is missing and swaps acceptance; a word with a
character outside the alphabet is in neither. -/

namespace RegularLanguages

/-! ## Intersection -/

/-- A state of each of two automata. -/
structure StatePair where
  left : StateId
  right : StateId
  deriving DecidableEq

namespace StatePair

/-! Pairs are ordered by their left and then by their right state. -/

instance : Ord StatePair := ⟨compareLex (compareOn left) (compareOn right)⟩

instance : Std.TransOrd StatePair :=
  inferInstanceAs (Std.TransCmp (compareLex (compareOn left) (compareOn right)))

instance : Std.LawfulEqOrd StatePair where
  eq_of_compare {p q} h := by
    obtain ⟨hl, hr⟩ := compareLex_eq_eq.1 h
    have hl := Std.LawfulEqOrd.eq_of_compare (α := StateId) hl
    have hr := Std.LawfulEqOrd.eq_of_compare (α := StateId) hr
    cases p; cases q
    simp_all

end StatePair

namespace Automaton

/-- The moves that both states of a pair can make, each with the pair that it leads to. -/
def jointMoves (a b : Automaton) (pair : StatePair) : List (CharRange × StatePair) :=
  (a.state pair.left).edges.flatMap fun d =>
    (b.state pair.right).edges.filterMap fun e =>
      (d.label.intersect? e.label).map fun label => (label, ⟨d.target, e.target⟩)

/-- The pairs that two automata without epsilon edges can be in together. -/
def jointPairs (a b : Automaton) : Numbering StatePair :=
  explore .newestFirst (fun pair => (a.jointMoves b pair).map Prod.snd) (a.size * b.size)
    [⟨a.initial, b.initial⟩]

/-- The words of both of two automata without epsilon edges. -/
def product (a b : Automaton) : Automaton :=
  let pairs := a.jointPairs b
  ofList <| pairs.toList.map fun pair =>
    { accepting := a.isAccepting pair.left && b.isAccepting pair.right
      edges := (a.jointMoves b pair).filterMap fun (label, next) =>
        (pairs.rank? next).map fun target => ⟨label, target⟩ }

/-- The words that both automata accept. -/
def intersection (a b : Automaton) : Automaton := a.withoutEpsilons.product b.withoutEpsilons

end Automaton

/-! ## Complement -/

/-- The state restricted to the alphabet, with the missing moves going to `sink` and acceptance
    swapped. -/
def State.complemented (alphabet : Alphabet) (sink : StateId) (s : State) : State :=
  let clipped := s.edges.flatMap fun e =>
    (alphabet.clip e.label).map fun label => ({ e with label } : Edge)
  let missing := alphabet.uncovered (clipped.map Edge.label)
  { accepting := !s.accepting
    edges := clipped ++ missing.map fun label => ⟨label, sink⟩ }

namespace Automaton

/-- The words over the alphabet that `g` does not accept. -/
def complement (g : Automaton) (alphabet : Alphabet) : Except AlphabetError Automaton := do
  alphabet.requireDeclared
  let d := if g.IsDeterministic then g else g.determinize
  let sink : State :=
    { accepting := true, edges := alphabet.ranges.map fun label => ⟨label, d.size⟩ }
  return { d with states := (d.states.map (State.complemented alphabet d.size)).push sink }

/-! ## Difference -/

/-- The words of `a` that `b` does not accept. An alphabet that lacks a character of an edge
    `a` can reach is refused, since words with that character would be lost. -/
def difference (a b : Automaton) (alphabet : Alphabet) : Except AlphabetError Automaton := do
  alphabet.requireDeclared
  alphabet.checkRanges <| a.reachable.toList.flatMap fun id => (a.state id).edges.map Edge.label
  return a.intersection (← b.complement alphabet)

end Automaton

end RegularLanguages
