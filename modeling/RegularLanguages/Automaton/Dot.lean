import RegularLanguages.Automaton.Basic
import RegularLanguages.Text.Hexadecimal

set_option autoImplicit false

/-! # Drawing automata

The text of an automaton in the DOT language of graph drawing programs. Accepting states have a
double outline, epsilon edges are dashed, and an unlabelled node points at the initial state.

A label stands in a quoted string, in which a backslash takes the next character with it.
`escapedLabel` writes a character so that the quotation mark never ends the string early. -/

namespace RegularLanguages

namespace CharRange

/-- A character as it is written in a label. Besides the quotation mark and the backslash, the
    brackets and parentheses of the pattern language are set off; a character without a mark in
    ASCII is written by number, with four digits or more. -/
def escapedLabel (c : Char) : List Char :=
  if c = '"' ∨ c = '\\' then ['\\', c]
  else if c = '[' ∨ c = ']' ∨ c = '(' ∨ c = ')' then ['\\', '\\', c]
  else if c = ' ' then ['\\', '\\', 's']
  else if '!' ≤ c ∧ c ≤ '~' then [c]
  else ['\\', '\\', 'u'] ++ Text.hexadecimalPadded 4 c.toNat

/-- The label of an edge: a character, or two with a hyphen between them. -/
def dotLabel (r : CharRange) : String :=
  String.ofList <|
    if r.lo = r.hi then escapedLabel r.lo else escapedLabel r.lo ++ ['-'] ++ escapedLabel r.hi

end CharRange

namespace State

/-- The lines that draw a state and the edges that leave it. -/
def dotLines (id : StateId) (s : State) : List String :=
  let number := toString id
  let shape := if s.accepting then "doublecircle" else "circle"
  ["  " ++ number ++ " [shape=" ++ shape ++ ",label=\"" ++ number ++ "\"];"]
    ++ s.edges.map (fun e =>
      "  " ++ number ++ " -> " ++ toString e.target ++ " [label=\"" ++ e.label.dotLabel ++ "\"]")
    ++ s.epsilons.map (fun target =>
      "  " ++ number ++ " -> " ++ toString target ++ " [label=\"ε\",style=dashed]")

end State

namespace Automaton

/-- The lines that draw an automaton. -/
def dotLines (g : Automaton) : List String :=
  ["digraph Automaton \x7b",
    "  rankdir = LR;",
    "  initial [shape=plaintext,label=\"\"];",
    "  initial -> " ++ toString g.initial]
    ++ g.toList.zipIdx.flatMap (fun (s, id) => s.dotLines id)
    ++ ["\x7d"]

/-- The automaton in the DOT language. -/
def toDot (g : Automaton) : String := String.join (g.dotLines.map (· ++ "\n"))

end Automaton

end RegularLanguages
