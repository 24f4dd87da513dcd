import Std.Data.TreeMap
import RegularLanguages.Automaton.Basic
import RegularLanguages.PartitionPoint

set_option autoImplicit false

/-! # Class tables

The refinement of partitions asks which states lead to a block on a symbol. Asking it of every
character would be hopeless, so the characters are grouped: a class is a piece of the character
space on which no label of the automaton starts or stops and which some label covers. Every
label is then a run of consecutive classes, and a deterministic automaton is a table with one
row per state and one column per class.

A table is filled move by move. Beside the table that says where a state goes on a class there is
the reverse one, which says what comes to a state on a class, and each move is entered into both.
Nothing but `addMove` keeps the two in step. -/

namespace RegularLanguages

/-- A place in a table: a state and the number of a class. -/
structure Cell where
  state : StateId
  column : Nat
  deriving DecidableEq

namespace Cell

/-! Places are ordered by their states and then by their classes. -/

instance : Ord Cell := ⟨compareLex (compareOn state) (compareOn column)⟩

instance : Std.TransOrd Cell :=
  inferInstanceAs (Std.TransCmp (compareLex (compareOn state) (compareOn column)))

instance : Std.LawfulEqOrd Cell where
  eq_of_compare {a b} h := by
    obtain ⟨hstate, hcolumn⟩ := compareLex_eq_eq.1 h
    have hstate := Std.LawfulEqOrd.eq_of_compare (α := StateId) hstate
    have hcolumn := Std.LawfulEqOrd.eq_of_compare (α := Nat) hcolumn
    cases a; cases b
    simp_all

end Cell

/-- A deterministic automaton whose symbols are classes of characters. -/
structure ClassTable where
  /-- The number of states. -/
  size : Nat
  start : StateId
  /-- The acceptance of every state. -/
  acceptance : Array Bool
  /-- The classes in ascending order. -/
  classes : List CharRange
  /-- Where a state goes on a class. -/
  targets : Std.TreeMap Cell StateId := ∅
  /-- What comes to a state on a class, in the order in which it was entered. -/
  sources : Std.TreeMap Cell (Array StateId) := ∅

/-! ## Classes -/

/-- The classes of an automaton: the pieces between its boundaries that some edge reads. -/
def Automaton.classes (g : Automaton) : List CharRange :=
  (CharRange.intervals (CharRange.boundaries g.labels)).filter fun piece =>
    g.labels.any fun label => piece.lo ∈ label

/-- The columns from `column` on, up to the last class that does not start after the end of the
    label. -/
def columnsFrom (classes : Array CharRange) (label : CharRange) (column : Nat) : List Nat :=
  if _ : column < classes.size then
    if classes[column].lo ≤ label.hi then column :: columnsFrom classes label (column + 1) else []
  else []
termination_by classes.size - column

/-- The columns of the classes that make up a label; the first one is the first class that does not
    start before the label. -/
def columnsOf (classes : Array CharRange) (label : CharRange) : List Nat :=
  columnsFrom classes label (partitionPoint (fun piece => piece.lo < label.lo) classes)

/-- The moves of an automaton on its classes, in the order in which its edges give them: from
    where, and to where. -/
def Automaton.classMoves (g : Automaton) : List (Cell × StateId) :=
  let classes := g.classes.toArray
  (List.range g.size).flatMap fun source => (g.state source).edges.flatMap fun e =>
    (columnsOf classes e.label).map fun column => (⟨source, column⟩, e.target)

namespace ClassTable

/-! ## Filling a table -/

/-- Enters a move into both directions of the table. -/
def addMove (t : ClassTable) (move : Cell × StateId) : ClassTable :=
  let (⟨source, column⟩, target) := move
  { t with
    targets := t.targets.insert ⟨source, column⟩ target
    sources := t.sources.alter ⟨target, column⟩ fun known =>
      some ((known.getD #[]).push source) }

/-- The table of an automaton before its moves are entered. -/
def blank (g : Automaton) : ClassTable where
  size := g.size
  start := g.initial
  acceptance := g.states.map State.accepting
  classes := g.classes

/-- The table with the moves of an automaton. -/
def tableOf (g : Automaton) : ClassTable := g.classMoves.foldl addMove (blank g)

/-- The table of a deterministic automaton. -/
def ofAutomaton? (g : Automaton) : Except InvariantViolation ClassTable := do
  g.validate
  if g.IsDeterministic then return tableOf g else throw .tableOfNondeterministic

/-! ## Looking -/

/-- The number of classes. -/
def width (t : ClassTable) : Nat := t.classes.length

def states (t : ClassTable) : List StateId := List.range t.size

def isAccepting (t : ClassTable) (state : StateId) : Bool := t.acceptance[state]?.getD false

/-- The accepting states in ascending order. -/
def acceptingStates (t : ClassTable) : List StateId := t.states.filter t.isAccepting

/-- Where `state` goes on a class. -/
def target? (t : ClassTable) (state : StateId) (column : Nat) : Option StateId :=
  t.targets[Cell.mk state column]?

/-- What comes to `target` on a class, in the order in which it was entered. -/
def sourcesOf (t : ClassTable) (target : StateId) (column : Nat) : List StateId :=
  (t.sources.getD ⟨target, column⟩ #[]).toList

/-- The states that go to one of `targets` on a class: for each target in turn, its sources. -/
def predecessors (t : ClassTable) (targets : List StateId) (column : Nat) : List StateId :=
  targets.flatMap fun target => t.sourcesOf target column

end ClassTable

end RegularLanguages
