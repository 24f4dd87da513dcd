import RegularLanguages.ClassTable
import RegularLanguages.Numbering

set_option autoImplicit false

/-! # Partitions of the states

Minimization sorts the states of a table into blocks of states that need not be told apart.
A partition numbers the blocks and gives every state the number of its block. `ofKey` is the
general way to make one: states with equal keys share a block. `quotient` makes one state of
each block. -/

namespace RegularLanguages

/-- An assignment of the states `0, 1, …` to numbered blocks. -/
structure Partition where
  /-- The block of each state. -/
  blockOf : Array Nat
  /-- The number of blocks. -/
  count : Nat
  deriving DecidableEq

namespace Partition

/-- The number of states. -/
def size (p : Partition) : Nat := p.blockOf.size

/-- The block of a state. -/
def block (p : Partition) (state : StateId) : Nat := p.blockOf[state]?.getD 0

/-- The states of a block in ascending order. -/
def members (p : Partition) (block : Nat) : List StateId :=
  (List.range p.size).filter fun s => p.block s = block

/-- The partition of `0, …, size - 1` by a key; the blocks are numbered in the order in which
    their keys appear. -/
def ofKey {κ : Type} [Ord κ] [Std.TransOrd κ] [Std.LawfulEqOrd κ] (size : Nat)
    (key : StateId → κ) : Partition :=
  let keys := (List.range size).map key
  let distinct := Numbering.ofList keys
  { blockOf := (keys.map fun k => (distinct.rank? k).getD 0).toArray
    count := distinct.toList.length }

/-- The partition with the listed states moved to a new block. -/
def separate (p : Partition) (moved : List StateId) : Partition :=
  { blockOf := moved.foldl (fun blockOf s => blockOf.setIfInBounds s p.count) p.blockOf
    count := p.count + 1 }

/-- The partition of `0, …, size - 1` into the listed blocks. -/
def ofBlocks (size : Nat) (blocks : List (List StateId)) : Partition :=
  blocks.foldl separate { blockOf := Array.replicate size 0, count := 0 }

end Partition

namespace ClassTable

/-- Accepting states apart from the others. -/
def byAcceptance (t : ClassTable) : Partition := .ofKey t.size t.isAccepting

/-- The state that stands for a block: it accepts and moves like the first member. A block
    without members gives a state without edges. -/
def blockState (t : ClassTable) (p : Partition) (block : Nat) : State :=
  match (p.members block).head? with
  | none => {}
  | some first =>
    { accepting := t.isAccepting first
      edges := mergeEdges <| t.classes.zipIdx.filterMap fun (label, column) =>
        (t.target? first column).map fun target => ⟨label, p.block target⟩ }

/-- The automaton with one state for each block. -/
def quotient (t : ClassTable) (p : Partition) : Automaton :=
  { states := ((List.range p.count).map (t.blockState p)).toArray, initial := p.block t.start }

end ClassTable

end RegularLanguages
