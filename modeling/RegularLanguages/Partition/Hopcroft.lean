import RegularLanguages.Partition.Basic

set_option autoImplicit false

/-! # Hopcroft's refinement

The refinement keeps a queue of splitters. A splitter, a block and a class, separates the states
that go into the block on the class from those that do not. Whenever it cuts a block in two, the
smaller half becomes a new block, and the new block joins the queue with every class; the larger
half keeps the number, and what was queued under it.

At the start every block is queued with every class. A table may have missing moves, and queueing
one block of the first two would not be enough for it.

The numbers of the blocks depend on the order of all this: accepting states are in the first block,
and the blocks that a splitter touches are cut in the order in which the predecessors of its block
are listed. A block lists its states in ascending order from the start, and cuts keep the order. -/

namespace RegularLanguages.Hopcroft

/-- A refinement under way. -/
structure Refinement where
  partition : Partition
  /-- The splitters, blocks with a class, that are still to be used. -/
  queue : List (Nat × Nat)
  deriving DecidableEq

/-- A block with each class of the table. -/
def splittersOf (t : ClassTable) (block : Nat) : List (Nat × Nat) :=
  (List.range t.width).map fun column => (block, column)

/-- The accepting states and then the others; a block that would be empty is left out. -/
def firstBlocks (t : ClassTable) : List (List StateId) :=
  ([true, false].map fun accepting => t.states.filter fun s => t.isAccepting s = accepting).filter
    fun block => !block.isEmpty

/-- Accepting and other states apart, and everything queued. -/
def start (t : ClassTable) : Refinement :=
  let partition := Partition.ofBlocks t.size (firstBlocks t)
  { partition, queue := (List.range partition.count).flatMap (splittersOf t) }

/-- Cuts a block into the states in `marked` and the others, unless one side is empty. -/
def cut (t : ClassTable) (marked : List StateId) (r : Refinement) (block : Nat) : Refinement :=
  let (inside, outside) := (r.partition.members block).partition (· ∈ marked)
  if inside.isEmpty || outside.isEmpty then r
  else
    { partition := r.partition.separate (if inside.length ≤ outside.length then inside else outside)
      queue := r.queue ++ splittersOf t r.partition.count }

/-- Uses the next splitter: the states that go into its block are marked, and their blocks are cut
    in the order in which the marked states touch them. -/
def step (t : ClassTable) (r : Refinement) : Refinement :=
  match r.queue with
  | [] => r
  | (block, column) :: rest =>
    let marked := t.predecessors (r.partition.members block) column
    let touched := novel [] (marked.map r.partition.block)
    touched.foldl (cut t marked) { r with queue := rest }

/-- Uses splitters until none is left or the budget is spent. -/
def run (t : ClassTable) : Nat → Refinement → Refinement
  | 0, r => r
  | budget + 1, r =>
    match r.queue with
    | [] => r
    | _ :: _ => run t budget (step t r)

/-- The coarsest partition that respects acceptance and moves. Each block is queued once with
    each class, and there are no more blocks than states. -/
def refine (t : ClassTable) : Partition := (run t (t.size * t.width) (start t)).partition

end RegularLanguages.Hopcroft
