import RegularLanguages.Partition.Basic

set_option autoImplicit false

/-! # Moore's refinement

The signature of a state is its block together with the blocks it goes to on the classes. Each
round makes the signatures the new blocks, and the refinement ends with the first round that
finds no new block. -/

namespace RegularLanguages.Moore

/-- The block of a state and, for each class, the block it goes to. -/
def signature (t : ClassTable) (p : Partition) (state : StateId) : List (Option Nat) :=
  some (p.block state) ::
    (List.range t.width).map fun column => (t.target? state column).map p.block

/-- States with equal signatures share a block. -/
def round (t : ClassTable) (p : Partition) : Partition := .ofKey t.size (signature t p)

/-- Rounds until one finds no new block; none if the budget does not last. -/
def settle? (t : ClassTable) : Nat → Partition → Option Partition
  | 0, _ => none
  | budget + 1, p =>
    let q := round t p
    if q.count = p.count then some q else settle? t budget q

/-- The coarsest partition that respects acceptance and moves. Every round but the last adds a
    block, so there are no more rounds than states. -/
def refine (t : ClassTable) : Partition :=
  (settle? t (max 1 t.size) t.byAcceptance).getD t.byAcceptance

end RegularLanguages.Moore
