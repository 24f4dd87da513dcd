import Mathlib.Logic.Basic
import RegularLanguages.Pattern.Basic

set_option autoImplicit false

/-! # Printing trees

`print` writes a tree so that its text is read as that tree. It puts a backslash before each
character that would mean something else, writes bounds in braces, and adds no parentheses: the
tree has a node for each pair that it needs.

The text says nothing about positions, so the tree that is read differs from the printed one in
those. `placed` is the tree with the positions that its text gives it, `unplaced` the tree without
any, and the first changes nothing that the second keeps (`unplaced_placed`). -/

namespace RegularLanguages

namespace Pattern

/-! ## Text -/

/-- The characters that stand for themselves only behind a backslash. -/
def metacharacters : List Char :=
  ['\\', '|', '*', '+', '?', '\x7b', '\x7d', '(', ')', '[', ']', '.', '^', '-', '$']

/-- A character that is to stand for itself. -/
def escaped (c : Char) : List Char := if c ∈ metacharacters then ['\\', c] else [c]

/-- A range in a class. -/
def printRange (r : CharRange) : List Char :=
  if r.lo = r.hi then escaped r.lo else escaped r.lo ++ '-' :: escaped r.hi

/-- The bounds of a repetition. -/
def printBounds (min : Nat) (max : Option Nat) : List Char :=
  '\x7b' :: (Nat.toDigits 10 min ++ ',' :: (max.elim [] (Nat.toDigits 10) ++ ['\x7d']))

mutual

/-- The text of a tree. -/
def print : Pattern → List Char
  | empty _ => []
  | literal _ c => escaped c
  | anyChar _ => ['.']
  | charClass _ negated ranges =>
    (if negated then ['[', '^'] else ['[']) ++ (ranges.flatMap printRange ++ [']'])
  | concat _ items => (printAll items).flatten
  | alternation _ branches => ['|'].intercalate (printAll branches)
  | repetition _ body min max => print body ++ printBounds min max
  | group _ body => '(' :: (print body ++ [')'])

/-- The texts of several trees. -/
def printAll : List Pattern → List (List Char)
  | [] => []
  | p :: rest => print p :: printAll rest

end

/-! ## Positions -/

mutual

/-- The tree with the positions that it has if its text starts at `start`. -/
def placed (start : Nat) : Pattern → Pattern
  | empty _ => empty start
  | literal _ c => literal start c
  | anyChar _ => anyChar start
  | charClass _ negated ranges => charClass start negated ranges
  | concat _ items => concat start (placedAll start 0 items)
  | alternation _ branches => alternation start (placedAll start 1 branches)
  | repetition _ body min max => repetition start (placed start body) min max
  | group _ body => group start (placed (start + 1) body)

/-- The same for trees whose texts follow each other, with `gap` characters between them. -/
def placedAll (start gap : Nat) : List Pattern → List Pattern
  | [] => []
  | p :: rest => placed start p :: placedAll (start + p.print.length + gap) gap rest

end

mutual

/-- The tree without its positions. -/
def unplaced : Pattern → Pattern
  | empty _ => empty 0
  | literal _ c => literal 0 c
  | anyChar _ => anyChar 0
  | charClass _ negated ranges => charClass 0 negated ranges
  | concat _ items => concat 0 (unplacedAll items)
  | alternation _ branches => alternation 0 (unplacedAll branches)
  | repetition _ body min max => repetition 0 (unplaced body) min max
  | group _ body => group 0 (unplaced body)

/-- Several trees without their positions. -/
def unplacedAll : List Pattern → List Pattern
  | [] => []
  | p :: rest => unplaced p :: unplacedAll rest

end

mutual

/-- Placing a tree changes its positions only. -/
theorem unplaced_placed (start : Nat) : ∀ p : Pattern, (p.placed start).unplaced = p.unplaced
  | empty _ => rfl
  | literal _ _ => rfl
  | anyChar _ => rfl
  | charClass _ _ _ => rfl
  | concat _ items => congrArg (concat 0) (unplacedAll_placedAll start 0 items)
  | alternation _ branches => congrArg (alternation 0) (unplacedAll_placedAll start 1 branches)
  | repetition _ body min max =>
    congrArg (repetition 0 · min max) (unplaced_placed start body)
  | group _ body => congrArg (group 0) (unplaced_placed (start + 1) body)

theorem unplacedAll_placedAll (start gap : Nat) :
    ∀ ps : List Pattern, unplacedAll (placedAll start gap ps) = unplacedAll ps
  | [] => rfl
  | p :: rest => congrArg₂ List.cons (unplaced_placed start p) (unplacedAll_placedAll _ gap rest)

end

mutual

theorem depth_placed (start : Nat) : ∀ p : Pattern, (p.placed start).depth = p.depth
  | empty _ => rfl
  | literal _ _ => rfl
  | anyChar _ => rfl
  | charClass _ _ _ => rfl
  | concat _ items => congrArg (· + 1) (deepest_placedAll start 0 items)
  | alternation _ branches => congrArg (· + 1) (deepest_placedAll start 1 branches)
  | repetition _ body _ _ => congrArg (· + 1) (depth_placed start body)
  | group _ body => congrArg (· + 1) (depth_placed (start + 1) body)

theorem deepest_placedAll (start gap : Nat) :
    ∀ ps : List Pattern, deepest (placedAll start gap ps) = deepest ps
  | [] => rfl
  | p :: rest => congrArg₂ max (depth_placed start p) (deepest_placedAll _ gap rest)

end

theorem position_placed (start : Nat) (p : Pattern) : (p.placed start).position = start := by
  cases p <;> rfl

/-- The row of trees that are placed so far, the latest first, with one more tree. -/
theorem reverse_placedAll_cons (start gap : Nat) (p : Pattern) (rest done : List Pattern) :
    (placedAll start gap (p :: rest)).reverse ++ done =
      (placedAll (start + p.print.length + gap) gap rest).reverse ++ p.placed start :: done := by
  rw [placedAll, List.reverse_cons, List.append_assoc]
  rfl

theorem length_placedAll (start gap : Nat) (ps : List Pattern) :
    (placedAll start gap ps).length = ps.length := by
  induction ps generalizing start with
  | nil => rfl
  | cons p rest ih => exact congrArg (· + 1) (ih _)

end Pattern

end RegularLanguages
