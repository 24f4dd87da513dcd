import RegularLanguages.CharRange.Basic

set_option autoImplicit false

/-! # Patterns

The tree of a regular expression. Every node knows the offset of the character where it starts
in the text it was read from.

Concatenations and alternations list their parts, so the tree shows exactly the grouping that
was written: parentheses are nodes of their own. A class keeps the ranges as written, brought
into normal form, and says whether it is negated. -/

namespace RegularLanguages

/-- The tree of a regular expression. -/
inductive Pattern where
  /-- Nothing between two bars, in a group or in the whole text. -/
  | empty (position : Nat)
  | literal (position : Nat) (c : Char)
  | anyChar (position : Nat)
  | charClass (position : Nat) (negated : Bool) (ranges : List CharRange)
  | concat (position : Nat) (items : List Pattern)
  | alternation (position : Nat) (branches : List Pattern)
  /-- At least `min` times, and at most `max` times if there is such a bound. -/
  | repetition (position : Nat) (body : Pattern) (min : Nat) (max : Option Nat)
  | group (position : Nat) (body : Pattern)

namespace Pattern

/-- Where the pattern starts in the text. -/
def position : Pattern → Nat
  | empty position => position
  | literal position _ => position
  | anyChar position => position
  | charClass position _ _ => position
  | concat position _ => position
  | alternation position _ => position
  | repetition position _ _ _ => position
  | group position _ => position

/-! ## Nesting -/

mutual

/-- How deep the tree nests: nothing for a leaf, one more than the deepest part otherwise. -/
def depth : Pattern → Nat
  | concat _ items => deepest items + 1
  | alternation _ branches => deepest branches + 1
  | repetition _ body _ _ => depth body + 1
  | group _ body => depth body + 1
  | _ => 0

/-- The depth of the deepest of several trees. -/
def deepest : List Pattern → Nat
  | [] => 0
  | p :: rest => max (depth p) (deepest rest)

end

/-! ## Matching nothing -/

mutual

/-- The pattern can match the empty word. -/
def isNullable : Pattern → Bool
  | empty _ => true
  | literal _ _ => false
  | anyChar _ => false
  | charClass _ _ _ => false
  | concat _ items => allNullable items
  | alternation _ branches => anyNullable branches
  | repetition _ body min _ => min == 0 || isNullable body
  | group _ body => isNullable body

def allNullable : List Pattern → Bool
  | [] => true
  | p :: rest => isNullable p && allNullable rest

def anyNullable : List Pattern → Bool
  | [] => false
  | p :: rest => isNullable p || anyNullable rest

end

end Pattern

end RegularLanguages
