import RegularLanguages.CharRange.Normal
import RegularLanguages.Error
import RegularLanguages.Pattern.Basic

set_option autoImplicit false

/-! # Parsing patterns

From tightest to loosest a pattern is built by repetition, concatenation and alternation;
parentheses group. The characters `\ | * + ? { } ( ) [ ] . ^ - $` are written with a backslash
where they are to stand for themselves, and so may be the line feed, tab and carriage return as
`\n`, `\t` and `\r`.

There is a function for each level, which takes as much of the text as belongs to the level and
calls the function of the next tighter one; in parentheses it starts over. What a function returns
is a `Taken`: less of the text is left than before, and the same groups are open.

The depth of the tree is limited. A node that would be too deep is refused when it is complete, and
a group already when it is opened inside too many others, before there is a tree for it. So each
tree comes with its depth, and the text with the number of groups that are open. -/

namespace RegularLanguages

/-- The deepest tree that is accepted. -/
def nestingLimit : Nat := 250

/-- The largest bound of a repetition. -/
def repetitionLimit : Nat := 1000

/-- Refuses the pattern. -/
def refuse {α : Type} (position : Nat) (kind : SyntaxErrorKind) : Except SyntaxError α :=
  .error { position, kind }

/-- Refuses a depth beyond the limit; without one, none. -/
def nest (limit : Option Nat) (position depth : Nat) : Except SyntaxError Unit :=
  if limit.any (· < depth) then refuse position .nestingTooDeep else .ok ()

/-! ## Characters -/

/-- The character that is written as a backslash and `c`. -/
def unescape? (c : Char) : Option Char :=
  if c = 'n' then some '\n'
  else if c = 't' then some '\t'
  else if c = 'r' then some '\r'
  else if c ∈ ['\\', '|', '*', '+', '?', '\x7b', '\x7d', '(', ')', '[', ']', '.', '^', '-', '$']
  then some c
  else none

/-- The character that is written as a backslash at `start` and `c`. -/
def unescape (start : Nat) (c : Char) : Except SyntaxError Char :=
  match unescape? c with
  | some d => .ok d
  | none => refuse start (.unknownEscape c)

/-- The value of a digit from 0 to 9. -/
def digitValue? (c : Char) : Option Nat := if c.isDigit then some (c.toNat - '0'.toNat) else none

/-! ## Trees with their depth -/

/-- A tree and its depth. -/
structure Node where
  tree : Pattern
  depth : Nat
  depth_eq : depth = tree.depth

namespace Node

/-- The depth of the deepest of several nodes. -/
def deepest (nodes : List Node) : Nat := (nodes.map depth).foldr max 0

theorem deepest_eq (nodes : List Node) : deepest nodes = Pattern.deepest (nodes.map tree) := by
  induction nodes with
  | nil => rfl
  | cons node nodes ih => exact congr (congrArg max node.depth_eq) ih

def empty (position : Nat) : Node := ⟨.empty position, 0, rfl⟩

def literal (position : Nat) (c : Char) : Node := ⟨.literal position c, 0, rfl⟩

def anyChar (position : Nat) : Node := ⟨.anyChar position, 0, rfl⟩

def charClass (position : Nat) (negated : Bool) (ranges : List CharRange) : Node :=
  ⟨.charClass position negated ranges, 0, rfl⟩

def concat (position : Nat) (items : List Node) : Node :=
  ⟨.concat position (items.map tree), deepest items + 1, congrArg (· + 1) (deepest_eq items)⟩

def alternation (position : Nat) (branches : List Node) : Node :=
  ⟨.alternation position (branches.map tree), deepest branches + 1,
    congrArg (· + 1) (deepest_eq branches)⟩

def repetition (body : Node) (min : Nat) (max : Option Nat) : Node :=
  ⟨.repetition body.tree.position body.tree min max, body.depth + 1,
    congrArg (· + 1) body.depth_eq⟩

def group (position : Nat) (body : Node) : Node :=
  ⟨.group position body.tree, body.depth + 1, congrArg (· + 1) body.depth_eq⟩

/-- Refuses a node that is too deep, where it starts. -/
def within (limit : Option Nat) (node : Node) : Except SyntaxError Node := do
  nest limit node.tree.position node.depth
  return node

/-- The branch of the given items, the latest first. A branch of one item is that item. -/
def ofItems (limit : Option Nat) (start : Nat) (items : List Node) : Except SyntaxError Node :=
  match items with
  | [] => .ok (empty start)
  | [item] => .ok item
  | items => (concat start items.reverse).within limit

/-- The alternation of the given branches, the latest first. An alternation of one branch is that
    branch. -/
def ofBranches (limit : Option Nat) (start : Nat) (branches : List Node) :
    Except SyntaxError Node :=
  match branches with
  | [branch] => .ok branch
  | branches => (alternation start branches.reverse).within limit

end Node

/-! ## Texts under way -/

/-- A text under way. -/
structure Input where
  /-- What is left of it. -/
  rest : List Char
  /-- The number of characters before that. -/
  position : Nat := 0
  /-- The number of groups that are open here. -/
  openGroups : Nat := 0

namespace Input

/-- The number of characters left. -/
def length (s : Input) : Nat := s.rest.length

/-- Fewer than `n` characters are left, inside so many groups. -/
structure Bounded (n groups : Nat) (s : Input) : Prop where
  length_lt : s.length < n
  openGroups_eq : s.openGroups = groups

end Input

/-- A value that is taken from a text, and what it leaves of the text. -/
structure Taken (n groups : Nat) (α : Type) where
  value : α
  left : Input
  bounded : left.Bounded n groups

namespace Input

section

variable {n groups : Nat} {s t : Input}

theorem bounded_self (s : Input) : s.Bounded (s.length + 1) s.openGroups :=
  ⟨Nat.lt_succ_self _, rfl⟩

theorem Bounded.trans (hs : s.Bounded n groups) (ht : t.Bounded s.length s.openGroups) :
    t.Bounded n groups :=
  ⟨Nat.lt_trans ht.length_lt hs.length_lt, ht.openGroups_eq.trans hs.openGroups_eq⟩

theorem Bounded.trans_succ (hs : s.Bounded n groups)
    (ht : t.Bounded (s.length + 1) s.openGroups) : t.Bounded n groups :=
  ⟨Nat.lt_of_lt_of_le ht.length_lt hs.length_lt, ht.openGroups_eq.trans hs.openGroups_eq⟩

/-- The next character. -/
def next? (s : Input) : Option (Taken s.length s.openGroups Char) :=
  match s with
  | ⟨[], _, _⟩ => none
  | ⟨c :: rest, position, openGroups⟩ =>
    some ⟨c, ⟨rest, position + 1, openGroups⟩, Nat.lt_succ_self _, rfl⟩

/-- The next character, if it is the expected one. -/
def eat? (s : Input) (expected : Char) : Option (Taken s.length s.openGroups Char) :=
  s.next?.filter (·.value = expected)

/-! ## Escapes -/

/-- The character behind a backslash at `start`. -/
def escape (start : Nat) (s : Input) : Except SyntaxError (Taken s.length s.openGroups Char) :=
  match s.next? with
  | none => refuse s.position .unexpectedEnd
  | some t => do return ⟨← unescape start t.value, t.left, t.bounded⟩

/-! ## Classes -/

/-- The character of a class that starts with `c` at `start`, which is `c` or an escape. -/
def classChar (start : Nat) (c : Char) (s : Input) (hs : s.Bounded n groups) :
    Except SyntaxError (Taken n groups Char) :=
  if c = '\\' then do
    let t ← s.escape start
    return ⟨t.value, t.left, hs.trans t.bounded⟩
  else .ok ⟨c, s, hs⟩

/-- A hyphen makes a range only between two characters; at the end of a class it stands for
    itself. -/
def startsRange (s : Input) : Bool :=
  (s.eat? '-').any fun hyphen => hyphen.left.next?.any (·.value ≠ ']')

/-- The last character of a range, behind the hyphen, in the class that starts at `start`. -/
def rangeEnd (start : Nat) (s : Input) : Except SyntaxError (Taken s.length s.openGroups Char) :=
  match s.next? with
  | none => refuse start .unclosedClass
  | some hyphen =>
    match hyphen.left.next? with
    | none => refuse start .unclosedClass
    | some t =>
      classChar hyphen.left.position t.value t.left (hyphen.bounded.trans t.bounded)

/-- The rest of the items of the class that starts at `start`; `ranges` are those before, the latest
    first. -/
def classRanges (start : Nat) (ranges : List CharRange) (s : Input) (hs : s.Bounded n groups) :
    Except SyntaxError (Taken n groups (List CharRange)) :=
  match s.next? with
  | none => refuse start .unclosedClass
  | some t =>
    if t.value = ']' then
      if ranges.isEmpty then refuse start .emptyClass
      else .ok ⟨ranges.reverse, t.left, hs.trans t.bounded⟩
    else do
      let lo ← classChar s.position t.value t.left t.bounded
      if lo.left.startsRange then
        let hi ← lo.left.rangeEnd start
        match CharRange.ofBounds? lo.value hi.value with
        | some range =>
          classRanges start (range :: ranges) hi.left (hs.trans (lo.bounded.trans hi.bounded))
        | none => refuse s.position (.invalidRange lo.value hi.value)
      else classRanges start (.single lo.value :: ranges) lo.left (hs.trans lo.bounded)
termination_by s.length
decreasing_by
  · exact (lo.bounded.trans hi.bounded).length_lt
  · exact lo.bounded.length_lt

/-- The class behind the opening bracket at `start`, from its first item on. -/
def classItems (start : Nat) (negated : Bool) (s : Input) (hs : s.Bounded n groups) :
    Except SyntaxError (Taken n groups Node) := do
  let ranges ← s.classRanges start [] hs
  return ⟨.charClass start negated (CharRange.normalize ranges.value), ranges.left, ranges.bounded⟩

/-- The class behind the opening bracket at `start`; a circumflex may come first. -/
def charClass (start : Nat) (s : Input) (hs : s.Bounded n groups) :
    Except SyntaxError (Taken n groups Node) :=
  match s.eat? '^' with
  | some t => classItems start true t.left (hs.trans t.bounded)
  | none => classItems start false s hs

/-! ## Repetitions -/

/-- The rest of the number that starts at `start`; `value` is what the digits before are worth, if
    there are any. -/
def number (start : Nat) (value : Option Nat) (s : Input) (hs : s.Bounded n groups) :
    Except SyntaxError (Taken n groups (Option Nat)) :=
  match s.next? with
  | none => .ok ⟨value, s, hs⟩
  | some t =>
    match digitValue? t.value with
    | none => .ok ⟨value, s, hs⟩
    | some digit =>
      let next := value.getD 0 * 10 + digit
      if repetitionLimit < next then refuse start .invalidRepetition
      else number start (some next) t.left (hs.trans t.bounded)
termination_by s.length
decreasing_by exact t.bounded.length_lt

/-- The upper bound of a repetition whose lower bound is `min`: the number behind a comma, without a
    comma the same. -/
def upperBound (min : Nat) (s : Input) (hs : s.Bounded n groups) :
    Except SyntaxError (Taken n groups (Option Nat)) :=
  match s.eat? ',' with
  | some t => number t.left.position none t.left (hs.trans t.bounded)
  | none => .ok ⟨some min, s, hs⟩

/-- The closing brace of the bounds `min` and `max`, whose opening brace is at `start`. -/
def closeBounds (start min : Nat) (max : Option Nat) (s : Input) (hs : s.Bounded n groups) :
    Except SyntaxError (Taken n groups (Nat × Option Nat)) :=
  match s.next? with
  | none => refuse s.position .unexpectedEnd
  | some t =>
    if t.value ≠ '\x7d' then refuse start .invalidRepetition
    else if max.any (· < min) then refuse start .invalidRepetition
    else .ok ⟨(min, max), t.left, hs.trans t.bounded⟩

/-- The bounds behind the opening brace at `start`. -/
def bounds (start : Nat) (s : Input) (hs : s.Bounded n groups) :
    Except SyntaxError (Taken n groups (Nat × Option Nat)) := do
  let lower ← s.number s.position none hs
  match lower.value with
  | none => refuse start .invalidRepetition
  | some min =>
    let upper ← lower.left.upperBound min lower.bounded
    upper.left.closeBounds start min upper.value upper.bounded

/-- How often the operator that comes next repeats, if there comes one. -/
def operator? (s : Input) :
    Except SyntaxError (Option (Taken s.length s.openGroups (Nat × Option Nat))) :=
  match s.next? with
  | none => .ok none
  | some t =>
    match t.value with
    | '\x7b' => do return some (← t.left.bounds s.position t.bounded)
    | '*' => .ok (some ⟨(0, none), t.left, t.bounded⟩)
    | '+' => .ok (some ⟨(1, none), t.left, t.bounded⟩)
    | '?' => .ok (some ⟨(0, some 1), t.left, t.bounded⟩)
    | _ => .ok none

/-- The operators behind a node, one upon the other. -/
def operators (limit : Option Nat) (node : Node) (s : Input) (hs : s.Bounded n groups) :
    Except SyntaxError (Taken n groups Node) := do
  match ← s.operator? with
  | none => return ⟨node, s, hs⟩
  | some t =>
    let node ← (node.repetition t.value.1 t.value.2).within limit
    operators limit node t.left (hs.trans t.bounded)
termination_by s.length
decreasing_by exact t.bounded.length_lt

/-! ## Patterns -/

/-- A group is opened: `t` is what is behind the parenthesis. -/
def enter (t : Input) : Input := { t with openGroups := t.openGroups + 1 }

/-- A group is closed: `t` is what is behind the parenthesis. -/
def leave (t : Input) : Input := { t with openGroups := t.openGroups - 1 }

theorem Bounded.enter (ht : t.Bounded n groups) : t.enter.Bounded n (groups + 1) :=
  ⟨ht.length_lt, congrArg (· + 1) ht.openGroups_eq⟩

theorem Bounded.leave (ht : t.Bounded n (groups + 1)) : t.leave.Bounded n groups :=
  ⟨ht.length_lt, congrArg (· - 1) ht.openGroups_eq⟩

end

variable (limit : Option Nat)

mutual

/-- Branches with bars between them. -/
def alternation (s : Input) :
    Except SyntaxError (Taken (s.length + 1) s.openGroups Node) := do
  let first ← s.concat
  branches s.position [first.value] first.left first.bounded
termination_by (s.length, 4)
decreasing_by
  · exact Prod.Lex.right _ (by decide)
  · exact Prod.Lex.right' _ (Nat.le_of_lt_succ first.bounded.length_lt) (by decide)

/-- The rest of the branches of the alternation that starts at `start`; `nodes` are those before,
    the latest first. -/
def branches {n groups : Nat} (start : Nat) (nodes : List Node) (s : Input)
    (hs : s.Bounded n groups) : Except SyntaxError (Taken n groups Node) :=
  match s.eat? '|' with
  | none => do return ⟨← Node.ofBranches limit start nodes, s, hs⟩
  | some t => do
    let next ← t.left.concat
    branches start (next.value :: nodes) next.left
      (hs.trans (t.bounded.trans_succ next.bounded))
termination_by (s.length, 3)
decreasing_by
  · exact Prod.Lex.left _ _ t.bounded.length_lt
  · exact Prod.Lex.left _ _ (t.bounded.trans_succ next.bounded).length_lt

/-- Items one behind the other. -/
def concat (s : Input) : Except SyntaxError (Taken (s.length + 1) s.openGroups Node) :=
  items s.position [] s s.bounded_self
termination_by (s.length, 3)
decreasing_by exact Prod.Lex.right _ (by decide)

/-- The rest of the items of the branch that starts at `start`; `nodes` are those before, the latest
    first. -/
def items {n groups : Nat} (start : Nat) (nodes : List Node) (s : Input) (hs : s.Bounded n groups) :
    Except SyntaxError (Taken n groups Node) :=
  if s.next?.all (·.value ∈ ['|', ')']) then do
    return ⟨← Node.ofItems limit start nodes, s, hs⟩
  else do
    let next ← s.item
    items start (next.value :: nodes) next.left (hs.trans next.bounded)
termination_by (s.length, 2)
decreasing_by
  · exact Prod.Lex.right _ (by decide)
  · exact Prod.Lex.left _ _ next.bounded.length_lt

/-- An atom with the operators behind it. -/
def item (s : Input) : Except SyntaxError (Taken s.length s.openGroups Node) := do
  let first ← s.atom
  operators limit first.value first.left first.bounded
termination_by (s.length, 1)
decreasing_by exact Prod.Lex.right _ (by decide)

/-- A character, a class or a group. -/
def atom (s : Input) : Except SyntaxError (Taken s.length s.openGroups Node) :=
  match s.next? with
  | none => refuse s.position .unexpectedEnd
  | some t =>
    match t.value with
    | '(' => do
      nest limit s.position t.left.enter.openGroups
      let body ← t.left.enter.alternation
      match body.left.eat? ')' with
      | none => refuse s.position .unclosedGroup
      | some u =>
        let node ← (Node.group s.position body.value).within limit
        return ⟨node, u.left.leave,
          (t.bounded.enter.trans_succ (body.bounded.trans u.bounded)).leave⟩
    | '[' => t.left.charClass s.position t.bounded
    | '.' => .ok ⟨.anyChar s.position, t.left, t.bounded⟩
    | '\\' => do
      let c ← t.left.escape s.position
      return ⟨.literal s.position c.value, c.left, t.bounded.trans c.bounded⟩
    | '*' | '+' | '?' | '\x7b' => refuse s.position .nothingToRepeat
    | ']' | '\x7d' => refuse s.position (.unexpectedChar t.value)
    | c => .ok ⟨.literal s.position c, t.left, t.bounded⟩
termination_by (s.length, 0)
decreasing_by exact Prod.Lex.left _ _ t.bounded.length_lt

end

end Input

/-! ## Whole texts -/

namespace Pattern

/-- Reads a text as a pattern; `limit` is the depth that the tree may have. -/
def parseWithin (limit : Option Nat) (text : List Char) : Except SyntaxError Pattern := do
  let whole ← ({ rest := text } : Input).alternation limit
  match whole.left.next? with
  | none => return whole.value.tree
  | some t =>
    if t.value = ')' then refuse whole.left.position .unmatchedParen
    else refuse whole.left.position (.unexpectedChar t.value)

/-- Reads a text as a pattern. -/
def parse (text : List Char) : Except SyntaxError Pattern := parseWithin (some nestingLimit) text

end Pattern

end RegularLanguages
