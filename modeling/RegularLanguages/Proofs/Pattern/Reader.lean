import RegularLanguages.Pattern.Parser

set_option autoImplicit false

/-! # Reading patterns one character at a time

A reader that takes one character at a time and never looks ahead. What it has read so far is a
`Reader`: the alternation under way, the groups around it that are still open, and what the
next character belongs to. So an error is a matter of the characters up to it, and the text
after it cannot change it; only what `finish` finds at the end may turn out well if the text
goes on.

The functions of the parser call each other; the reader is one loop over the text, and what holds
after every character holds throughout. That it reads what the parser reads is
`Pattern.parseWithin_eq_readAll`. -/

namespace RegularLanguages

/-- An alternation under way. -/
structure Level where
  /-- Where the alternation starts. -/
  start : Nat
  /-- The branches that are complete, the latest first. -/
  branches : List Pattern := []
  /-- Where the branch under way starts. -/
  branchStart : Nat := start
  /-- The items of the branch under way, the latest first. -/
  items : List Pattern := []

/-- A number under way: where its first digit is, and its value so far. -/
structure Digits where
  start : Nat
  value : Nat

/-- What the next character of a class belongs to. -/
inductive ClassMode where
  /-- The next item, or the end of the class. -/
  | item
  /-- The escape that starts an item. -/
  | escapedLow (start : Nat)
  /-- What follows the first character of an item. -/
  | low (start : Nat) (lo : Char)
  /-- What follows a character and a hyphen. -/
  | hyphen (start : Nat) (lo : Char)
  /-- The escape that ends a range; `escape` is where it starts. -/
  | escapedHigh (start : Nat) (lo : Char) (escape : Nat)

/-- What the next character belongs to. -/
inductive Mode where
  /-- The next item of the branch, or the operator after the latest one. -/
  | item
  /-- The escape that starts at `start`. -/
  | escape (start : Nat)
  /-- The class that starts at `start`; a circumflex may come first. -/
  | openClass (start : Nat)
  /-- The class that starts at `start`; `ranges` are its items, the latest first. -/
  | inClass (start : Nat) (negated : Bool) (ranges : List CharRange) (mode : ClassMode)
  /-- The lower bound of the repetition that starts at `start`. -/
  | lowerBound (start : Nat) (digits : Option Digits)
  /-- The upper bound of the repetition that starts at `start`. -/
  | upperBound (start : Nat) (min : Nat) (digits : Option Digits)

/-- A pattern under way. -/
structure Reader where
  /-- The number of characters read. -/
  position : Nat := 0
  /-- The open groups, the innermost first: where each one starts, and the alternation that it
      interrupts. -/
  enclosing : List (Nat × Level) := []
  level : Level := { start := 0 }
  mode : Mode := .item

/-! ## Trees within the limit

`limit` is the depth that a tree may have; without one every tree is taken. -/

/-- Refuses a tree that is too deep. -/
def Pattern.within (limit : Option Nat) (p : Pattern) : Except SyntaxError Pattern :=
  if limit.any (· < p.depth) then refuse p.position .nestingTooDeep else .ok p

namespace Level

/-- The level with one more item. -/
def push (l : Level) (p : Pattern) : Level := { l with items := p :: l.items }

/-- The branch under way as a tree. -/
def branch (limit : Option Nat) (l : Level) : Except SyntaxError Pattern :=
  match l.items with
  | [] => .ok (.empty l.branchStart)
  | [p] => .ok p
  | items => (Pattern.concat l.branchStart items.reverse).within limit

/-- The whole alternation as a tree. -/
def close (limit : Option Nat) (l : Level) : Except SyntaxError Pattern := do
  let last ← l.branch limit
  match l.branches with
  | [] => return last
  | branches => (Pattern.alternation l.start (last :: branches).reverse).within limit

end Level

namespace Reader

variable (limit : Option Nat)

/-- The reader with one more item, expecting the next. -/
def push (r : Reader) (p : Pattern) : Reader := { r with level := r.level.push p, mode := .item }

/-- Repeats the latest item. -/
def repeatLatest (r : Reader) (min : Nat) (max : Option Nat) : Except SyntaxError Reader :=
  match r.level.items with
  | [] => refuse r.position .nothingToRepeat
  | body :: items => do
    let p ← (Pattern.repetition body.position body min max).within limit
    return { r with level := { r.level with items := p :: items }, mode := .item }

/-! ## Groups and branches -/

def openGroup (r : Reader) : Except SyntaxError Reader :=
  if limit.any (· < r.enclosing.length + 1) then refuse r.position .nestingTooDeep
  else
    .ok { r with
      enclosing := (r.position, r.level) :: r.enclosing
      level := { start := r.position + 1 } }

def closeGroup (r : Reader) : Except SyntaxError Reader := do
  let body ← r.level.close limit
  match r.enclosing with
  | [] => refuse r.position .unmatchedParen
  | (start, outer) :: enclosing =>
    let p ← (Pattern.group start body).within limit
    return { r with enclosing, level := outer.push p }

def nextBranch (r : Reader) : Except SyntaxError Reader := do
  let p ← r.level.branch limit
  return { r with
    level := { r.level with
      branches := p :: r.level.branches, branchStart := r.position + 1, items := [] } }

/-! ## One character -/

/-- Reads the first character of an item, or an operator. -/
def readItem (r : Reader) (c : Char) : Except SyntaxError Reader :=
  match c with
  | '(' => r.openGroup limit
  | ')' => r.closeGroup limit
  | '|' => r.nextBranch limit
  | '*' => r.repeatLatest limit 0 none
  | '+' => r.repeatLatest limit 1 none
  | '?' => r.repeatLatest limit 0 (some 1)
  | '\x7b' =>
    if r.level.items.isEmpty then refuse r.position .nothingToRepeat
    else .ok { r with mode := .lowerBound r.position none }
  | '[' => .ok { r with mode := .openClass r.position }
  | '\\' => .ok { r with mode := .escape r.position }
  | ']' | '\x7d' => refuse r.position (.unexpectedChar c)
  | '.' => .ok (r.push (.anyChar r.position))
  | _ => .ok (r.push (.literal r.position c))

/-- Reads the first character of an item of a class, or the closing bracket. -/
def readClassItem (r : Reader) (start : Nat) (negated : Bool) (ranges : List CharRange)
    (c : Char) : Except SyntaxError Reader :=
  match c with
  | ']' =>
    if ranges.isEmpty then refuse start .emptyClass
    else .ok (r.push (.charClass start negated (CharRange.normalize ranges.reverse)))
  | '\\' => .ok { r with mode := .inClass start negated ranges (.escapedLow r.position) }
  | _ => .ok { r with mode := .inClass start negated ranges (.low r.position c) }

/-- Adds the range from `lo` to `hi` to a class. -/
def closeRange (r : Reader) (start : Nat) (negated : Bool) (ranges : List CharRange)
    (itemStart : Nat) (lo hi : Char) : Except SyntaxError Reader :=
  match CharRange.ofBounds? lo hi with
  | some range => .ok { r with mode := .inClass start negated (range :: ranges) .item }
  | none => refuse itemStart (.invalidRange lo hi)

/-- Reads a character of a class. A hyphen makes a range only between two characters; at the
    end of the class it stands for itself. -/
def readClass (r : Reader) (start : Nat) (negated : Bool) (ranges : List CharRange)
    (mode : ClassMode) (c : Char) : Except SyntaxError Reader :=
  match mode with
  | .item => r.readClassItem start negated ranges c
  | .escapedLow itemStart => do
    let lo ← unescape itemStart c
    return { r with mode := .inClass start negated ranges (.low itemStart lo) }
  | .low itemStart lo =>
    if c = '-' then .ok { r with mode := .inClass start negated ranges (.hyphen itemStart lo) }
    else r.readClassItem start negated (.single lo :: ranges) c
  | .hyphen itemStart lo =>
    match c with
    | ']' => r.readClassItem start negated (.single '-' :: .single lo :: ranges) c
    | '\\' =>
      .ok { r with mode := .inClass start negated ranges (.escapedHigh itemStart lo r.position) }
    | _ => r.closeRange start negated ranges itemStart lo c
  | .escapedHigh itemStart lo escape => do
    let hi ← unescape escape c
    r.closeRange start negated ranges itemStart lo hi

/-- A number with one more digit. -/
def addDigit (position : Nat) (digits : Option Digits) (digit : Nat) :
    Except SyntaxError Digits :=
  let start := (digits.map Digits.start).getD position
  let value := (digits.map Digits.value).getD 0 * 10 + digit
  if repetitionLimit < value then refuse start .invalidRepetition else .ok { start, value }

/-- Reads a character of the lower bound, which must have a digit. Without a comma after it, it
    is the upper bound, too. -/
def readLowerBound (r : Reader) (start : Nat) (digits : Option Digits) (c : Char) :
    Except SyntaxError Reader :=
  match digitValue? c, digits with
  | some digit, _ => do
    return { r with mode := .lowerBound start (some (← addDigit r.position digits digit)) }
  | none, none => refuse start .invalidRepetition
  | none, some min =>
    match c with
    | ',' => .ok { r with mode := .upperBound start min.value none }
    | '\x7d' => r.repeatLatest limit min.value (some min.value)
    | _ => refuse start .invalidRepetition

/-- Reads a character of the upper bound. Without a digit there is no upper bound. -/
def readUpperBound (r : Reader) (start min : Nat) (digits : Option Digits) (c : Char) :
    Except SyntaxError Reader :=
  match digitValue? c with
  | some digit => do
    return { r with mode := .upperBound start min (some (← addDigit r.position digits digit)) }
  | none =>
    match c, digits with
    | '\x7d', none => r.repeatLatest limit min none
    | '\x7d', some max =>
      if max.value < min then refuse start .invalidRepetition
      else r.repeatLatest limit min (some max.value)
    | _, _ => refuse start .invalidRepetition

/-- Reads a character, whatever it belongs to. -/
def read (r : Reader) (c : Char) : Except SyntaxError Reader :=
  match r.mode with
  | .item => r.readItem limit c
  | .escape start => do return r.push (.literal start (← unescape start c))
  | .openClass start =>
    if c = '^' then .ok { r with mode := .inClass start true [] .item }
    else r.readClassItem start false [] c
  | .inClass start negated ranges mode => r.readClass start negated ranges mode c
  | .lowerBound start digits => r.readLowerBound limit start digits c
  | .upperBound start min digits => r.readUpperBound limit start min digits c

/-- Reads a character and counts it. -/
def step (r : Reader) (c : Char) : Except SyntaxError Reader := do
  let next ← r.read limit c
  return { next with position := r.position + 1 }

/-! ## The end of the text -/

/-- The tree, if the text may end here. -/
def finish (r : Reader) : Except SyntaxError Pattern :=
  match r.mode with
  | .item => do
    let p ← r.level.close limit
    match r.enclosing with
    | [] => return p
    | (start, _) :: _ => refuse start .unclosedGroup
  | .escape _ => refuse r.position .unexpectedEnd
  | .openClass start => refuse start .unclosedClass
  | .inClass _ _ _ (.escapedLow _) => refuse r.position .unexpectedEnd
  | .inClass _ _ _ (.escapedHigh _ _ _) => refuse r.position .unexpectedEnd
  | .inClass start _ _ _ => refuse start .unclosedClass
  | .lowerBound start none => refuse start .invalidRepetition
  | .lowerBound _ (some _) => refuse r.position .unexpectedEnd
  | .upperBound _ _ _ => refuse r.position .unexpectedEnd

/-- The tree of the text that the reader has read and of the text that follows. -/
def readAll (r : Reader) (text : List Char) : Except SyntaxError Pattern := do
  let r ← text.foldlM (step limit) r
  r.finish limit

end Reader

end RegularLanguages
