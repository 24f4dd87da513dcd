import RegularLanguages.Text.Quoted

set_option autoImplicit false

/-! # What can go wrong

The library refuses three kinds of request: a pattern that is not a regular expression, an
operation that needs an alphabet and does not get a suitable one, and a graph operation on
states that do not exist or on a graph without the property it needs. Each refusal is a value
that names its cause; the wording is in the `message` functions and nowhere else. -/

namespace RegularLanguages

/-- What is wrong with a pattern. -/
inductive SyntaxErrorKind where
  | unexpectedEnd
  | unmatchedParen
  | unclosedGroup
  | unclosedClass
  | emptyClass
  | nothingToRepeat
  | invalidRange (lo hi : Char)
  | invalidRepetition
  | unknownEscape (c : Char)
  | unexpectedChar (c : Char)
  | nestingTooDeep
  deriving DecidableEq

/-- What is wrong with a pattern, and the offset of the character to blame. -/
structure SyntaxError where
  position : Nat
  kind : SyntaxErrorKind
  deriving DecidableEq

/-- What is wrong with an alphabet. -/
inductive AlphabetError where
  /-- The alphabet has no symbol. -/
  | undeclared
  /-- A symbol is used that the alphabet does not have. -/
  | symbolOutside (symbol : Char)
  deriving DecidableEq

/-- What is wrong with a graph. -/
inductive InvariantViolation where
  /-- A state is named that the graph does not have. -/
  | missingState (state size : Nat)
  /-- The initial state is none of the graph's states. -/
  | missingInitial (state size : Nat)
  /-- An edge leads to a state that the graph does not have. -/
  | danglingEdge (source target : Nat)
  /-- A class table was asked of a graph that is not deterministic. -/
  | tableOfNondeterministic
  /-- The smallest automaton came out nondeterministic. -/
  | minimalNondeterministic
  deriving DecidableEq

/-- A name that stands for nothing. -/
inductive UnknownName where
  | algorithm (name : String)
  | logFormat (name : String)
  deriving DecidableEq

/-- Every refusal of an operation on languages. -/
inductive Error where
  | malformed (cause : SyntaxError)
  | alphabet (cause : AlphabetError)
  | invariant (cause : InvariantViolation)
  deriving DecidableEq

/-! ## Wording -/

def SyntaxErrorKind.message : SyntaxErrorKind → String
  | .unexpectedEnd => "unexpected end of pattern"
  | .unmatchedParen => "unmatched ')'"
  | .unclosedGroup => "unclosed group"
  | .unclosedClass => "unclosed character class"
  | .emptyClass => "empty character class"
  | .nothingToRepeat => "nothing to repeat"
  | .invalidRange lo hi => "invalid range " ++ Text.quoted lo ++ "-" ++ Text.quoted hi
  | .invalidRepetition => "invalid repetition bounds"
  | .unknownEscape c => "unknown escape sequence '\\" ++ String.singleton c ++ "'"
  | .unexpectedChar c => "unexpected character " ++ Text.quoted c
  | .nestingTooDeep => "pattern nests too deeply"

def SyntaxError.message (e : SyntaxError) : String :=
  "syntax error at position " ++ toString e.position ++ ": " ++ e.kind.message

def AlphabetError.message : AlphabetError → String
  | .undeclared => "no alphabet declared"
  | .symbolOutside symbol =>
    "symbol " ++ Text.quoted symbol ++ " is outside the declared alphabet"

def InvariantViolation.message : InvariantViolation → String
  | .missingState state size =>
    "state " ++ toString state ++ " does not exist in a graph of " ++ toString size ++ " states"
  | .missingInitial state size =>
    "initial state " ++ toString state ++ " does not exist in a graph of " ++ toString size
      ++ " states"
  | .danglingEdge source target =>
    "state " ++ toString source ++ " has an edge to missing state " ++ toString target
  | .tableOfNondeterministic => "class table requires a deterministic graph"
  | .minimalNondeterministic => "minimization produced a nondeterministic graph"

def UnknownName.message : UnknownName → String
  | .algorithm name => "Unknown minimization algorithm: " ++ name
  | .logFormat name => "Unknown log format: " ++ name

def Error.message : Error → String
  | .malformed cause => cause.message
  | .alphabet cause => "alphabet error: " ++ cause.message
  | .invariant cause => "invariant violation: " ++ cause.message

end RegularLanguages
