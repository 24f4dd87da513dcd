import RegularLanguages.Automaton.Boolean
import RegularLanguages.Pattern.Automaton

set_option autoImplicit false

/-! # Lexical languages

Six languages of the kind that a lexer needs, built from the operations of this library:
identifiers, keywords, identifiers that are not keywords, signed integers, and list and tuple
literals. Lists and tuples have parts that are languages themselves; with an algorithm the
parts are minimized as well as the whole. -/

namespace RegularLanguages

inductive LexicalLanguage where
  /-- A letter or underscore, then letters, digits and underscores. -/
  | identifiers
  | keywords
  /-- Identifiers that are not keywords. -/
  | identifiersWithoutKeywords
  /-- Decimal integers without leading zeros, with or without a sign. -/
  | integer
  /-- Integers between brackets, with semicolons between them. -/
  | list
  /-- Identifiers, integers and lists between parentheses, with commas between them. -/
  | tuple
  deriving DecidableEq

namespace LexicalLanguage

def all : List LexicalLanguage :=
  [identifiers, keywords, identifiersWithoutKeywords, integer, list, tuple]

def name : LexicalLanguage → String
  | identifiers => "identifiers"
  | keywords => "keywords"
  | identifiersWithoutKeywords => "identifiers-without-keywords"
  | integer => "integer"
  | list => "list"
  | tuple => "tuple"

/-! ## Words and patterns -/

/-- The characters of an identifier. -/
def identifierChars : List Char := "_0123456789qwertyuiopasdfghjklzxcvbnm".toList

/-- The characters that an identifier may start with. -/
def identifierStartChars : List Char := "_qwertyuiopasdfghjklzxcvbnm".toList

def keywordList : List String := ["if", "then", "else", "let", "in", "true", "false"]

def integerPattern : String := "[+-]\x7b0,1\x7d(0|[1-9][0-9]*)"

/-! ## Parts -/

def identifierAutomaton : Automaton :=
  (Automaton.charSet identifierStartChars).concat (Automaton.charSet identifierChars).star

def keywordAutomaton : Automaton := .words (keywordList.map String.toList)

def integerAutomaton : Except Error Automaton := (compile integerPattern).mapError .malformed

def spaces : Automaton := (Automaton.char ' ').star

/-! ## Languages -/

section

variable (algorithm : Option Algorithm)

/-- Minimizes, if there is an algorithm for it. -/
def settle (g : Automaton) : Except Error Automaton :=
  match algorithm with
  | none => .ok g
  | some a => (g.minimize a).mapError .invariant

/-- Items between two brackets with a separator between them, or no item. Spaces may stand
    before a separator and before the closing bracket; those before an item are the item's. -/
def delimited (opening : Char) (item : Automaton) (separator closing : Char) :
    Except Error Automaton :=
  let items := (Automaton.concatAll [item, spaces, .char separator]).star.concat item
  settle algorithm <|
    .concatAll [.char opening, items.union spaces, spaces, .char closing]

def listAutomaton : Except Error Automaton := do
  let item ← settle algorithm (spaces.concat (← integerAutomaton))
  delimited algorithm '[' item ';' ']'

def tupleAutomaton : Except Error Automaton := do
  let element ← settle algorithm <|
    .unionAll [identifierAutomaton, ← integerAutomaton, ← listAutomaton algorithm]
  let item ← settle algorithm (spaces.concat element)
  delimited algorithm '(' item ',' ')'

end

/-- The automaton of a language; with an algorithm it and its parts are minimized. -/
def build (language : LexicalLanguage) (algorithm : Option Algorithm) : Except Error Automaton :=
  match language with
  | identifiers => settle algorithm identifierAutomaton
  | keywords => settle algorithm keywordAutomaton
  | identifiersWithoutKeywords => do
    let g ← (identifierAutomaton.difference keywordAutomaton (.ofChars identifierChars)).mapError
      .alphabet
    settle algorithm g
  | integer => do settle algorithm (← integerAutomaton)
  | list => listAutomaton algorithm
  | tuple => tupleAutomaton algorithm

end LexicalLanguage

end RegularLanguages
