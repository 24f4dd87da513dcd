import RegularLanguages.CommandLine.Usage
import RegularLanguages.LexicalLanguage

set_option autoImplicit false

/-! # The commands

Three commands: `dot` draws the automaton of a pattern, `match` tests words against a pattern,
`lang` describes or draws a lexical language. The two logging options may stand before the
command's name or among its words; what is said later counts. -/

namespace RegularLanguages.CommandLine

/-- How log records are written. -/
inductive LogFormat where
  | compact
  | pretty
  | json
  deriving DecidableEq

namespace LogFormat

def all : List LogFormat := [compact, pretty, json]

def name : LogFormat → String
  | compact => "compact"
  | pretty => "pretty"
  | json => "json"

/-- The format with the given name, in any case. -/
def ofName? (text : String) : Except UnknownName LogFormat :=
  match all.find? fun f => Text.spells text f.name with
  | some f => .ok f
  | none => .error (.logFormat text)

end LogFormat

/-- A command with its arguments. An algorithm that is `none` leaves the automaton as built. -/
inductive Command where
  | dot (pattern : String) (algorithm : Option Algorithm)
  | test (pattern : String) (inputs : List String)
  | lang (language : LexicalLanguage) (drawn : Bool) (algorithm : Option Algorithm)
  deriving DecidableEq

/-- A command with the logging options. -/
structure Invocation where
  command : Command
  logLevel : Option String
  logFormat : Option LogFormat
  deriving DecidableEq

/-! ## Values by name -/

/-- The algorithm of a `--minimize` option. -/
def minimizeChoice? (text : String) : Option (Option Algorithm) :=
  if text = "none" then some none
  else (Algorithm.all.find? fun a => a.name = text).map some

def language? (text : String) : Option LexicalLanguage :=
  LexicalLanguage.all.find? fun l => l.name = text

def logFormat? (text : String) : Option LogFormat := LogFormat.all.find? fun f => f.name = text

/-! ## Signatures -/

def helpOption : Parameter := { name := "help", effect := .stop .displayHelp, short := some 'h' }

def versionOption : Parameter :=
  { name := "version", effect := .stop .displayVersion, short := some 'V' }

/-- The options of every command. -/
def commonOptions : List Parameter :=
  [{ name := "log-level" },
    { name := "log-format", effect := .value fun v => (logFormat? v).isSome },
    helpOption]

def minimizeOption : Parameter :=
  { name := "minimize", effect := .value fun v => (minimizeChoice? v).isSome }

/-- The options before the command's name. -/
def leadingSignature : Signature :=
  { options := versionOption :: commonOptions, positionals := [] }

def dotSignature : Signature :=
  { options := minimizeOption :: commonOptions, positionals := [{ name := "pattern" }] }

def matchSignature : Signature :=
  { options := commonOptions
    positionals := [{ name := "pattern" }, { name := "inputs", many := true, hyphens := true }] }

def langSignature : Signature :=
  { options := { name := "dot", effect := .flag } :: minimizeOption :: commonOptions
    positionals :=
      [{ name := "language", effect := .value fun v => (language? v).isSome }] }

/-! ## From words to commands -/

/-- The algorithm that the words ask for; Hopcroft's if they do not say. -/
def chosenAlgorithm (m : Matching) : Option Algorithm :=
  ((m.value? "minimize").bind minimizeChoice?).getD (some .hopcroft)

/-- Reads the words after the name of a command; none if there is no such command. -/
def readCommand? (name : String) (words : List String) :
    Option (Except UsageError (Command × Matching)) :=
  if name = "dot" then some do
    let m ← Matching.readAll dotSignature words
    return (.dot ((m.value? "pattern").getD "") (chosenAlgorithm m), m)
  else if name = "match" then some do
    let m ← Matching.readAll matchSignature words
    return (.test ((m.value? "pattern").getD "") ((m.values? "inputs").getD []), m)
  else if name = "lang" then some do
    let m ← Matching.readAll langSignature words
    match (m.value? "language").bind language? with
    | some language =>
      return (.lang language (m.values? "dot").isSome (chosenAlgorithm m), m)
    | none => throw .invalidValue
  else none

/-- The complaint about words after `help`, which names at most one command. -/
def readHelp : List String → UsageError
  | [] => .displayHelp
  | [name] => if name ∈ ["dot", "match", "lang", "help"] then .displayHelp else .invalidSubcommand
  | _ => .invalidSubcommand

/-- Reads words up to the name of a command, and then the command. -/
def readFrom (m : Matching) : List String → Except UsageError Invocation
  | [] => do
    let m ← m.settlePending
    throw (if m.settled.isEmpty then .missingEverything else .missingSubcommand)
  | word :: rest =>
    match m.trailing, m.awaiting, readCommand? word rest with
    | false, .nothing, some command => do
      let (command, inner) ← command
      let outer ← m.settlePending
      return {
        command
        logLevel := inner.value? "log-level" <|> outer.value? "log-level"
        logFormat := (inner.value? "log-format" <|> outer.value? "log-format").bind logFormat? }
    | true, _, some _ => throw .unknownArgument
    | trailing, awaiting, _ => do
      match trailing, awaiting with
      | false, .nothing => if word = "help" then throw (readHelp rest)
      | true, _ => if word = "help" then throw .unknownArgument
      | _, _ => pure ()
      readFrom (← m.read leadingSignature .invalidSubcommand word) rest

/-- Reads the words of a command line, the program's own name left out. -/
def Invocation.ofWords? (words : List String) : Except UsageError Invocation := readFrom {} words

end RegularLanguages.CommandLine
