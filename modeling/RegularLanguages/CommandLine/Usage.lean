set_option autoImplicit false

/-! # Command line conventions

A command has named options and numbered positionals. This file reads the words after a command
by the usual conventions: an option is written `--name value` or `--name=value`, options and
positionals may come in any order, and after `--` every word is a positional.

Words are read one at a time. A value is checked not when its word is read but when the next
parameter starts or the words end, because only then is the parameter complete; a `Matching`
therefore keeps the parameter under way apart from those that are settled. -/

namespace RegularLanguages.CommandLine

/-- Why the words do not make a command. The first two ask for a text instead of a run. -/
inductive UsageError where
  | displayHelp
  | displayVersion
  /-- Nothing was asked for. -/
  | missingEverything
  | missingSubcommand
  | invalidSubcommand
  | missingRequiredArgument
  | invalidValue
  | unknownArgument
  /-- An option was given twice. -/
  | argumentConflict
  /-- A flag was given a value. -/
  | tooManyValues
  deriving DecidableEq

/-- What it means to give a parameter. -/
inductive Effect where
  /-- It takes a value that must pass the test. -/
  | value (accepts : String → Bool)
  /-- It is a flag. -/
  | flag
  /-- It is a flag that ends the reading. -/
  | stop (reason : UsageError)

/-- An option or a positional. -/
structure Parameter where
  name : String
  effect : Effect := .value fun _ => true
  /-- The letter that stands for the option after a single hyphen. -/
  short : Option Char := none
  /-- It takes all words that follow. -/
  many : Bool := false
  /-- Its values may start with a hyphen. -/
  hyphens : Bool := false

/-- The parameters of a command. -/
structure Signature where
  options : List Parameter
  positionals : List Parameter

/-- What the next word may continue. -/
inductive Awaiting where
  | nothing
  /-- The value of an option. -/
  | value (option : Parameter)
  /-- More values of a positional. -/
  | more (positional : Parameter)

/-- The reading of a command's words so far. -/
structure Matching where
  /-- The settled parameters with their values. -/
  settled : List (String × List String) := []
  /-- The parameter under way with its values. -/
  pending : Option (Parameter × List String) := none
  awaiting : Awaiting := .nothing
  /-- The number of positionals that are complete. -/
  index : Nat := 0
  /-- `--` has been read. -/
  trailing : Bool := false

namespace Awaiting

/-- Whatever the next word looks like, it is a value. -/
def takesHyphens : Awaiting → Bool
  | nothing => false
  | value p => p.hyphens
  | more p => p.hyphens

end Awaiting

namespace Matching

/-- The values given for a parameter. -/
def values? (m : Matching) (name : String) : Option (List String) := m.settled.lookup name

/-- The last value given for a parameter. -/
def value? (m : Matching) (name : String) : Option String :=
  (m.values? name).bind List.getLast?

/-! ## Settling parameters -/

/-- Checks a complete parameter and settles it. -/
def settle (m : Matching) (p : Parameter) (values : List String) : Except UsageError Matching :=
  let settled : Except UsageError Matching :=
    if (m.values? p.name).isSome then .error .argumentConflict
    else .ok { m with settled := (p.name, values) :: m.settled }
  match p.effect with
  | .stop reason => .error reason
  | .flag => settled
  | .value accepts =>
    if values.isEmpty then .error .invalidValue
    else do
      let next ← settled
      if values.all accepts then return next else throw .invalidValue

/-- Settles the parameter under way. -/
def settlePending (m : Matching) : Except UsageError Matching :=
  match m.pending with
  | none => .ok m
  | some (p, values) => settle { m with pending := none } p values

/-- Settles the parameter under way and then another. -/
def give (m : Matching) (p : Parameter) (values : List String) : Except UsageError Matching := do
  let next ← (← m.settlePending).settle p values
  return { next with awaiting := .nothing }

/-! ## Reading one word -/

variable (sig : Signature)

/-- The positional that the next plain word belongs to accepts words with a hyphen in front. -/
def positionalTakesHyphens (m : Matching) : Bool :=
  (sig.positionals[m.index]?).any Parameter.hyphens

/-- Reads `--name` or `--name=value`; none if the word is a value after all. -/
def readLong (m : Matching) (name : String) (attached : Option String) :
    Except UsageError (Option Matching) :=
  match sig.options.find? fun p => p.name = name with
  | some p =>
    match p.effect, attached with
    | .value _, some v => some <$> m.give p [v]
    | .value _, none => do
      let next ← m.settlePending
      return some { next with pending := some (p, []), awaiting := .value p }
    | _, some _ => .error .tooManyValues
    | _, none => some <$> m.give p []
  | none => if m.positionalTakesHyphens sig then .ok none else .error .unknownArgument

/-- Reads the letters after a single hyphen. -/
def readShort (m : Matching) : List Char → Except UsageError Matching
  | [] => .ok m
  | c :: rest =>
    match sig.options.find? fun p => p.short = some c with
    | some p => do readShort (← m.give p []) rest
    | none => .error .unknownArgument

/-- The name and the attached value of a word after its two hyphens. -/
def splitLong (word : List Char) : String × Option String :=
  let name := String.ofList (word.takeWhile (· ≠ '='))
  match word.dropWhile (· ≠ '=') with
  | [] => (name, none)
  | _ :: value => (name, some (String.ofList value))

/-- Reads a word as a value or a positional; `surplus` is the complaint about one too many. -/
def readValue (m : Matching) (surplus : UsageError) (word : String) :
    Except UsageError Matching :=
  match m.trailing, m.awaiting, m.pending with
  | false, .value _, some (p, values) =>
    .ok { m with pending := some (p, values ++ [word]), awaiting := .nothing }
  | _, _, _ =>
    match sig.positionals[m.index]? with
    | none => .error surplus
    | some p =>
      match p.many, m.awaiting, m.pending with
      | true, .more _, some (_, values) =>
        .ok { m with pending := some (p, values ++ [word]) }
      | true, _, _ => do
        let next ← m.settlePending
        return { next with pending := some (p, [word]), awaiting := .more p }
      | false, _, _ => do
        let next ← m.settlePending
        return { next with
          pending := some (p, [word]), awaiting := .nothing, index := next.index + 1 }

/-- The letters after the hyphen all stand for options. -/
def knowsShorts (letters : List Char) : Bool :=
  letters.all fun c => sig.options.any fun p => p.short = some c

/-- Reads a word. -/
def read (surplus : UsageError) (m : Matching) (word : String) : Except UsageError Matching :=
  if m.trailing || m.awaiting.takesHyphens then m.readValue sig surplus word
  else
    match word.toList with
    | ['-', '-'] => .ok { m with trailing := true }
    | '-' :: '-' :: long => do
      let (name, attached) := splitLong long
      match ← m.readLong sig name attached with
      | some next => return next
      | none => m.readValue sig surplus word
    | '-' :: c :: letters =>
      if m.positionalTakesHyphens sig && !knowsShorts sig (c :: letters) then
        m.readValue sig surplus word
      else m.readShort sig (c :: letters)
    | _ => m.readValue sig surplus word

/-- Reads all words; every positional must be given. -/
def readAll (words : List String) : Except UsageError Matching := do
  let m ← words.foldlM (read sig .unknownArgument) ({} : Matching)
  let m ← m.settlePending
  if sig.positionals.all fun p => (m.values? p.name).isSome then return m
  else throw .missingRequiredArgument

end Matching

end RegularLanguages.CommandLine
