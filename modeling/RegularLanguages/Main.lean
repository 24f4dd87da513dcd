import RegularLanguages.CommandLine.Output

set_option autoImplicit false

/-! # The program

Reads the command line, prints what the command answers, and leaves the status: nothing for
success, one for a pattern that cannot be read, two for words that are no command. -/

namespace RegularLanguages.CommandLine

/-- The text that `--help` prints. -/
def usageText : String :=
  "usage: regular-languages [--log-level LEVEL] [--log-format compact|pretty|json] COMMAND\n"
    ++ "\n"
    ++ "  dot PATTERN [--minimize hopcroft|moore|brzozowski|none]\n"
    ++ "  match PATTERN INPUT...\n"
    ++ "  lang LANGUAGE [--dot] [--minimize hopcroft|moore|brzozowski|none]\n"

/-- Why the words are refused. -/
def UsageError.message : UsageError → String
  | .displayHelp => "help"
  | .displayVersion => "version"
  | .missingEverything => "no command given"
  | .missingSubcommand => "no command given"
  | .invalidSubcommand => "there is no such command"
  | .missingRequiredArgument => "an argument is missing"
  | .invalidValue => "a value is missing or not one of those allowed"
  | .unknownArgument => "there is no such argument"
  | .argumentConflict => "an option is given twice"
  | .tooManyValues => "a flag takes no value"

end RegularLanguages.CommandLine

open RegularLanguages RegularLanguages.CommandLine in
/-- Runs the command line. -/
def main (words : List String) : IO UInt32 := do
  match Invocation.ofWords? words with
  | .ok invocation =>
    match invocation.command.output with
    | .ok text =>
      IO.print text
      return 0
    | .error e =>
      IO.eprintln ("Error: " ++ e.message)
      return 1
  | .error .displayHelp =>
    IO.print usageText
    return 0
  | .error .displayVersion =>
    IO.println "regular-languages 0.1.0"
    return 0
  | .error e =>
    IO.eprintln ("error: " ++ e.message)
    IO.eprint usageText
    return 2
