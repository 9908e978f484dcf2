/-!
# Command line arguments

The arguments are read from left to right, and the first fault is the one that is reported. A
request for the version or for help counts at once, whatever follows it.

## Main definitions

* `Invocation`: what is asked for
* `UsageError`, `UsageError.message`: what can be wrong with the arguments
* `Invocation.parse`: reads the arguments
-/

namespace EffectAudit

/-- How the report of a check is written. -/
inductive OutputFormat where
  | human
  | json
  deriving DecidableEq

/-- The format that a text names. -/
def OutputFormat.ofText? : String → Option OutputFormat
  | "human" => some human
  | "json" => some json
  | _ => none

/-- What is asked for on the command line. -/
inductive Invocation where
  | check (program : String) (config : Option String) (format : OutputFormat)
  | rules
  | version
  | help
  deriving DecidableEq

/-- What can be wrong with the arguments. -/
inductive UsageError where
  | missingCommand
  | unknownCommand (name : String)
  | unexpected (argument : String)
  | missingProgram
  | missingValue (option : String)
  | repeated (option : String)
  | invalidFormat (value : String)
  deriving DecidableEq

/-- The sentence that reports a fault in the arguments. -/
def UsageError.message : UsageError → String
  | missingCommand => "error: a command is required: check or rules"
  | unknownCommand name => s!"error: unrecognized command '{name}'"
  | unexpected argument => s!"error: unexpected argument '{argument}'"
  | missingProgram => "error: the argument <PROGRAM> is required"
  | missingValue option => s!"error: a value is required for '{option}'"
  | repeated option => s!"error: '{option}' cannot be used multiple times"
  | invalidFormat value => s!"error: invalid value '{value}' for '--format': human or json expected"

/-- An argument by its shape. -/
inductive Argument where
  /-- `--`, after which nothing is an option. -/
  | separator
  /-- `--name` or `--name=value`. -/
  | long (name : String) (value : Option String)
  /-- Letters behind one dash, of which the first one decides. -/
  | short (letter : Char)
  | plain (text : String)
  deriving DecidableEq

/-- The shape of an argument. A single dash is a plain text. -/
def Argument.ofText (text : String) : Argument :=
  match text.toList with
  | ['-', '-'] => separator
  | '-' :: '-' :: rest =>
    let name := rest.takeWhile (· ≠ '=')
    match rest.dropWhile (· ≠ '=') with
    | [] => long (.ofList name) none
    | _ :: value => long (.ofList name) (some (.ofList value))
  | '-' :: letter :: _ => short letter
  | _ => plain text

/-- The parts of a check that have been given so far. -/
structure CheckArguments where
  program : Option String := none
  config : Option String := none
  format : Option OutputFormat := none

namespace CheckArguments

/-- Takes the program to check. -/
def setProgram (a : CheckArguments) (text : String) : Except UsageError CheckArguments :=
  if a.program.isSome then .error (.unexpected text)
  else if text.isEmpty then .error .missingProgram
  else .ok { a with program := some text }

/-- Takes the value of an option. -/
def setOption (a : CheckArguments) (name value : String) : Except UsageError CheckArguments :=
  match name with
  | "config" =>
    if value.isEmpty then .error (.missingValue "--config")
    else if a.config.isSome then .error (.repeated "--config")
    else .ok { a with config := some value }
  | "format" =>
    match OutputFormat.ofText? value with
    | none => .error (.invalidFormat value)
    | some format =>
      if a.format.isSome then .error (.repeated "--format")
      else .ok { a with format := some format }
  | _ => .error (.unexpected ("--" ++ name))

/-- The check that is asked for. -/
def finish (a : CheckArguments) : Except UsageError Invocation :=
  match a.program with
  | none => .error .missingProgram
  | some program => .ok (.check program a.config (a.format.getD .human))

/-- Reads the arguments of a check behind those that have been read. -/
def read (a : CheckArguments) : List String → Except UsageError Invocation
  | [] => a.finish
  | text :: rest =>
    match Argument.ofText text with
    | .separator => do (← rest.foldlM setProgram a).finish
    | .plain text => do (← a.setProgram text).read rest
    | .short 'h' | .long "help" none => .ok .help
    | .long name (some value) => do (← a.setOption name value).read rest
    | .long name none =>
      if name = "config" ∨ name = "format" then
        match rest with
        | [] => .error (.missingValue text)
        | value :: rest =>
          match Argument.ofText value with
          | .plain value => do (← a.setOption name value).read rest
          | _ => .error (.missingValue text)
      else .error (.unexpected text)
    | .short _ => .error (.unexpected text)

end CheckArguments

namespace Invocation

/-- Reads the arguments of a command that takes none. -/
def readRules : List String → Except UsageError Invocation
  | [] => .ok rules
  | text :: rest =>
    match Argument.ofText text, rest with
    | .separator, [] => .ok rules
    | .separator, next :: _ => .error (.unexpected next)
    | .short 'h', _ | .long "help" none, _ => .ok help
    | _, _ => .error (.unexpected text)

/-- Reads the names of the commands that help is asked for. -/
def readHelp : List String → Except UsageError Invocation
  | [] | ["check"] | ["rules"] | ["help"] => .ok help
  | names => .error (.unknownCommand (names.getLastD ""))

/-- Reads the arguments of the command line. -/
def parse : List String → Except UsageError Invocation
  | [] => .error .missingCommand
  | "check" :: rest => ({} : CheckArguments).read rest
  | "rules" :: rest => readRules rest
  | "help" :: rest => readHelp rest
  | text :: _ =>
    match Argument.ofText text with
    | .short 'h' | .long "help" none => .ok help
    | .short 'V' | .long "version" none => .ok version
    | .separator => .error .missingCommand
    | .plain name => .error (.unknownCommand name)
    | _ => .error (.unexpected text)

end Invocation

end EffectAudit
