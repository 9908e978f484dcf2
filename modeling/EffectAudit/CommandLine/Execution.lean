import EffectAudit.CommandLine.Invocation
import EffectAudit.Json.Printer
import EffectAudit.Json.Reader
import EffectAudit.Session.Analysis
import EffectAudit.Syntax.JsonForm

/-!
# Running a command

What the program answers to its arguments, given the contents of files. A program to check is a JSON
array of source files; it is read before the configuration.

## Main definitions

* `Response`: what is written and the exit code
* `Failure`, `Failure.message`: why nothing was checked
* `Invocation.execute`: runs what was asked for
* `respond`: runs a command line
-/

namespace EffectAudit

/-- Why a file could not be read. -/
inductive ReadFault where
  | missing
  | underFile
  | isDirectory
  | other (text : String)
  deriving DecidableEq

/-- How the operating system reports a fault. -/
def ReadFault.message : ReadFault → String
  | missing => "No such file or directory (os error 2)"
  | underFile => "Not a directory (os error 20)"
  | isDirectory => "Is a directory (os error 21)"
  | other text => text

/-- The contents of the files of a directory. -/
abbrev Directory := String → Except ReadFault String

/-- A file that a command reads. -/
inductive Input where
  | program
  | config
  deriving DecidableEq

/-- What a file is called in reports. -/
def Input.name : Input → String
  | program => "program"
  | config => "config"

/-- Why a command could not be run. -/
inductive Failure where
  | usage (error : UsageError)
  | unreadable (input : Input) (path : String) (fault : ReadFault)
  /-- The file does not hold what it should. -/
  | malformed (input : Input) (path : String)
  | badConfig (error : ConfigError)

/-- The sentence that reports a failure. -/
def Failure.message : Failure → String
  | usage error => error.message
  | unreadable input path fault =>
    s!"Error reading {input.name} '{path}': {fault.message}"
  | malformed input path => s!"Error parsing {input.name} '{path}'"
  | badConfig error => s!"Error in config: {error.message}"

/-- The exit code of a failure. -/
def Failure.exitCode : Nat := 2

/-- What a command answers. -/
structure Response where
  exitCode : Nat := 0
  output : String := ""
  /-- What is told to a human reader beside the output. -/
  remarks : List String := []
  deriving DecidableEq

/-- The text that shows the version. -/
def versionText : String := "cadenza 0.1.0-alpha.1\n"

/-- The text that shows how the program is called. -/
def helpText : String :=
  "Static effect and Result-discharge verifier for Cadenza programs\n\n"
    ++ "Usage: cadenza <COMMAND>\n\n"
    ++ "Commands:\n"
    ++ "  check  Verify a parsed program\n"
    ++ "  rules  List every diagnostic rule\n"
    ++ "  help   Print this message or the help of the given subcommand(s)\n\n"
    ++ "Options:\n"
    ++ "  -h, --help     Print help\n"
    ++ "  -V, --version  Print version\n"

/-! ## Rules -/

/-- A text with blanks behind it up to a width. -/
def padded (width : Nat) (text : String) : String :=
  text ++ String.ofList (List.replicate (width - text.length) ' ')

/-- Since when there is an item, and how stable it is unless it is stable. -/
def Item.provenance (i : Item) : String :=
  s!"since {i.since}" ++ (if i.stability = "stable" then "" else ", " ++ i.stability)

/-- A rule as it is listed, with its name in a column of the given width. -/
def Rule.row (width : Nat) (r : Rule) : String :=
  "  ".intercalate [padded width r.name, padded 13 r.category.name, padded 7 r.defaultSeverity.name,
    padded 13 r.item.provenance, r.item.description]

/-- The list of all rules. -/
def ruleList : String :=
  let width := (Rule.all.map fun r => r.name.length).foldl max 0
  String.join (Rule.all.map fun r => r.row width ++ "\n")

/-! ## Checks -/

/-- The text of a file. -/
def readInput (directory : Directory) (input : Input) (path : String) : Except Failure String :=
  match directory path with
  | .ok text => .ok text
  | .error fault => .error (.unreadable input path fault)

/-- The program in a text. -/
def parseProgram? (text : String) : Option (List SourceUnit) := do
  (← Json.read? text).listOf? (SourceUnit.ofJson? true)

/-- The configuration in a text. -/
def parseConfig? (text : String) : Option Config := do
  (Config.ofJson (← Json.read? text)).toOption

/-- The program in a file. -/
def loadProgram (directory : Directory) (path : String) : Except Failure (List SourceUnit) := do
  match parseProgram? (← readInput directory .program path) with
  | some units => .ok units
  | none => .error (.malformed .program path)

/-- The configuration in a file; the default one if there is no file. -/
def loadConfig (directory : Directory) : Option String → Except Failure Config
  | none => .ok {}
  | some path => do
    match parseConfig? (← readInput directory .config path) with
    | some config => .ok config
    | none => .error (.malformed .config path)

/-- The response to a check that gave a report. -/
def Report.response (r : Report) (format : OutputFormat) : Response :=
  let exitCode := if r.exceedsThreshold then 1 else 0
  match format with
  | .human =>
    { exitCode, output := r.metrics.summary ++ "\n", remarks := r.diagnostics.map Diagnostic.line }
  | .json => { exitCode, output := r.toJson.pretty ++ "\n" }

/-- Runs what was asked for. -/
def Invocation.execute (directory : Directory) : Invocation → Except Failure Response
  | version => .ok { output := versionText }
  | help => .ok { output := helpText }
  | rules => .ok { output := ruleList }
  | check program config format => do
    let units ← loadProgram directory program
    let config ← loadConfig directory config
    match config.resolve .standard with
    | .error error => .error (.badConfig error)
    | .ok policy => .ok ((Report.ofProgram policy units).response format)

/-- The files that a command may read. -/
def Invocation.files : Invocation → List String
  | check program config _ => program :: config.toList
  | rules | version | help => []

/-- Runs a command line. -/
def respond (directory : Directory) (args : List String) : Except Failure Response :=
  match Invocation.parse args with
  | .ok invocation => invocation.execute directory
  | .error error => .error (.usage error)

end EffectAudit
