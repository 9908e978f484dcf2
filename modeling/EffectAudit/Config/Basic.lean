import EffectAudit.Data.OrderedMap
import EffectAudit.Json.Decoder
import EffectAudit.Path.Basic
import EffectAudit.Vocabulary.Rule

/-!
# Configurations

A configuration as it is written: settings for rules by name, patterns of files that report nothing,
the severity from which on a run fails, and files that are fragments of one module.

## Main definitions

* `Config`, `RuleSettings`: configurations
* `Config.toJson`, `Config.ofJson`: their JSON form. Members are read in the order in which they
  stand, so that the first fault decides.
-/

namespace EffectAudit

/-- The settings of one rule. -/
structure RuleSettings where
  /-- The severity of its findings, if it is not the usual one. -/
  level : Option Severity := none
  enabled : Bool := true
  /-- Further parameters, sorted by name. -/
  params : List (String × Json) := []

/-- A configuration as it is written. -/
structure Config where
  /-- Settings by rule name. -/
  rules : OrderedMap String RuleSettings := ∅
  /-- Patterns of files that report nothing. -/
  exclude : List String := []
  /-- The severity from which on a run fails. -/
  threshold : Severity := .error
  /-- Files that together make up a module, by module name. -/
  fragments : OrderedMap String (List Path) := ∅

instance : Inhabited Config := ⟨{}⟩

namespace Config

/-- Why a value is not a configuration. -/
inductive Fault where
  /-- Something is of a wrong kind, missing or given twice. -/
  | malformed
  /-- A text that names no severity. -/
  | unknownSeverity (text : String)
  deriving DecidableEq

/-- The result of a reader that only knows of malformed values. -/
def orMalformed {α : Type} : Option α → Except Fault α
  | some a => .ok a
  | none => .error .malformed

/-- Reads a severity. -/
def readSeverity (j : Json) : Except Fault Severity := do
  let text ← orMalformed j.string?
  match Severity.ofText? text with
  | some s => return s
  | none => throw (.unknownSeverity text)

/-- Reads the fields of a record in the order in which they stand. Unknown fields are skipped, and a
field given twice is a fault, as is a position without a field. -/
def readFields {α : Type} (names : List String) (init : α)
    (read : α → String → Json → Except Fault α) : Json → Except Fault α
  | .object members => do
    let known := members.filter fun m => names.contains m.1
    let (value, _) ← known.foldlM (fun (value, seen) (key, j) => do
      if seen.contains key then throw .malformed
      return (← read value key j, key :: seen)) (init, ([] : List String))
    return value
  | .array items => do
    let value ← (names.zip items).foldlM (fun value (key, j) => read value key j) init
    if items.length ≤ names.length then return value else throw .malformed
  | _ => throw .malformed

/-- Reads a map; of entries with one key the last counts. -/
def readMap {α : Type} (read : Json → Except Fault α) : Json → Except Fault (OrderedMap String α)
  | .object members => do
    let entries ← members.mapM fun (key, j) => return (key, ← read j)
    return OrderedMap.ofList entries
  | _ => throw .malformed

/-- Reads parameters of a rule. -/
def readParams (j : Json) : Except Fault (List (String × Json)) :=
  match j.isReadable, j.canonical with
  | true, .object members => .ok members
  | _, _ => .error .malformed

/-- Reads the settings of a rule. -/
def readRule (j : Json) : Except Fault RuleSettings :=
  readFields ["level", "enabled", "params"] {} (fun settings field j =>
    match field with
    | "level" =>
      match j with
      | .null => return { settings with level := none }
      | j => return { settings with level := some (← readSeverity j) }
    | "enabled" => return { settings with enabled := ← orMalformed j.bool? }
    | _ => return { settings with params := ← readParams j }) j

/-- Reads a configuration. -/
def ofJson (j : Json) : Except Fault Config :=
  readFields ["rules", "exclude", "severityThreshold", "fragments"] {} (fun config field j =>
    match field with
    | "rules" => return { config with rules := ← readMap readRule j }
    | "exclude" => return { config with exclude := ← orMalformed (j.listOf? Json.string?) }
    | "severityThreshold" => return { config with threshold := ← readSeverity j }
    | _ =>
      let paths (j : Json) := orMalformed ((j.listOf? Json.string?).map (·.map Path.mk))
      return { config with fragments := ← readMap paths j }) j

/-- The JSON form of the settings of a rule. -/
def ruleJson (s : RuleSettings) : Json :=
  .object ((s.level.map fun l => ("level", Json.string l.name)).toList
    ++ [("enabled", .bool s.enabled), ("params", .object s.params)])

/-- The JSON form of a configuration. -/
def toJson (c : Config) : Json :=
  .object [("rules", .object (c.rules.entries.map fun (name, s) => (name, ruleJson s))),
    ("exclude", .strings c.exclude), ("severityThreshold", .string c.threshold.name),
    ("fragments",
      .object (c.fragments.entries.map fun (name, fs) => (name, .strings (fs.map Path.text))))]

end Config

end EffectAudit
