import EffectAudit.Data.Sorting
import EffectAudit.Diagnostic.Finding
import EffectAudit.Json.Value
import EffectAudit.Syntax.Line

/-!
# Diagnostics

A diagnostic is the report of a finding at a place in a file.

## Main definitions

* `Diagnostic`, `Finding.report`: the record of a finding at a place
* `Diagnostic.line`: the report on one line
* `Diagnostic.toJson`: the report for machines
* `Diagnostic.atMost`: the order in which the diagnostics of a file are listed
-/

namespace EffectAudit

/-- A place in a file, with the text of its line where that is known. -/
structure Location where
  file : Path
  span : Span
  snippet : Option String := none
  deriving DecidableEq

/-- The report of a finding. -/
structure Diagnostic where
  rule : Rule
  severity : Severity
  message : String
  location : Location
  fix? : Option String := none
  notes : List String := []
  deriving DecidableEq

/-- The report of a finding at a place in a file. -/
def Finding.report (f : Finding) (file : Path) (span : Span) : Diagnostic where
  rule := f.rule
  severity := f.rule.defaultSeverity
  message := f.message
  location := { file, span }
  fix? := f.fix?
  notes := f.notes

namespace Diagnostic

/-- The diagnostic with the text of its line, where the file has a text. -/
def withSnippet (d : Diagnostic) (u : SourceUnit) : Diagnostic :=
  { d with location.snippet := d.location.snippet <|> u.lineText? d.location.span.line }

/-- The report on one line, such as `error[UnusedResultError] f.cdz:3:12: message`. -/
def line (d : Diagnostic) : String :=
  s!"{d.severity.name}[{d.rule.name}] {d.location.file.text}:{d.location.span.line.toNat}:" ++
    s!"{d.location.span.column.toNat}: {d.message}"

/-- The order of listing: by line, column, rule and message. -/
def order (a b : Diagnostic) : Ordering :=
  (compare a.location.span.line b.location.span.line)
    |>.then (compare a.location.span.column b.location.span.column)
    |>.then (compare a.rule.rank b.rule.rank)
    |>.then (compare a.message b.message)

/-- Whether `a` may be listed before `b`. -/
def atMost (a b : Diagnostic) : Bool := (order a b).isLE

/-- A member of an object that is left out where there is no value. -/
def member? (key : String) (value : Option Json) : List (String × Json) :=
  (value.map fun v => (key, v)).toList

/-- The place for machines. -/
def locationJson (l : Location) : Json :=
  .object ([("file", .string l.file.text), ("line", .nat l.span.line.toNat),
    ("column", .nat l.span.column.toNat), ("length", .nat l.span.length.toNat)]
    ++ member? "snippet" (l.snippet.map .string))

/-- The report for machines. -/
def toJson (d : Diagnostic) : Json :=
  .object ([("ruleId", .string d.rule.name), ("severity", .string d.severity.name),
    ("message", .string d.message), ("location", locationJson d.location),
    ("category", .string d.rule.category.name)]
    ++ member? "fixSuggestion" (d.fix?.map .string)
    ++ member? "notes" (if d.notes.isEmpty then none else some (.strings d.notes)))

end Diagnostic

end EffectAudit
