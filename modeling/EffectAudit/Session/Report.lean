import EffectAudit.Config.Policy
import EffectAudit.Diagnostic.Basic

/-!
# Reports

What an analysis says about a program: its diagnostics, and numbers that sum them up.

## Main definitions

* `Metrics`, `Metrics.summary`: the numbers, and a line that shows them
* `Report`: what an analysis of a whole program says
* `Report.exceedsThreshold`: whether the program is to be refused
-/

namespace EffectAudit

/-- Numbers that sum up an analysis. -/
structure Metrics where
  errors : Nat := 0
  warnings : Nat := 0
  infos : Nat := 0
  /-- The functions whose bodies were bound. -/
  functions : Nat := 0
  /-- How many of these are pure. -/
  pureFunctions : Nat := 0
  deriving DecidableEq

namespace Metrics

/-- The number of all diagnostics. -/
def total (m : Metrics) : Nat := m.errors + m.warnings + m.infos

/-- A number of things, such as `1 error` or `2 errors`. -/
def counted (n : Nat) (word : String) : String :=
  toString n ++ " " ++ word ++ (if n = 1 then "" else "s")

/-- The numbers on one line, such as `2 errors, 1 warning, 0 infos in 14 functions (3 pure)`. -/
def summary (m : Metrics) : String :=
  counted m.errors "error" ++ ", " ++ counted m.warnings "warning" ++ ", "
    ++ counted m.infos "info" ++ " in " ++ counted m.functions "function"
    ++ " (" ++ toString m.pureFunctions ++ " pure)"

/-- The numbers for machines. -/
def toJson (m : Metrics) : Json :=
  .object [("totalIssues", .nat m.total), ("errors", .nat m.errors),
    ("warnings", .nat m.warnings), ("infos", .nat m.infos),
    ("functionsAnalyzed", .nat m.functions), ("pureFunctions", .nat m.pureFunctions)]

end Metrics

/-- What an analysis of a whole program says. -/
structure Report where
  /-- The diagnostics, by file in path order. -/
  diagnostics : List Diagnostic
  metrics : Metrics
  /-- The files that were not halted, dependencies first. -/
  order : List Path
  threshold : Severity
  deriving DecidableEq

namespace Report

/-- Whether a diagnostic is at least as severe as the threshold. -/
def exceedsThreshold (r : Report) : Bool :=
  r.diagnostics.any fun d => r.threshold.rank ≤ d.severity.rank

/-- The diagnostics of a file. -/
def diagnosticsOf (r : Report) (file : Path) : List Diagnostic :=
  r.diagnostics.filter fun d => d.location.file.key == file.key

/-- The report for machines. -/
def toJson (r : Report) : Json :=
  .object [("diagnostics", .array (r.diagnostics.map Diagnostic.toJson)),
    ("metrics", r.metrics.toJson), ("exceedsThreshold", .bool r.exceedsThreshold)]

end Report

end EffectAudit
