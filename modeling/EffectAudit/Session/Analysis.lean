import EffectAudit.Session.State

/-!
# Analysis

A program is analyzed as a whole, or again after an edit of one file. The second finds anew only
what the edit can have changed: it binds the files that see the module of the edited file or whose
imports resolve differently, checks the functions that come to call a function of these, and
publishes the files where a diagnostic can be different.

## Main definitions

* `Session.start`: the session without a program
* `Session.analyze`: analyzes a program
* `Session.change`: analyzes a program after an edit
* `Report.ofProgram`: the report on a program
-/

namespace EffectAudit

/-- What an analysis after an edit says: all diagnostics of the files that were published again. -/
structure Delta where
  files : List (Path × List Diagnostic)
  metrics : Metrics
  deriving DecidableEq

namespace Session

/-- The session without a program. -/
def start (registry : Registry) (policy : Policy) : Session := { registry, policy }

/-! ## Whole programs -/

/-- The session with a program of which nothing is known but its modules and its symbols. The
numbers of functions stay as they are. -/
def load (s : Session) (units : List SourceUnit) : Session :=
  let program := Program.ofUnits units
  let graph := ModuleGraph.build program s.policy
  { start s.registry s.policy with
    program
    graph
    symbols := s.symbols.clear.collectAll s.registry graph }

/-- Analyzes a program, whatever the session held before. -/
def analyze (s : Session) (units : List SourceUnit) : Session :=
  let s := s.load units
  let files := s.program.files
  let s := s.bind files
  (s.verify s.symbols.functions files).publish files

/-- The report on the program of a session. -/
def report (s : Session) : Report where
  diagnostics := s.diagnostics
  metrics := s.metrics
  order := s.order
  threshold := s.policy.threshold

/-! ## Edits -/

/-- The session with one file replaced, where nothing but modules and symbols is found anew. What
was known of functions that are gone is dropped. -/
def replaceFile (s : Session) (path : Path) (unit : SourceUnit) : Session :=
  let unit := { unit with path }
  let program := s.program.update path unit
  let graph := ModuleGraph.build program s.policy
  let symbols := s.symbols.collect s.registry ((graph.moduleOf? path.key).getD "") unit
  let gone := (s.symbols.functionsIn path.key).filter (· ∉ symbols.functionsIn path.key)
  { s with
    program
    graph
    symbols
    summaries := s.summaries.filter fun f _ => f ∉ gone
    effectFaults := s.effectFaults.filter fun f _ => f ∉ gone }

/-- The files that are part of a module or import it. -/
def filesSeeing (s : Session) (moduleName : String) : List Path :=
  (s.graph.filesOf moduleName ++ s.graph.importersOf moduleName).map
    (ModuleGraph.listedPath s.program)

/-- The files that pass a test, as they are listed. -/
def filesWhere (s : Session) (test : FileKey → Bool) : List Path :=
  (s.program.entries.filter fun e => test e.1).map (·.2.path)

/-- The files to bind again after an edit, from the session before to the session after: the edited
file, those that see its old or new module, and those whose imports or whose state have changed. -/
def toBind (before after : Session) (path : Path) : FileSet :=
  let modules :=
    (after.graph.moduleOf? path.key).getD "" :: (before.graph.moduleOf? path.key).toList
  let changed (key : FileKey) : Bool :=
    before.graph.resolution? key ≠ after.graph.resolution? key
      || before.graph.isHalted key ≠ after.graph.isHalted key
  FileSet.addAll ∅ ([path]
    ++ modules.flatMap (fun m => before.filesSeeing m ++ after.filesSeeing m)
    ++ after.filesWhere changed)

/-- The functions that call into the given files. -/
def affected (s : Session) (files : FileSet) : List FunctionRef :=
  s.linked.callersOf (files.keys.flatMap s.symbols.functionsIn)

/-- The files whose results to check again after an edit: all of them if a conversion of errors has
changed, and else those that are bound again. -/
def toDischarge (before after : Session) (path : Path) (bound : FileSet) : FileSet :=
  if after.symbols.conversionSet path.key ≠ before.symbols.conversionSet path.key then
    after.program.files
  else bound

/-- The files to publish again after an edit: those that were checked, those of the functions that
were checked, and those with other diagnostics about modules. -/
def toPublish (before after : Session) (bound discharged : FileSet) (fs : List FunctionRef) :
    FileSet :=
  let changed (key : FileKey) : Bool :=
    before.graph.diagnosticsOf key ≠ after.graph.diagnosticsOf key
  ((bound.addAll discharged.values).addAll
    (fs.filterMap fun f => (after.symbols.lookup? f).map (·.path))).addAll
    (after.filesWhere changed)

/-- Analyzes the program again after an edit of one file. -/
def change (s : Session) (path : Path) (unit : SourceUnit) : Session × Delta :=
  let after := s.replaceFile path unit
  let bound := s.toBind after path
  let after := after.bind bound
  let fs := after.affected bound
  let discharged := s.toDischarge after path bound
  let after := after.verify fs discharged
  let files := s.toPublish after bound discharged fs
  let after := after.publish files
  let shown := files.entries.filterMap fun e =>
    (after.published.get? e.1).map fun ds => (e.2, ds)
  (after, ⟨shown, after.metrics⟩)

end Session

/-- The report on a program. -/
def Report.ofProgram (policy : Policy) (units : List SourceUnit) : Report :=
  ((Session.start .standard policy).analyze units).report

end EffectAudit
