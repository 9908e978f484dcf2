import EffectAudit.Effects.Verdict
import EffectAudit.Results.Discharge
import EffectAudit.Session.Report

/-!
# Sessions

A session holds a program together with everything that has been found out about it, so that after
an edit only part of that has to be found out again. This module has the steps of an analysis; each
works on the part of the program that it is given and leaves the rest as it is.

## Main definitions

* `Session`: a program and what is known about it
* `Session.bind`: binds files
* `Session.verify`: checks the effects of functions and the results in files
* `Session.publish`: puts together the diagnostics of files
* `Session.metrics`: the numbers that sum up what is published
-/

namespace EffectAudit

/-- A program and what is known about it. -/
structure Session where
  registry : Registry
  policy : Policy
  program : Program := ∅
  graph : ModuleGraph := .build ∅ policy
  symbols : SymbolTable := ∅
  /-- The bindings of files that are not halted, each with the path by which the file was first
  bound. -/
  bindings : OrderedMap FileKey (Path × FileBinding) := ∅
  summaries : LinkedProgram.Summaries := ∅
  /-- The faults in declared effects, of functions that have some. -/
  effectFaults : OrderedMap FunctionRef (List Diagnostic) := ∅
  discharge : OrderedMap FileKey FileDischarge := ∅
  /-- The diagnostics of each file as they are shown. -/
  published : OrderedMap FileKey (List Diagnostic) := ∅

namespace Session

/-! ## Binding -/

/-- The binding of a file. -/
def binding? (s : Session) (key : FileKey) : Option FileBinding := (s.bindings.get? key).map (·.2)

/-- The session without a binding of a file. -/
def unbindFile (s : Session) (key : FileKey) : Session :=
  { s with bindings := s.bindings.erase key, discharge := s.discharge.erase key }

/-- Binds a file anew, unless it is halted. -/
def bindFile (s : Session) (key : FileKey) (path : Path) : Session :=
  match s.program.unit? key with
  | none => s.unbindFile key
  | some u =>
    if s.graph.isHalted key then s.unbindFile key
    else
      let listed := ((s.bindings.get? key).map (·.1)).getD path
      let binding := Scope.bindFile s.registry s.symbols s.graph u
      { s with bindings := s.bindings.insert key (listed, binding) }

/-- Binds files anew. -/
def bind (s : Session) (files : FileSet) : Session :=
  files.entries.foldl (fun s e => s.bindFile e.1 e.2) s

/-- The functions of the program with the bodies that are bound. -/
def linked (s : Session) : LinkedProgram :=
  .ofBodies s.registry s.symbols (s.bindings.values.flatMap fun b => b.2.functions)

/-! ## Verification -/

/-- The summaries with those of the given functions found anew. -/
def refreshSummaries (s : Session) (p : LinkedProgram) (fs : List FunctionRef) :
    LinkedProgram.Summaries :=
  let kept := s.summaries.filter fun f _ => f ∉ fs
  kept.extend (p.summarize kept (LinkedProgram.chooseGroups p.groups fs))

/-- The faults in the effects of a function, unless its file is excluded. -/
def faultsOf (s : Session) (p : LinkedProgram) (summaries : LinkedProgram.Summaries)
    (f : FunctionRef) : List Diagnostic :=
  match s.symbols.lookup? f with
  | none => []
  | some signature =>
    if s.policy.isExcluded signature.path then []
    else p.effectFaults summaries s.policy.ignored f

/-- The faults in effects with those of the given functions found anew. -/
def refreshFaults (s : Session) (p : LinkedProgram) (summaries : LinkedProgram.Summaries)
    (fs : List FunctionRef) : OrderedMap FunctionRef (List Diagnostic) :=
  fs.foldl
    (fun m f =>
      let faults := s.faultsOf p summaries f
      if faults.isEmpty then m else m.insert f faults)
    (s.effectFaults.filter fun f _ => f ∉ fs)

/-- The results of a file found anew, unless the file is excluded or not bound. -/
def dischargeFile (s : Session) (p : LinkedProgram) (m : OrderedMap FileKey FileDischarge)
    (key : FileKey) (path : Path) : OrderedMap FileKey FileDischarge :=
  if s.policy.isExcluded path then m
  else
    match s.program.unit? key, s.binding? key with
    | some u, some b => m.insert key (p.fileDischarge b u)
    | _, _ => m

/-- Checks the effects of the given functions and the results in the given files anew. -/
def verify (s : Session) (fs : List FunctionRef) (files : FileSet) : Session :=
  let p := s.linked
  let summaries := s.refreshSummaries p fs
  { s with
    summaries
    effectFaults := s.refreshFaults p summaries fs
    discharge := files.entries.foldl (fun m e => s.dischargeFile p m e.1 e.2) s.discharge }

/-! ## Publication -/

/-- What is known to be wrong in a file, in no particular order. -/
def found (s : Session) (key : FileKey) : List Diagnostic :=
  s.graph.diagnosticsOf key
    ++ ((s.binding? key).map (·.diagnostics)).getD []
    ++ (s.symbols.functionsIn key).flatMap (fun f => (s.effectFaults.get? f).getD [])
    ++ ((s.discharge.get? key).map (·.diagnostics)).getD []

/-- A diagnostic as it is shown. -/
def present (policy : Policy) (u : SourceUnit) (d : Diagnostic) : Diagnostic :=
  { d with severity := policy.severityFor d.rule }.withSnippet u

/-- The diagnostics of a file as they are shown: in order, each once, and only those of rules that
are enabled. -/
def shownDiagnostics (s : Session) (key : FileKey) (u : SourceUnit) : List Diagnostic :=
  let listed := dropRepeats (sortBy Diagnostic.atMost (s.found key))
  (listed.filter fun d => s.policy.isEnabled d.rule).map (present s.policy u)

/-- Publishes the diagnostics of a file; an excluded file has none. -/
def publishFile (s : Session) (key : FileKey) (path : Path) : Session :=
  match s.program.unit? key with
  | none => { s with published := s.published.erase key }
  | some u =>
    let shown := if s.policy.isExcluded path then [] else s.shownDiagnostics key u
    { s with published := s.published.insert key shown }

/-- Publishes the diagnostics of files. -/
def publish (s : Session) (files : FileSet) : Session :=
  files.entries.foldl (fun s e => s.publishFile e.1 e.2) s

/-! ## What is known -/

/-- All diagnostics that are published, by file. -/
def diagnostics (s : Session) : List Diagnostic := s.published.values.flatten

/-- The diagnostics of a file that are published. -/
def diagnosticsOf (s : Session) (key : FileKey) : List Diagnostic :=
  (s.published.get? key).getD []

/-- The calls in a file that return results. -/
def resultCalls (s : Session) (key : FileKey) : List ResultCall :=
  ((s.discharge.get? key).map (·.calls)).getD []

/-- The effect summary of a function. -/
def summary? (s : Session) (f : FunctionRef) : Option EffectSummary :=
  (s.symbols.lookup? f).bind fun _ => s.summaries.get? f

/-- The files that are not halted as they are listed, dependencies first. -/
def order (s : Session) : List Path := s.graph.order.map (ModuleGraph.listedPath s.program)

/-- The bound functions of files that are not excluded. -/
def analyzedFunctions (s : Session) : List FunctionRef :=
  (s.bindings.values.filter fun b => !s.policy.isExcluded b.1).flatMap fun b =>
    b.2.functions.map (·.ref)

/-- The numbers that sum up what is published. -/
def metrics (s : Session) : Metrics :=
  let count (severity : Severity) : Nat := s.diagnostics.countP (·.severity == severity)
  let functions := s.analyzedFunctions
  { errors := count .error
    warnings := count .warning
    infos := count .info
    functions := functions.length
    pureFunctions := functions.countP fun f =>
      ((s.symbols.lookup? f).map (·.isPure)).getD false }

end Session

end EffectAudit
