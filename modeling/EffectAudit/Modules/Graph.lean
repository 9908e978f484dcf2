import EffectAudit.Config.Policy
import EffectAudit.Modules.Cycle
import EffectAudit.Modules.Resolution
import EffectAudit.Modules.Schedule

/-!
# The module graph

Files depend on the files of the modules that they import. Files on an import cycle are halted, and
so is a file that exports a name which an earlier file of its module exports too; a halted file
keeps its signatures but is not verified. The files that are left are put into compilation order.

## Main definitions

* `ModuleGraph`, `ModuleGraph.build`: the graph of a program
* `ModuleGraph.order`: the files in compilation order, dependencies first
-/

namespace EffectAudit

/-- The dependencies among the files of a program. -/
structure ModuleGraph where
  table : ModuleTable
  resolutions : OrderedMap FileKey ImportResolution
  /-- The dependencies: by file in path order, by import in source order. -/
  edges : List ImportEdge
  /-- The import cycles that are reported; each ends with the file it starts with. -/
  cycles : List (List FileKey)
  /-- The files that are not verified: those on a cycle as they are listed, the others as they call
  themselves. -/
  halted : FileSet
  /-- The diagnostics about imports, cycles and duplicate modules, file by file. -/
  diagnostics : OrderedMap FileKey (List Diagnostic)
  /-- The files that are not halted, dependencies first. -/
  order : List FileKey

namespace ModuleGraph

/-! ## Dependencies -/

/-- The edges that the imports of a file make. -/
def edgesOf (t : ModuleTable) (importer : FileKey) (r : ImportResolution) : List ImportEdge :=
  r.imports.flatMap fun i =>
    ((t.filesOf i.moduleName).filter (· ≠ importer)).map fun target => ⟨importer, target, i.span⟩

/-- The graph of dependencies. -/
def digraph (p : Program) (edges : List ImportEdge) : Digraph FileKey :=
  .ofSuccessors p.keys (dependenciesIn edges)

/-- The place of the first import that makes a file depend on another. Of imports at one place it is
the last. -/
def edgeSpan (edges : List ImportEdge) (importer target : FileKey) : Span :=
  let spans := (edges.filter fun e => e.importer == importer && e.target == target).map (·.span)
  let before (a b : Span) : Bool := ((compare a.line b.line).then (compare a.column b.column)).isLE
  (spans.foldl (fun best s =>
    match best with
    | none => some s
    | some b => if before s b then some s else some b) none).getD .unset

/-! ## Duplicate modules -/

/-- The exported names of a module that have an owner, and the diagnostics so far. -/
structure Ownership where
  owners : List (String × Path) := []
  conflicts : List Diagnostic := []

/-- Takes an exported name into account: the first file to export it owns it, and another one
conflicts with the owner unless both are fragments of the module. -/
def Ownership.claim (policy : Policy) (moduleName : String) (u : SourceUnit) (o : Ownership)
    (e : Spanned String) : Ownership :=
  if !u.defines e.node then o
  else
    match o.owners.find? (·.1 == e.node) with
    | none => { o with owners := o.owners ++ [(e.node, u.path)] }
    | some (_, owner) =>
      if policy.areFragments moduleName owner.key u.path.key then o
      else
        let d := (Finding.duplicateModule moduleName e.node owner).report u.path e.span
        { o with conflicts := o.conflicts ++ [d] }

/-- The conflicts in the files of one declared module, in path order: each file that has some, with
its diagnostics. -/
def conflictsIn (policy : Policy) (moduleName : String) (halted : List FileKey)
    (units : List (FileKey × SourceUnit)) : List (FileKey × List Diagnostic) :=
  let live := units.filter (·.1 ∉ halted)
  (live.foldl (fun (owners, out) (key, u) =>
    let o := u.exports.foldl (Ownership.claim policy moduleName u) { owners }
    (o.owners, if o.conflicts.isEmpty then out else out ++ [(key, o.conflicts)]))
    (([] : List (String × Path)), ([] : List (FileKey × List Diagnostic)))).2

/-- The names of the modules that some file declares, in order. -/
def declaredModules (p : Program) : List String :=
  dropRepeats (sorted (p.values.filterMap (·.unit.declaredModule?)))

/-- The conflicts in all modules that at least two files declare. -/
def conflicts (p : Program) (policy : Policy) (halted : List FileKey) :
    List (FileKey × List Diagnostic) :=
  (declaredModules p).flatMap fun name =>
    let units := (p.entries.filter fun e => e.2.unit.declaredModule? == some name).map fun e =>
      (e.1, e.2.unit)
    if units.length < 2 then [] else conflictsIn policy name halted units

/-! ## The graph of a program -/

/-- Adds diagnostics of a file behind those it has. -/
def addDiagnostics (m : OrderedMap FileKey (List Diagnostic)) (key : FileKey)
    (ds : List Diagnostic) : OrderedMap FileKey (List Diagnostic) :=
  if ds.isEmpty then m else m.insert key ((m.get? key).getD [] ++ ds)

/-- The path under which a file is listed. -/
def listedPath (p : Program) (key : FileKey) : Path := ((p.get? key).map (·.path)).getD ⟨""⟩

/-- The diagnostic of a cycle, given without its last file: on the import that closes it. -/
def cycleDiagnostic (p : Program) (edges : List ImportEdge) (cycle : List FileKey) :
    FileKey × Diagnostic :=
  let first := cycle.headD []
  let last := cycle.getLastD []
  let finding := Finding.circularDependency ((cycle ++ [first]).map (listedPath p))
  (last, finding.report (listedPath p last) (edgeSpan edges last first))

/-- The module graph of a program. -/
def build (p : Program) (policy : Policy) : ModuleGraph :=
  let table := ModuleTable.ofProgram p
  let resolved := p.map fun _ f => table.resolveFile f
  let edges := resolved.entries.flatMap fun (key, r, _) => edgesOf table key r
  let g := digraph p edges
  let cycles := Cycle.all g
  let onCycle := Cycle.files g
  let conflicts := conflicts p policy onCycle
  let isHalted (key : FileKey) : Bool := key ∈ onCycle ∨ key ∈ conflicts.map (·.1)
  let found := (resolved.entries.map fun (key, _, ds) => (key, ds))
    ++ (cycles.map fun c => ((cycleDiagnostic p edges c).1, [(cycleDiagnostic p edges c).2]))
    ++ conflicts
  { table
    resolutions := resolved.map fun _ r => r.1
    edges
    cycles := cycles.map fun c => c ++ c.take 1
    halted := (p.filter fun key _ => isHalted key).map fun key f =>
      if key ∈ onCycle then f.path else f.unit.path
    diagnostics := found.foldl (fun m (key, ds) => addDiagnostics m key ds) ∅
    order := (Schedule.start edges (fun key => !isHalted key) p.keys).list edges }

instance : Inhabited ModuleGraph := ⟨build ∅ {}⟩

/-! ## Questions about a graph -/

/-- The module of a file. -/
def moduleOf? (g : ModuleGraph) (key : FileKey) : Option String := g.table.moduleOf? key

/-- The files of a module, in path order. -/
def filesOf (g : ModuleGraph) (moduleName : String) : List FileKey := g.table.filesOf moduleName

/-- Whether there is a module of the given name. -/
def hasModule (g : ModuleGraph) (moduleName : String) : Bool :=
  g.table.modules.contains moduleName

/-- What has become of the imports of a file. -/
def resolution? (g : ModuleGraph) (key : FileKey) : Option ImportResolution :=
  g.resolutions.get? key

/-- Whether a file is halted. -/
def isHalted (g : ModuleGraph) (key : FileKey) : Bool := g.halted.contains key

/-- The diagnostics of a file. -/
def diagnosticsOf (g : ModuleGraph) (key : FileKey) : List Diagnostic :=
  (g.diagnostics.get? key).getD []

/-- The files that import a module or tried to, in path order. -/
def importersOf (g : ModuleGraph) (moduleName : String) : List FileKey :=
  (g.resolutions.entries.filter fun e => e.2.mentions moduleName).map (·.1)

/-- The files that a file depends on, in path order. -/
def dependencies (g : ModuleGraph) (key : FileKey) : List FileKey := dependenciesIn g.edges key

end ModuleGraph

end EffectAudit
