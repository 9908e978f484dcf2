import EffectAudit.Diagnostic.Basic
import EffectAudit.Modules.Program

/-!
# Resolving imports

An import names a module, or a file by its path from the importing file. It resolves to a module of
the program; of the names it asks for, those that the module exports are accepted. What does not
resolve is reported and remembered, so that calls through it are not reported again.

## Main definitions

* `ModuleTable`: which files make up which modules
* `ResolvedImport`, `FailedImport`, `ImportResolution`: what has become of the imports of a file
* `ModuleTable.resolveImport`: what becomes of one import
-/

namespace EffectAudit

/-! ## Modules -/

/-- The modules of a program. -/
structure ModuleTable where
  program : Program
  /-- The files of each module that can be imported, in path order. -/
  modules : OrderedMap String (List FileKey)

namespace ModuleTable

/-- Adds a file at the end of the list of its module. -/
def addFile (m : OrderedMap String (List FileKey)) (name : String) (key : FileKey) :
    OrderedMap String (List FileKey) :=
  m.insert name ((m.get? name).getD [] ++ [key])

/-- The files of a program that pass a test, by module name. -/
def group (p : Program) (test : SourceFile → Bool) : OrderedMap String (List FileKey) :=
  (p.entries.filter fun e => test e.2).foldl (fun m e => addFile m e.2.moduleName e.1) ∅

/-- The modules of a program. A declared name hides the files that only imply it. -/
def ofProgram (p : Program) : ModuleTable where
  program := p
  modules :=
    let declared := group p fun f => f.unit.declaredModule?.isSome
    let implied := group p fun f => f.unit.declaredModule?.isNone
    implied.entries.foldl
      (fun m e => if m.contains e.1 then m else m.insert e.1 e.2) declared

/-- The files of a module; none if there is no such module. -/
def filesOf (t : ModuleTable) (name : String) : List FileKey := (t.modules.get? name).getD []

/-- The module of a file. -/
def moduleOf? (t : ModuleTable) (key : FileKey) : Option String :=
  (t.program.get? key).map (·.moduleName)

/-- Whether some file of the module lists a name for export. -/
def exportsName (t : ModuleTable) (moduleName name : String) : Bool :=
  t.program.values.any fun f => f.moduleName == moduleName && f.unit.exportsName name

end ModuleTable

/-! ## Outcomes -/

/-- A name that an import brings into scope. -/
structure ImportedName where
  name : String
  /-- The name under which it is known in the importing file. -/
  localName : String
  span : Span
  deriving DecidableEq

/-- What a resolved import brings into scope. -/
inductive ImportKind where
  | module
  | wildcard
  | names (names : List ImportedName)
  deriving DecidableEq

/-- An import that resolved to a module. -/
structure ResolvedImport where
  moduleName : String
  /-- A qualifier for the module beside its name. -/
  qualifier : Option String
  kind : ImportKind
  span : Span
  deriving DecidableEq

/-- What an import that failed would have brought into scope. -/
structure FailedImport where
  target : String
  qualifiers : List String := []
  names : List String := []
  wildcard : Bool := false
  deriving DecidableEq

/-- Whether a name may have come through a failed import. -/
def FailedImport.hides (f : FailedImport) (name : String) : Bool :=
  f.wildcard || f.names.contains name

/-- What has become of the imports of a file. -/
structure ImportResolution where
  imports : List ResolvedImport := []
  failed : List FailedImport := []
  deriving DecidableEq

/-- Whether an import names a module, resolved or not. -/
def ImportResolution.mentions (r : ImportResolution) (moduleName : String) : Bool :=
  r.imports.any (·.moduleName == moduleName) || r.failed.any (·.target == moduleName)

/-- What becomes of one import. -/
structure ImportOutcome where
  resolved : Option ResolvedImport := none
  failed : List FailedImport := []
  diagnostics : List Diagnostic := []

/-! ## Resolution -/

/-- The extension of source files, which an import may leave out. -/
def sourceExtension : String := "cdz"

/-- The files that an import path may name, in order of preference. -/
def importCandidates (importer : FileKey) (target : String) : List FileKey :=
  let base := FileKey.join ((FileKey.parent? importer).getD []) (Path.key ⟨target⟩)
  FileKey.normalize base ::
    (if (FileKey.extension? base).isNone then
      [FileKey.normalize (FileKey.addExtension base sourceExtension)]
    else [])

/-- What an import that resolves to nothing would have brought into scope. -/
def ImportDecl.asFailed (d : ImportDecl) : FailedImport :=
  let (target, own) := match d.target with
    | .module name => (name, some name)
    | .file path => (path, FileKey.stem? (Path.key ⟨path⟩))
  let (names, wildcard) := match d.items with
    | .module => ([], false)
    | .wildcard => ([], true)
    | .names items => (items.map (·.node.localName), false)
  { target, qualifiers := d.rename.toList ++ own.toList, names, wildcard }

namespace ModuleTable

/-- The file that an import path names. Of files with one normalized path it is the last. -/
def findFile? (t : ModuleTable) (importer : FileKey) (target : String) : Option FileKey :=
  (importCandidates importer target).findSome? fun c =>
    t.program.keys.reverse.find? fun key => FileKey.normalize key == c

/-- The module that an import names, and the qualifier it gets beside the name of the module. -/
def findTarget? (t : ModuleTable) (importer : FileKey) (d : ImportDecl) :
    Option (String × Option String) :=
  match d.target with
  | .module name => if t.modules.contains name then some (name, d.rename) else none
  | .file target => do
    let key ← t.findFile? importer target
    let name ← t.moduleOf? key
    return (name, d.rename <|> FileKey.stem? key)

/-- What becomes of an import of names from a module that exists. -/
def importNames (t : ModuleTable) (importer : Path) (moduleName : String)
    (items : List (Spanned ImportItem)) : ImportKind × List FailedImport × List Diagnostic :=
  let accepted := items.filter fun i => t.exportsName moduleName i.node.name
  let refused := items.filter fun i => !t.exportsName moduleName i.node.name
  let names := accepted.map fun i => ⟨i.node.name, i.node.localName, i.span⟩
  let failed : FailedImport :=
    { target := moduleName, names := refused.map (·.node.localName) }
  (.names names, if refused.isEmpty then [] else [failed],
    refused.map fun i => (Finding.unexportedImport moduleName i.node.name).report importer i.span)

/-- What becomes of one import. -/
def resolveImport (t : ModuleTable) (importer : Path) (d : Spanned ImportDecl) : ImportOutcome :=
  match t.findTarget? importer.key d.node with
  | none =>
    { failed := [d.node.asFailed]
      diagnostics := [(Finding.unresolvedModule d.node.target.text).report importer d.span] }
  | some (moduleName, qualifier) =>
    let (kind, failed, diagnostics) := match d.node.items with
      | .module => (.module, [], [])
      | .wildcard => (.wildcard, [], [])
      | .names items => t.importNames importer moduleName items
    { resolved := some ⟨moduleName, qualifier, kind, d.span⟩, failed, diagnostics }

/-- What becomes of the imports of a file. -/
def resolveFile (t : ModuleTable) (f : SourceFile) : ImportResolution × List Diagnostic :=
  let outcomes := f.unit.imports.map (t.resolveImport f.path)
  ({ imports := outcomes.filterMap (·.resolved), failed := outcomes.flatMap (·.failed) },
    outcomes.flatMap (·.diagnostics))

end ModuleTable

end EffectAudit
