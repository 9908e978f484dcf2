import EffectAudit.Function.SymbolTable
import EffectAudit.Modules.Graph

/-!
# Scopes

What a call in a file can mean. An unqualified name is looked for in the file itself, in the rest of
its module and among its imports; the first of these levels that has a function of the name decides,
and it has to have only one. A qualified name is looked for in the module that the qualifier stands
for. Names that no function claims may be builtin operations.

## Main definitions

* `SymbolTable.collectAll`: the symbols of a program
* `Callee`, `CallOutcome`: what becomes of a call
* `Scope`: what is visible in a file
* `Scope.resolve`: what becomes of a call in a file
-/

namespace EffectAudit

/-- What a call calls. -/
inductive Callee where
  | function (ref : FunctionRef)
  | operation (op : Operation)
  deriving DecidableEq

/-- What becomes of a call. -/
inductive CallOutcome where
  | bound (callee : Callee)
  /-- The call goes through a failed import, which is reported already. -/
  | skipped
  | refused (finding : Finding)
  deriving DecidableEq

/-- The table with what all files of a program declare, in place of what they declared before. -/
def SymbolTable.collectAll (t : SymbolTable) (registry : Registry) (graph : ModuleGraph) :
    SymbolTable :=
  graph.table.program.entries.foldl
    (fun t e => t.collect registry ((graph.moduleOf? e.1).getD "") e.2.unit) t

/-- What is visible in a file. -/
structure Scope where
  registry : Registry
  symbols : SymbolTable
  graph : ModuleGraph
  file : FileKey

namespace Scope

/-- The module of the file. -/
def moduleName (s : Scope) : String := (s.graph.moduleOf? s.file).getD ""

/-- What has become of the imports of the file. -/
def resolution (s : Scope) : ImportResolution := (s.graph.resolution? s.file).getD {}

/-! ## Candidates -/

/-- The function of the given name in the file itself. -/
def own? (s : Scope) (name : String) : Option Signature := s.symbols.lookup? ⟨s.file, name⟩

/-- The functions of the given name in the files of a module. -/
def defined (s : Scope) (moduleName name : String) : List Signature :=
  s.symbols.lookupIn (s.graph.filesOf moduleName) name

/-- The functions of the given name that a module exports. -/
def exported (s : Scope) (moduleName name : String) : List Signature :=
  (s.defined moduleName name).filter (·.isExported)

/-- The functions of the given name in the other files of the module. -/
def siblings (s : Scope) (name : String) : List Signature :=
  (s.defined s.moduleName name).filter fun f => f.path.key ≠ s.file

/-- The functions that an import makes known by the given name. -/
def broughtByName (s : Scope) (i : ResolvedImport) (name : String) : List Signature :=
  match i.kind with
  | .names names =>
    (names.filter (·.localName == name)).flatMap fun n => s.exported i.moduleName n.name
  | _ => []

/-- The functions of the given name that a wildcard import brings. -/
def broughtByWildcard (s : Scope) (i : ResolvedImport) (name : String) : List Signature :=
  match i.kind with
  | .wildcard => s.exported i.moduleName name
  | _ => []

/-- The functions that imports make known by the given name: those asked for by name first. -/
def imported (s : Scope) (name : String) : List Signature :=
  let imports := s.resolution.imports
  distinct ((imports.flatMap fun i => s.broughtByName i name)
    ++ imports.flatMap fun i => s.broughtByWildcard i name)

/-- The module that a qualifier stands for. Of imports that bring one qualifier the last counts. -/
def qualified? (s : Scope) (qualifier : String) : Option String :=
  (s.resolution.imports.reverse.find? fun i =>
    i.moduleName == qualifier || i.qualifier == some qualifier).map (·.moduleName)

/-! ## Resolution -/

/-- A candidate as an ambiguity report shows it. -/
def describe (f : Signature) : String := s!"`{f.qualifiedName}` ({f.path.text})"

/-- What the candidates of one level decide, if there are any. -/
def choose? (shown : String) : List Signature → Option CallOutcome
  | [] => none
  | [f] => some (.bound (.function f.ref))
  | candidates => some (.refused (.ambiguousReference shown (candidates.map describe)))

/-- The operation with the given spelling, or else a finding. -/
def operationOr (s : Scope) (shown : String) (otherwise : Finding) : CallOutcome :=
  match s.registry.operation? shown with
  | some op => .bound (.operation op)
  | none => .refused otherwise

/-- What becomes of a call of an unqualified name. -/
def resolveName (s : Scope) (name : String) : CallOutcome :=
  let levels := [(s.own? name).toList, s.siblings name, s.imported name]
  match levels.findSome? (choose? name) with
  | some outcome => outcome
  | none =>
    if s.resolution.failed.any (·.hides name) then .skipped
    else s.operationOr name (.unresolvedReference name)

/-- What becomes of a call of a name in a module of which only exported functions are visible. -/
def resolveExported (s : Scope) (moduleName name shown : String) : CallOutcome :=
  match choose? shown (s.exported moduleName name) with
  | some outcome => outcome
  | none =>
    if (s.defined moduleName name).isEmpty then
      s.operationOr shown (.missingInModule moduleName name)
    else .refused (.unexportedCall moduleName name)

/-- What becomes of a call of a qualified name. -/
def resolveQualified (s : Scope) (qualifier name : String) : CallOutcome :=
  let shown := qualifier ++ "." ++ name
  if qualifier = s.moduleName then
    let candidates := match s.own? name with
      | some f => [f]
      | none => s.defined s.moduleName name
    match choose? shown candidates with
    | some outcome => outcome
    | none => s.operationOr shown (.missingInModule s.moduleName name)
  else
    match s.qualified? qualifier with
    | some moduleName => s.resolveExported moduleName name shown
    | none =>
      if s.resolution.failed.any (·.qualifiers.contains qualifier) then .skipped
      else s.operationOr shown (.unknownQualifier qualifier name)

/-- What becomes of a call. -/
def resolve (s : Scope) (path : CallPath) : CallOutcome :=
  match path.qualifier with
  | none => s.resolveName path.name
  | some qualifier => s.resolveQualified qualifier path.name

end Scope

end EffectAudit
