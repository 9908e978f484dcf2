import EffectAudit.Function.Scope
import EffectAudit.Syntax.Occurrence

/-!
# Bound functions

Binding decides for every call of a function what it calls, and checks the tokens of the `uses`
clause. A function of which a call could not be bound, or a token is unknown, is poisoned: what
could be bound is kept, and nothing further is reported about the function.

## Main definitions

* `CallSite`, `BoundFunction`, `FileBinding`: the bound calls of a function and of a file
* `Scope.bindFunction`, `Scope.bindFile`: binding a function and a file
-/

namespace EffectAudit

/-- A call that is bound. -/
structure CallSite where
  callee : Callee
  span : Span
  deriving DecidableEq

/-- The bound calls of a function, in source order. -/
structure BoundFunction where
  ref : FunctionRef
  calls : List CallSite := []
  /-- Whether a call is missing or a declared effect is unknown. -/
  isPoisoned : Bool := false
  deriving DecidableEq

namespace BoundFunction

/-- What the call at a place calls. -/
def calleeAt? (f : BoundFunction) (span : Span) : Option Callee :=
  (f.calls.find? (·.span == span)).map (·.callee)

/-- The functions that are called, in source order. -/
def callees (f : BoundFunction) : List FunctionRef :=
  f.calls.filterMap fun c =>
    match c.callee with
    | .function ref => some ref
    | .operation _ => none

end BoundFunction

/-- The bound functions of a file, and what was found while binding them. -/
structure FileBinding where
  functions : List BoundFunction := []
  diagnostics : List Diagnostic := []
  deriving DecidableEq

namespace FileBinding

/-- A binding followed by another one. -/
def append (a b : FileBinding) : FileBinding :=
  ⟨a.functions ++ b.functions, a.diagnostics ++ b.diagnostics⟩

instance : Append FileBinding := ⟨append⟩

/-- The bound function of the given identity. -/
def function? (b : FileBinding) (ref : FunctionRef) : Option BoundFunction :=
  b.functions.find? (·.ref == ref)

end FileBinding

namespace Scope

/-- The callee of a call, if it could be bound. -/
def site? (s : Scope) (call : Spanned CallPath) : Option CallSite :=
  match s.resolve call.node with
  | .bound callee => some ⟨callee, call.span⟩
  | _ => none

/-- The report on a call, if there is one. -/
def complaint? (s : Scope) (path : Path) (call : Spanned CallPath) : Option Diagnostic :=
  match s.resolve call.node with
  | .refused finding => some (finding.report path call.span)
  | _ => none

/-- The tokens of a `uses` clause that are not in the vocabulary. -/
def unknownTokens (s : Scope) (d : FunctionDecl) : List (Spanned String) :=
  d.effects.filter fun t => (s.registry.effect? t.node).isNone

/-- Binds the calls of a function. -/
def bindFunction (s : Scope) (path : Path) (d : FunctionDecl) : FileBinding :=
  let calls := Stmt.calls d.body
  let unknown := s.unknownTokens d
  { functions :=
      [{ ref := ⟨s.file, d.name⟩
         calls := calls.filterMap s.site?
         isPoisoned := !unknown.isEmpty || calls.any fun c => (s.site? c).isNone }]
    diagnostics := unknown.map (fun t => (Finding.unknownEffect t.node).report path t.span)
      ++ calls.filterMap (s.complaint? path) }

/-- Binds declarations, where functions with the given names are bound already. A function that is
not in the symbol table is passed over; one that is declared again is reported and ignored. -/
def bindDeclarations (s : Scope) (path : Path) (names : List String) :
    List (Spanned FunctionDecl) → FileBinding
  | [] => {}
  | d :: ds =>
    match s.own? d.node.name with
    | none => bindDeclarations s path names ds
    | some signature =>
      if d.node.name ∈ names then
        let finding := Finding.duplicateFunction d.node.name signature.span
        { diagnostics := [finding.report path d.span] } ++ bindDeclarations s path names ds
      else s.bindFunction path d.node ++ bindDeclarations s path (d.node.name :: names) ds

/-- Binds the functions of a file. -/
def bindFile (registry : Registry) (symbols : SymbolTable) (graph : ModuleGraph)
    (u : SourceUnit) : FileBinding :=
  bindDeclarations ⟨registry, symbols, graph, u.path.key⟩ u.path [] u.functions

end Scope

end EffectAudit
