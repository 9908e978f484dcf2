import EffectAudit.Data.Digraph
import EffectAudit.Function.Binding

/-!
# Linked programs

The functions of a program with their bound bodies, and the graph of the calls between them. A
function without a body is known by its signature only.

## Main definitions

* `LinkedProgram`: signatures and bound bodies
* `LinkedProgram.callGraph`: which functions call which
* `LinkedProgram.callersOf`: everything that calls into given functions
* `LinkedProgram.groups`, `LinkedProgram.chooseGroups`: functions that call each other, and a choice
  of them
-/

namespace EffectAudit

/-- The functions of a program with their bound bodies. -/
structure LinkedProgram where
  registry : Registry
  symbols : SymbolTable
  bodies : OrderedMap FunctionRef BoundFunction

namespace LinkedProgram

/-- The functions of a symbol table with the given bodies. -/
def ofBodies (registry : Registry) (symbols : SymbolTable) (bodies : List BoundFunction) :
    LinkedProgram :=
  ⟨registry, symbols, OrderedMap.ofList (bodies.map fun b => (b.ref, b))⟩

/-- The bound body of a function. -/
def body? (p : LinkedProgram) (f : FunctionRef) : Option BoundFunction := p.bodies.get? f

/-- The signature of a function. -/
def signature? (p : LinkedProgram) (f : FunctionRef) : Option Signature := p.symbols.lookup? f

/-- The bound calls in the body of a function. -/
def sites (p : LinkedProgram) (f : FunctionRef) : List CallSite :=
  ((p.body? f).map (·.calls)).getD []

/-- The functions that a function calls and that are in the symbol table. -/
def callees (p : LinkedProgram) (f : FunctionRef) : List FunctionRef :=
  distinct ((((p.body? f).map (·.callees)).getD []).filter fun g => (p.signature? g).isSome)

/-- The graph of calls between functions. -/
def callGraph (p : LinkedProgram) : Digraph FunctionRef :=
  .ofSuccessors p.symbols.functions p.callees

/-- The given functions and all that call one of them, directly or through others. -/
def callersOf (p : LinkedProgram) (fs : List FunctionRef) : List FunctionRef :=
  p.callGraph.upstream fs

/-! ## Groups -/

/-- The groups of functions that call each other, callees first. -/
def groups (p : LinkedProgram) : List (List FunctionRef) := p.callGraph.components

/-- The place of the group of each function. -/
def groupIndex (groups : List (List FunctionRef)) : OrderedMap FunctionRef Nat :=
  .ofList (groups.zipIdx.flatMap fun e => e.1.map fun f => (f, e.2))

/-- The places of the groups of the given functions, in ascending order. -/
def groupPlaces (groups : List (List FunctionRef)) (fs : List FunctionRef) : List Nat :=
  dropRepeats (sorted (fs.filterMap (groupIndex groups).get?))

/-- The groups of the given functions, in the order of the groups. -/
def chooseGroups (groups : List (List FunctionRef)) (fs : List FunctionRef) :
    List (List FunctionRef) :=
  (groupPlaces groups fs).filterMap (groups[·]?)

/-- Whether a function is in a group with others or calls itself. -/
def isRecursiveIn (p : LinkedProgram) (groups : List (List FunctionRef)) (f : FunctionRef) : Bool :=
  (((groupIndex groups).get? f).bind (groups[·]?)).any (fun group => 1 < group.length)
    || f ∈ p.callGraph.successors f

end LinkedProgram

end EffectAudit
