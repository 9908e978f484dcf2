import EffectAudit.Function.Linked

/-!
# Handling of results

A call that returns a result has to be handled where it stands: propagated with `?`, or taken apart
by a branch that handles both outcomes. A `?` is right only in a function that returns a result
itself, with an error type that the propagated error converts to.

## Main definitions

* `Discharge`, `Discharge.ofUse`: what becomes of a result
* `ResultCall`: a call that returns a result, with what becomes of it
* `LinkedProgram.resultCall?`: whether an expression is such a call
* `LinkedProgram.propagationFault?`: what is wrong with a `?`
* `LinkedProgram.fileDischarge`: the results of a file and the faults in handling them
-/

namespace EffectAudit

/-- What becomes of a result. -/
inductive Discharge where
  | undischarged
  | propagated
  | matched
  deriving DecidableEq

/-- What becomes of a result that is put to the given use. -/
def Discharge.ofUse : Use → Discharge
  | .plain => undischarged
  | .propagated => propagated
  | .scrutinized coverage => if coverage.isFull then matched else undischarged

/-- The fault in the use of the result of a call, if it is not handled. -/
def Use.fault? (callee : String) : Use → Option Finding
  | .plain => some (.unusedResult callee)
  | .propagated => none
  | .scrutinized coverage =>
    if coverage.isFull then none
    else some (.partiallyHandledResult callee (if coverage.ok then "Err" else "Ok"))

/-- A call that returns a result. -/
structure ResultCall where
  function : FunctionRef
  /-- The callee as it is written. -/
  callee : String
  span : Span
  /-- The place of the innermost statement around the call. -/
  statement : Span
  state : Discharge
  deriving DecidableEq

/-- The results of the calls in a file, and the faults in handling them. -/
structure FileDischarge where
  calls : List ResultCall := []
  diagnostics : List Diagnostic := []
  deriving DecidableEq

/-- The type of an expression, as far as it is known: the one attached to it, else for a call what
`callType` says, else for parentheses the type of what they enclose. -/
def Expr.typeBy? (callType : Span → Option Ty) : Expr → Option Ty
  | .node _ (some t) _ => some t
  | .node span none (.call _ _) => callType span
  | .node _ none (.paren inner) => inner.typeBy? callType
  | .node _ none _ => none

namespace LinkedProgram

variable (p : LinkedProgram)

/-- The type that the call at a place returns, if it calls a function. -/
def callType? (body : BoundFunction) (span : Span) : Option Ty :=
  match body.calleeAt? span with
  | some (.function f) => (p.signature? f).map (·.returns)
  | _ => none

/-- The type of an expression in a function, as far as it is known. -/
def typeOf? (body : BoundFunction) (e : Expr) : Option Ty := e.typeBy? (p.callType? body)

/-- The callee of an expression, if it is a call that returns a result. -/
def resultCallee? (body : BoundFunction) (e : Expr) : Option String :=
  match e.callPath? with
  | some path => if ((p.typeOf? body e).map (·.isResult)).getD false then some path.text else none
  | none => none

/-- The record of an expression, if it is a call that returns a result. -/
def resultCall? (body : BoundFunction) (o : Occurrence) : Option ResultCall :=
  (p.resultCallee? body o.expr).map fun callee =>
    ⟨body.ref, callee, o.expr.span, o.statement, .ofUse o.use⟩

/-- What is wrong with the propagation of an operand out of a function. -/
def propagationFinding? (s : Signature) (body : BoundFunction) (operand : Expr) :
    Option Finding :=
  match s.returns.result? with
  | none => some (.propagationOutsideResult s.name s.returns.text)
  | some (_, expected) =>
    match p.typeOf? body operand with
    | none => none
    | some t =>
      match t.result? with
      | none => some (.propagationOnNonResult t.text)
      | some (_, found) =>
        if p.symbols.converts found expected then none
        else some (.incompatibleErrorType expected.text found.text)

/-- What is wrong with an expression if it is a `?`. -/
def propagationFault? (s : Signature) (body : BoundFunction) (e : Expr) : Option Finding :=
  match e.form with
  | .propagate operand => p.propagationFinding? s body operand
  | _ => none

/-- What is wrong with the handling of the result of an expression. -/
def resultFault? (body : BoundFunction) (o : Occurrence) : Option Finding :=
  (p.resultCallee? body o.expr).bind fun callee => o.use.fault? callee

/-- The reports on an expression. -/
def occurrenceFaults (s : Signature) (body : BoundFunction) (o : Occurrence) : List Diagnostic :=
  ((p.resultFault? body o).toList ++ (p.propagationFault? s body o.expr).toList).map fun finding =>
    finding.report s.path o.expr.span

/-- The results of a function and the faults in handling them. Nothing is said about a function that
is not bound completely. -/
def functionDischarge (binding : FileBinding) (file : FileKey) (d : FunctionDecl) :
    FileDischarge :=
  match p.signature? ⟨file, d.name⟩, binding.function? ⟨file, d.name⟩ with
  | some s, some body =>
    if body.isPoisoned then {}
    else
      let occurrences := Stmt.blockOccurrences d.body
      { calls := occurrences.filterMap (p.resultCall? body)
        diagnostics := occurrences.flatMap (p.occurrenceFaults s body) }
  | _, _ => {}

/-- The results of a file and the faults in handling them. -/
def fileDischarge (binding : FileBinding) (u : SourceUnit) : FileDischarge :=
  let parts := (firstDeclarations u.functions).map fun d =>
    p.functionDischarge binding u.path.key d.node
  { calls := parts.flatMap (·.calls), diagnostics := parts.flatMap (·.diagnostics) }

end LinkedProgram

end EffectAudit
