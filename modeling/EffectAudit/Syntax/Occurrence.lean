import EffectAudit.Syntax.Tree

/-!
# Expressions where they stand

The expressions of a body in source order, an expression before its parts and the expressions of a
statement before its nested blocks. Each comes with the use that is made of its value and with the
innermost statement around it. Parentheses hand their own use on to what they enclose.

## Main definitions

* `Coverage`, `Coverage.ofArms`: the outcomes of a result that a branch handles
* `Use`: what happens to the value of an expression
* `Occurrence`, `Stmt.blockOccurrences`: the expressions of a body
* `Stmt.calls`: the calls of a body
-/

namespace EffectAudit

/-- The outcomes of a result that a branch handles. -/
structure Coverage where
  ok : Bool
  err : Bool
  deriving DecidableEq

namespace Coverage

/-- Whether both outcomes are handled. -/
def isFull (c : Coverage) : Bool := c.ok && c.err

/-- The outcomes that a pattern handles. A wildcard or a binding handles both; a constructor handles
the outcome that it is named for. -/
def ofPattern : Pattern → Coverage
  | .wildcard => ⟨true, true⟩
  | .binding _ => ⟨true, true⟩
  | .construct name _ => ⟨name == "Ok", name == "Err"⟩
  | .literal _ => ⟨false, false⟩

/-- The outcomes that one of two branches handles. -/
def union (a b : Coverage) : Coverage := ⟨a.ok || b.ok, a.err || b.err⟩

/-- The outcomes that the arms of a match handle. -/
def ofArms (arms : List Arm) : Coverage :=
  arms.foldr (fun arm rest => (ofPattern arm.pattern).union rest) ⟨false, false⟩

/-- The outcomes that a branch on a status handles. -/
def ofStatus (check : StatusCheck) (hasElse : Bool) : Coverage :=
  match check with
  | .isOk => ⟨true, hasElse⟩
  | .isErr => ⟨hasElse, true⟩

end Coverage

/-- What happens to the value of an expression. -/
inductive Use where
  | plain
  /-- It is the operand of `?`. -/
  | propagated
  /-- A branch on it handles the given outcomes. -/
  | scrutinized (coverage : Coverage)
  deriving DecidableEq

/-- An expression where it stands. -/
structure Occurrence where
  expr : Expr
  use : Use
  /-- The place of the innermost statement around it. -/
  statement : Span

mutual

/-- The expressions of an expression, itself first. -/
def Expr.occurrences (statement : Span) (use : Use) : Expr → List Occurrence
  | .node span type? form =>
    ⟨.node span type? form, use, statement⟩ :: form.occurrences statement use

/-- The expressions inside a form that is put to the given use. -/
def ExprForm.occurrences (statement : Span) (use : Use) : ExprForm → List Occurrence
  | .literal _ => []
  | .ident _ => []
  | .call _ args => Expr.listOccurrences statement args
  | .propagate operand => operand.occurrences statement .propagated
  | .matching scrutinee arms =>
    scrutinee.occurrences statement (.scrutinized (Coverage.ofArms arms))
      ++ Arm.listOccurrences statement arms
  | .statusBranch subject check thenBody none =>
    subject.occurrences statement (.scrutinized (Coverage.ofStatus check false))
      ++ Stmt.blockOccurrences thenBody
  | .statusBranch subject check thenBody (some elseBody) =>
    subject.occurrences statement (.scrutinized (Coverage.ofStatus check true))
      ++ Stmt.blockOccurrences thenBody ++ Stmt.blockOccurrences elseBody
  | .access _ => []
  | .construct _ args => Expr.listOccurrences statement args
  | .binary lhs _ rhs => lhs.occurrences statement .plain ++ rhs.occurrences statement .plain
  | .unary _ operand => operand.occurrences statement .plain
  | .paren inner => inner.occurrences statement use

/-- The expressions of expressions whose values are put to no particular use. -/
def Expr.listOccurrences (statement : Span) : List Expr → List Occurrence
  | [] => []
  | e :: es => e.occurrences statement .plain ++ Expr.listOccurrences statement es

/-- The expressions in the bodies of arms. -/
def Arm.listOccurrences (statement : Span) : List Arm → List Occurrence
  | [] => []
  | .node _ _ (.expr value) :: arms =>
    value.occurrences statement .plain ++ Arm.listOccurrences statement arms
  | .node _ _ (.block body) :: arms =>
    Stmt.blockOccurrences body ++ Arm.listOccurrences statement arms

/-- The expressions of a statement. -/
def Stmt.occurrences : Stmt → List Occurrence
  | .node span form => form.occurrences span

/-- The expressions in the form of the statement at the given place. -/
def StmtForm.occurrences (statement : Span) : StmtForm → List Occurrence
  | .bind _ _ value => value.occurrences statement .plain
  | .assign _ value => value.occurrences statement .plain
  | .expr value => value.occurrences statement .plain
  | .ret none => []
  | .ret (some value) => value.occurrences statement .plain
  | .branch condition thenBody none =>
    condition.occurrences statement .plain ++ Stmt.blockOccurrences thenBody
  | .branch condition thenBody (some elseBody) =>
    condition.occurrences statement .plain ++ Stmt.blockOccurrences thenBody
      ++ Stmt.blockOccurrences elseBody
  | .loop condition body =>
    condition.occurrences statement .plain ++ Stmt.blockOccurrences body

/-- The expressions of a block. -/
def Stmt.blockOccurrences : List Stmt → List Occurrence
  | [] => []
  | s :: ss => s.occurrences ++ Stmt.blockOccurrences ss

end

/-- The expressions of a block, in source order. -/
def Stmt.exprs (body : List Stmt) : List Expr := (blockOccurrences body).map (·.expr)

/-- The calls of a block, in source order: each callee at the place of its call. -/
def Stmt.calls (body : List Stmt) : List (Spanned CallPath) :=
  (exprs body).filterMap fun e => e.callPath?.map (⟨·, e.span⟩)

namespace SourceUnit

/-- The places of the calls in a file that are written as given. -/
def callSpans (u : SourceUnit) (written : String) : List Span :=
  (u.functions.flatMap fun f => Stmt.calls f.node.body).filterMap fun c =>
    if c.node.text = written then some c.span else none

end SourceUnit

end EffectAudit
