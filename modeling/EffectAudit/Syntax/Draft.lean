import EffectAudit.Syntax.Tree

/-!
# Putting syntax together

Constructors for syntax that has no place yet. Where a type is plain from the parts, it is attached:
integers and strings are typed, `?` has the value type of its operand, and a `let` takes the type of
its value.

## Main definitions

* `Expr.bare`, `Expr.ofType`: an expression without a place, and one with a type attached
* `Expr.callNamed`, `Expr.operation`, `Expr.propagating`: calls and `?`
* `Stmt.bare`, `Stmt.letting`: statements without a place
-/

namespace EffectAudit

namespace Expr

/-- An expression without a place and without a type. -/
def bare (form : ExprForm) : Expr := .node .unset none form

/-- The expression with a type attached. -/
def ofType (e : Expr) (type : Ty) : Expr := .node e.span (some type) e.form

/-- A call, with an optional qualifier. -/
def callNamed (qualifier : Option String) (name : String) (args : List Expr) : Expr :=
  bare (.call ⟨qualifier, name⟩ args)

/-- A call of an operation by its spelling; what stands before the first dot is the qualifier. -/
def operation (spelling : String) (args : List Expr) : Expr :=
  match spelling.toList.span (· ≠ '.') with
  | (qualifier, _ :: name) =>
    callNamed (some (String.ofList qualifier)) (String.ofList name) args
  | (_, []) => callNamed none spelling args

/-- An integer. -/
def int (value : Int64) : Expr := (bare (.literal (.int value))).ofType (.named "int")

/-- A string. -/
def str (value : String) : Expr := (bare (.literal (.str value))).ofType (.named "string")

/-- The expression followed by `?`. -/
def propagating (operand : Expr) : Expr :=
  .node .unset (operand.type?.bind Ty.result? |>.map (·.1)) (.propagate operand)

end Expr

namespace Stmt

/-- A statement without a place. -/
def bare (form : StmtForm) : Stmt := .node .unset form

/-- A `let` with the type of its value. -/
def letting (name : String) (value : Expr) : Stmt := bare (.bind name value.type? value)

end Stmt

/-- An arm without a place. -/
def Arm.bare (pattern : Pattern) (body : ArmBody) : Arm := .node .unset ⟨pattern, .unset⟩ body

/-- A constructor pattern around patterns without places. -/
def Pattern.around (name : String) (args : List Pattern) : Pattern :=
  .construct name (args.map (⟨·, .unset⟩))

end EffectAudit
