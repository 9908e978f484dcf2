import EffectAudit.Number.Binary64
import EffectAudit.Path.Basic
import EffectAudit.Syntax.Span
import EffectAudit.Syntax.Ty

/-!
# Syntax trees

The trees that the verifier works on. An expression carries the type that the typer attached to it,
if there is one; types are never inferred here.

## Main definitions

* `Literal`, `Pattern`, `Expr`, `Stmt`: the inside of functions
* `ImportDecl`, `FunctionDecl`, `TypeDecl`, `SourceUnit`: source files
-/

namespace EffectAudit

/-- A literal. -/
inductive Literal where
  | int (value : Int64)
  | float (value : Binary64)
  | str (value : String)
  | bool (value : Bool)
  | unit
  deriving DecidableEq

/-- An operator between two operands. -/
inductive BinaryOp where
  | add
  | sub
  | mul
  | div
  | eq
  | notEq
  | lt
  | gt
  | and
  | or
  deriving DecidableEq

/-- An operator before its operand. -/
inductive UnaryOp where
  | neg
  | not
  deriving DecidableEq

/-- The callee of a call as it is written. -/
structure CallPath where
  qualifier : Option String := none
  name : String
  deriving DecidableEq

/-- The text of a callee: the name, after its qualifier and a dot if it has one. -/
def CallPath.text (p : CallPath) : String :=
  match p.qualifier with
  | some q => q ++ "." ++ p.name
  | none => p.name

/-- A test on the status of a result. -/
inductive StatusCheck where
  | isOk
  | isErr
  deriving DecidableEq

/-- The part of a result that is read inside a status branch. -/
inductive ResultField where
  | value
  | error
  deriving DecidableEq

/-- A pattern of a match arm. -/
inductive Pattern where
  | wildcard
  | binding (name : String)
  | literal (value : Literal)
  | construct (name : String) (args : List (Spanned Pattern))

mutual

/-- An expression at its place, with the type attached to it, if any. -/
inductive Expr where
  | node (span : Span) (type? : Option Ty) (form : ExprForm)

/-- The forms of expressions. -/
inductive ExprForm where
  | literal (value : Literal)
  | ident (name : String)
  | call (path : CallPath) (args : List Expr)
  /-- The operand followed by `?`. -/
  | propagate (operand : Expr)
  | matching (scrutinee : Expr) (arms : List Arm)
  /-- A branch on the status of its subject. -/
  | statusBranch (subject : Expr) (check : StatusCheck) (thenBody : List Stmt)
      (elseBody : Option (List Stmt))
  | access (field : ResultField)
  | construct (name : String) (args : List Expr)
  | binary (lhs : Expr) (op : BinaryOp) (rhs : Expr)
  | unary (op : UnaryOp) (operand : Expr)
  | paren (inner : Expr)

/-- An arm of a match. -/
inductive Arm where
  | node (span : Span) (pattern : Spanned Pattern) (body : ArmBody)

/-- The body of an arm. -/
inductive ArmBody where
  | expr (value : Expr)
  | block (body : List Stmt)

/-- A statement at its place. -/
inductive Stmt where
  | node (span : Span) (form : StmtForm)

/-- The forms of statements. -/
inductive StmtForm where
  | bind (name : String) (type? : Option Ty) (value : Expr)
  | assign (target : String) (value : Expr)
  | expr (value : Expr)
  | ret (value : Option Expr)
  | branch (condition : Expr) (thenBody : List Stmt) (elseBody : Option (List Stmt))
  | loop (condition : Expr) (body : List Stmt)

end

namespace Expr

/-- The place of an expression. -/
def span : Expr → Span
  | node span _ _ => span

/-- The type attached to an expression. -/
def type? : Expr → Option Ty
  | node _ type? _ => type?

/-- The form of an expression. -/
def form : Expr → ExprForm
  | node _ _ form => form

/-- The callee, if the expression is a call. -/
def callPath? (e : Expr) : Option CallPath :=
  match e.form with
  | .call path _ => some path
  | _ => none

end Expr

/-- The pattern of an arm. -/
def Arm.pattern : Arm → Pattern
  | node _ pattern _ => pattern.node

/-- What an import directive names. -/
inductive ImportTarget where
  | module (name : String)
  | file (path : String)
  deriving DecidableEq

/-- The text of a target; a file path stands in quotes. -/
def ImportTarget.text : ImportTarget → String
  | module name => name
  | file path => "\"" ++ path ++ "\""

/-- A name brought in by an import. -/
structure ImportItem where
  name : String
  rename : Option String := none
  deriving DecidableEq

/-- The name under which an item is known in the importing file. -/
def ImportItem.localName (i : ImportItem) : String := i.rename.getD i.name

/-- What an import brings into scope. -/
inductive ImportItems where
  /-- The module, for qualified calls. -/
  | module
  /-- Every exported name. -/
  | wildcard
  | names (items : List (Spanned ImportItem))
  deriving DecidableEq

/-- An import directive. -/
structure ImportDecl where
  target : ImportTarget
  items : ImportItems := .module
  rename : Option String := none
  deriving DecidableEq

/-- A parameter of a function. -/
structure Param where
  name : String
  type : Ty
  deriving DecidableEq

/-- The declaration of a function. -/
structure FunctionDecl where
  name : String
  params : List Param := []
  returns : Ty
  /-- The tokens of the `uses` clause. -/
  effects : List (Spanned String) := []
  /-- The place of the `uses` clause, if there is one. -/
  effectsSpan : Option Span := none
  isPure : Bool := false
  body : List Stmt := []

/-- The declaration of a type, with the types whose values convert to it. -/
structure TypeDecl where
  name : String
  convertsFrom : List Ty := []
  deriving DecidableEq

/-- A top-level declaration. -/
inductive Declaration where
  | function (decl : FunctionDecl)
  | type (decl : TypeDecl)

/-- A source file. -/
structure SourceUnit where
  path : Path
  /-- The module that the file declares itself part of. -/
  moduleDecl : Option (Spanned String) := none
  imports : List (Spanned ImportDecl) := []
  declarations : List (Spanned Declaration) := []
  exports : List (Spanned String) := []
  /-- The text of the file. -/
  source : Option String := none

namespace SourceUnit

/-- The module name that the file declares. -/
def declaredModule? (u : SourceUnit) : Option String := u.moduleDecl.map (·.node)

/-- The declared functions, each at the place of its declaration. -/
def functions (u : SourceUnit) : List (Spanned FunctionDecl) :=
  u.declarations.filterMap fun d =>
    match d.node with
    | .function f => some ⟨f, d.span⟩
    | .type _ => none

/-- The declared types. -/
def types (u : SourceUnit) : List TypeDecl :=
  u.declarations.filterMap fun d =>
    match d.node with
    | .type t => some t
    | .function _ => none

/-- Whether a name is on the export list. -/
def exportsName (u : SourceUnit) (name : String) : Bool := u.exports.any (·.node == name)

/-- Whether a function or a type of the given name is declared. -/
def defines (u : SourceUnit) (name : String) : Bool :=
  u.functions.any (·.node.name == name) || u.types.any (·.name == name)

end SourceUnit

end EffectAudit
