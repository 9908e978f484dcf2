import EffectAudit.Json.Decoder
import EffectAudit.Syntax.Tree

/-!
# The JSON form of syntax trees

Source files come from a separate parser as JSON. Records are objects with one member per field;
alternatives are tagged by their case. Writing always gives every field; reading takes defaults for
fields that are left out.

Reading is by recursion on the nesting that is still allowed. `SourceUnit.ofJson?` allows as much as
the value has.

## Main definitions

* `toJson`, for every kind of syntax: the JSON form
* `ofJson?`, for every kind of syntax: reading it back. Its parameter `byPosition` says whether the
  fields of a tagged record may also be given by position; those of a plain record always may.
-/

namespace EffectAudit

/-! ## Places and types -/

/-- The JSON form of a place. -/
def Span.toJson (s : Span) : Json :=
  .object [("line", .nat s.line.toNat), ("column", .nat s.column.toNat),
    ("len", .nat s.length.toNat)]

/-- Reads a place. -/
def Span.ofJson? (j : Json) : Option Span := do
  let [line, column, length] ← j.record? true ["line", "column", "len"] | none
  return ⟨← Json.required? Json.word32? line, ← Json.required? Json.word32? column,
    ← Json.required? Json.word32? length⟩

/-- The JSON form of something at its place. -/
def Span.around (s : Span) (node : Json) : Json := .object [("node", node), ("span", s.toJson)]

/-- The JSON form of a piece of syntax at its place. -/
def Spanned.toJson {α : Type} (write : α → Json) (s : Spanned α) : Json :=
  s.span.around (write s.node)

/-- Splits the form of something at its place. -/
def Span.split? (j : Json) : Option (Json × Span) := do
  let [node, span] ← j.record? true ["node", "span"] | none
  return (← node, ← Json.required? Span.ofJson? span)

/-- Reads a piece of syntax at its place. -/
def Spanned.ofJson? {α : Type} (read : Json → Option α) (j : Json) : Option (Spanned α) := do
  let (node, span) ← Span.split? j
  return ⟨← read node, span⟩

/-- A case with its content. -/
def Json.tag (case : String) (content : Json) : Json := .object [(case, content)]

mutual

/-- The JSON form of a type. -/
def Ty.toJson : Ty → Json
  | .named name => .tag "Named" (.string name)
  | .generic name args => .tag "Generic" (.array [.string name, .array (Ty.listToJson args)])
  | .unit => .string "Unit"

/-- The JSON forms of types. -/
def Ty.listToJson : List Ty → List Json
  | [] => []
  | t :: ts => t.toJson :: Ty.listToJson ts

end

mutual

/-- Reads a type. -/
def Ty.ofJson? : Json → Option Ty
  | .string "Unit" => some .unit
  | .object [("Unit", .null)] => some .unit
  | .object [("Named", .string name)] => some (.named name)
  | .object [("Generic", .array [.string name, .array args])] =>
    (Ty.listOfJson? args).map (.generic name)
  | _ => none

/-- Reads types. -/
def Ty.listOfJson? : List Json → Option (List Ty)
  | [] => some []
  | j :: js =>
    match Ty.ofJson? j, Ty.listOfJson? js with
    | some t, some ts => some (t :: ts)
    | _, _ => none

end

/-! ## Literals, operators and patterns -/

/-- The JSON form of a literal. There is no number for an infinite or undefined value. -/
def Literal.toJson : Literal → Json
  | .int n => .tag "Int" (.number (.int n.toInt))
  | .float x => .tag "Float" (if x.isFinite then .number (.float x) else .null)
  | .str s => .tag "Str" (.string s)
  | .bool b => .tag "Bool" (.bool b)
  | .unit => .string "Unit"

/-- Reads a literal. -/
def Literal.ofJson? (j : Json) : Option Literal := do
  match ← j.tagged? with
  | ("Int", some v) => v.int64?.map .int
  | ("Float", some v) => v.binary64?.map .float
  | ("Str", some v) => v.string?.map .str
  | ("Bool", some v) => v.bool?.map .bool
  | ("Unit", none) => some .unit
  | ("Unit", some .null) => some .unit
  | _ => none

/-- The case name of an operator between operands. -/
def BinaryOp.tag : BinaryOp → String
  | .add => "Add"
  | .sub => "Sub"
  | .mul => "Mul"
  | .div => "Div"
  | .eq => "Eq"
  | .notEq => "NotEq"
  | .lt => "Lt"
  | .gt => "Gt"
  | .and => "And"
  | .or => "Or"

/-- Reads an operator between operands. -/
def BinaryOp.ofJson? (j : Json) : Option BinaryOp := do
  match ← j.plainTag? with
  | "Add" => some .add
  | "Sub" => some .sub
  | "Mul" => some .mul
  | "Div" => some .div
  | "Eq" => some .eq
  | "NotEq" => some .notEq
  | "Lt" => some .lt
  | "Gt" => some .gt
  | "And" => some .and
  | "Or" => some .or
  | _ => none

/-- The case name of an operator before its operand. -/
def UnaryOp.tag : UnaryOp → String
  | .neg => "Neg"
  | .not => "Not"

/-- Reads an operator before its operand. -/
def UnaryOp.ofJson? (j : Json) : Option UnaryOp := do
  match ← j.plainTag? with
  | "Neg" => some .neg
  | "Not" => some .not
  | _ => none

/-- The case name of a status test. -/
def StatusCheck.tag : StatusCheck → String
  | .isOk => "IsOk"
  | .isErr => "IsErr"

/-- Reads a status test. -/
def StatusCheck.ofJson? (j : Json) : Option StatusCheck := do
  match ← j.plainTag? with
  | "IsOk" => some .isOk
  | "IsErr" => some .isErr
  | _ => none

/-- The case name of a part of a result. -/
def ResultField.tag : ResultField → String
  | .value => "Value"
  | .error => "Error"

/-- Reads a part of a result. -/
def ResultField.ofJson? (j : Json) : Option ResultField := do
  match ← j.plainTag? with
  | "Value" => some .value
  | "Error" => some .error
  | _ => none

/-- The JSON form of a callee. -/
def CallPath.toJson (p : CallPath) : Json :=
  .object [("qualifier", .orNull (p.qualifier.map .string)), ("name", .string p.name)]

/-- Reads a callee. -/
def CallPath.ofJson? (j : Json) : Option CallPath := do
  let [qualifier, name] ← j.record? true ["qualifier", "name"] | none
  return ⟨← Json.optional? Json.string? qualifier, ← Json.required? Json.string? name⟩

mutual

/-- The JSON form of a pattern. -/
def Pattern.toJson : Pattern → Json
  | .wildcard => .string "Wildcard"
  | .binding name => .tag "Binding" (.string name)
  | .literal value => .tag "Literal" value.toJson
  | .construct name args =>
    .tag "Constructor" (.array [.string name, .array (Pattern.listToJson args)])

/-- The JSON forms of patterns at their places. -/
def Pattern.listToJson : List (Spanned Pattern) → List Json
  | [] => []
  | ⟨p, span⟩ :: rest => span.around p.toJson :: Pattern.listToJson rest

end

/-- Reads a pattern. -/
def Pattern.ofJson? : Nat → Json → Option Pattern
  | 0, _ => none
  | depth + 1, j => do
    match ← j.tagged? with
    | ("Wildcard", none) => some .wildcard
    | ("Wildcard", some .null) => some .wildcard
    | ("Binding", some v) => v.string?.map .binding
    | ("Literal", some v) => (Literal.ofJson? v).map .literal
    | ("Constructor", some (.array [name, args])) =>
      return .construct (← name.string?) (← args.listOf? (Spanned.ofJson? (Pattern.ofJson? depth)))
    | _ => none

/-! ## Expressions and statements -/

mutual

/-- The JSON form of an expression. -/
def Expr.toJson : Expr → Json
  | .node span type? form =>
    span.around (.object [("kind", form.toJson), ("ty", .orNull (type?.map Ty.toJson))])

/-- The JSON form of the form of an expression. -/
def ExprForm.toJson : ExprForm → Json
  | .literal value => .tag "Literal" value.toJson
  | .ident name => .tag "Ident" (.string name)
  | .call path args =>
    .tag "Call" (.object [("path", path.toJson), ("args", .array (Expr.listToJson args))])
  | .propagate operand => .tag "Try" operand.toJson
  | .matching scrutinee arms =>
    .tag "Match" (.array [scrutinee.toJson, .array (Arm.listToJson arms)])
  | .statusBranch subject check thenBody elseBody =>
    .tag "StatusBranch" (.object [("subject", subject.toJson), ("check", .string check.tag),
      ("then_body", .array (Stmt.listToJson thenBody)), ("else_body", Stmt.elseToJson elseBody)])
  | .access field => .tag "ResultAccess" (.string field.tag)
  | .construct name args =>
    .tag "Constructor" (.array [.string name, .array (Expr.listToJson args)])
  | .binary lhs op rhs => .tag "Binary" (.array [lhs.toJson, .string op.tag, rhs.toJson])
  | .unary op operand => .tag "Unary" (.array [.string op.tag, operand.toJson])
  | .paren inner => .tag "Paren" inner.toJson

/-- The JSON forms of expressions. -/
def Expr.listToJson : List Expr → List Json
  | [] => []
  | e :: es => e.toJson :: Expr.listToJson es

/-- The JSON form of an arm. -/
def Arm.toJson : Arm → Json
  | .node span pattern body =>
    span.around (.object [("pattern", pattern.toJson Pattern.toJson), ("body", body.toJson)])

/-- The JSON form of the body of an arm. -/
def ArmBody.toJson : ArmBody → Json
  | .expr value => .tag "Expr" value.toJson
  | .block body => .tag "Block" (.array (Stmt.listToJson body))

/-- The JSON forms of arms. -/
def Arm.listToJson : List Arm → List Json
  | [] => []
  | a :: as => a.toJson :: Arm.listToJson as

/-- The JSON form of a statement. -/
def Stmt.toJson : Stmt → Json
  | .node span form => span.around form.toJson

/-- The JSON form of the form of a statement. -/
def StmtForm.toJson : StmtForm → Json
  | .bind name type? value =>
    .tag "Let" (.object [("name", .string name), ("ty", .orNull (type?.map Ty.toJson)),
      ("value", value.toJson)])
  | .assign target value =>
    .tag "Assign" (.object [("target", .string target), ("value", value.toJson)])
  | .expr value => .tag "Expr" value.toJson
  | .ret none => .tag "Return" .null
  | .ret (some value) => .tag "Return" value.toJson
  | .branch condition thenBody elseBody =>
    .tag "If" (.object [("condition", condition.toJson),
      ("then_body", .array (Stmt.listToJson thenBody)), ("else_body", Stmt.elseToJson elseBody)])
  | .loop condition body =>
    .tag "While" (.object [("condition", condition.toJson),
      ("body", .array (Stmt.listToJson body))])

/-- The JSON forms of statements. -/
def Stmt.listToJson : List Stmt → List Json
  | [] => []
  | s :: ss => s.toJson :: Stmt.listToJson ss

/-- The JSON form of an `else` branch that may be missing. -/
def Stmt.elseToJson : Option (List Stmt) → Json
  | none => .null
  | some body => .array (Stmt.listToJson body)

end

mutual

/-- Reads an expression. -/
def Expr.ofJson? (byPosition : Bool) : Nat → Json → Option Expr
  | 0, _ => none
  | depth + 1, j => do
    let (node, span) ← Span.split? j
    let [kind, type] ← node.record? true ["kind", "ty"] | none
    return .node span (← Json.optional? Ty.ofJson? type)
      (← Json.required? (ExprForm.ofJson? byPosition depth) kind)

/-- Reads the form of an expression. -/
def ExprForm.ofJson? (byPosition : Bool) : Nat → Json → Option ExprForm
  | 0, _ => none
  | depth + 1, j => do
    match ← j.tagged? with
    | ("Literal", some v) => (Literal.ofJson? v).map .literal
    | ("Ident", some v) => v.string?.map .ident
    | ("Call", some v) =>
      let [path, args] ← v.record? true ["path", "args"] | none
      return .call (← Json.required? CallPath.ofJson? path)
        (← Json.orDefault? [] (Json.listOf? (Expr.ofJson? byPosition depth)) args)
    | ("Try", some v) => (Expr.ofJson? byPosition depth v).map .propagate
    | ("Match", some (.array [scrutinee, arms])) =>
      return .matching (← Expr.ofJson? byPosition depth scrutinee)
        (← arms.listOf? (Arm.ofJson? byPosition depth))
    | ("StatusBranch", some v) =>
      let [subject, check, thenBody, elseBody] ←
        v.record? true ["subject", "check", "then_body", "else_body"] | none
      return .statusBranch (← Json.required? (Expr.ofJson? byPosition depth) subject)
        (← Json.required? StatusCheck.ofJson? check)
        (← Json.required? (Json.listOf? (Stmt.ofJson? byPosition depth)) thenBody)
        (← Json.optional? (Json.listOf? (Stmt.ofJson? byPosition depth)) elseBody)
    | ("ResultAccess", some v) => (ResultField.ofJson? v).map .access
    | ("Constructor", some (.array [name, args])) =>
      return .construct (← name.string?) (← args.listOf? (Expr.ofJson? byPosition depth))
    | ("Binary", some (.array [lhs, op, rhs])) =>
      return .binary (← Expr.ofJson? byPosition depth lhs) (← BinaryOp.ofJson? op)
        (← Expr.ofJson? byPosition depth rhs)
    | ("Unary", some (.array [op, operand])) =>
      return .unary (← UnaryOp.ofJson? op) (← Expr.ofJson? byPosition depth operand)
    | ("Paren", some v) => (Expr.ofJson? byPosition depth v).map .paren
    | _ => none

/-- Reads an arm. -/
def Arm.ofJson? (byPosition : Bool) : Nat → Json → Option Arm
  | 0, _ => none
  | depth + 1, j => do
    let (node, span) ← Span.split? j
    let [pattern, body] ← node.record? true ["pattern", "body"] | none
    return .node span (← Json.required? (Spanned.ofJson? (Pattern.ofJson? depth)) pattern)
      (← Json.required? (ArmBody.ofJson? byPosition depth) body)

/-- Reads the body of an arm. -/
def ArmBody.ofJson? (byPosition : Bool) : Nat → Json → Option ArmBody
  | 0, _ => none
  | depth + 1, j => do
    match ← j.tagged? with
    | ("Expr", some v) => (Expr.ofJson? byPosition depth v).map .expr
    | ("Block", some v) => (v.listOf? (Stmt.ofJson? byPosition depth)).map .block
    | _ => none

/-- Reads a statement. -/
def Stmt.ofJson? (byPosition : Bool) : Nat → Json → Option Stmt
  | 0, _ => none
  | depth + 1, j => do
    let (node, span) ← Span.split? j
    return .node span (← StmtForm.ofJson? byPosition depth node)

/-- Reads the form of a statement. -/
def StmtForm.ofJson? (byPosition : Bool) : Nat → Json → Option StmtForm
  | 0, _ => none
  | depth + 1, j => do
    match ← j.tagged? with
    | ("Let", some v) =>
      let [name, type, value] ← v.record? byPosition ["name", "ty", "value"] | none
      return .bind (← Json.required? Json.string? name) (← Json.optional? Ty.ofJson? type)
        (← Json.required? (Expr.ofJson? byPosition depth) value)
    | ("Assign", some v) =>
      let [target, value] ← v.record? byPosition ["target", "value"] | none
      return .assign (← Json.required? Json.string? target)
        (← Json.required? (Expr.ofJson? byPosition depth) value)
    | ("Expr", some v) => (Expr.ofJson? byPosition depth v).map .expr
    | ("Return", some v) =>
      (Json.optional? (Expr.ofJson? byPosition depth) (some v)).map .ret
    | ("If", some v) =>
      let [condition, thenBody, elseBody] ←
        v.record? byPosition ["condition", "then_body", "else_body"] | none
      return .branch (← Json.required? (Expr.ofJson? byPosition depth) condition)
        (← Json.required? (Json.listOf? (Stmt.ofJson? byPosition depth)) thenBody)
        (← Json.optional? (Json.listOf? (Stmt.ofJson? byPosition depth)) elseBody)
    | ("While", some v) =>
      let [condition, body] ← v.record? byPosition ["condition", "body"] | none
      return .loop (← Json.required? (Expr.ofJson? byPosition depth) condition)
        (← Json.required? (Json.listOf? (Stmt.ofJson? byPosition depth)) body)
    | _ => none

end

/-! ## Declarations and files -/

/-- The JSON form of what an import names. -/
def ImportTarget.toJson : ImportTarget → Json
  | .module name => .tag "Module" (.string name)
  | .file path => .tag "File" (.string path)

/-- Reads what an import names. -/
def ImportTarget.ofJson? (j : Json) : Option ImportTarget := do
  match ← j.tagged? with
  | ("Module", some v) => v.string?.map .module
  | ("File", some v) => v.string?.map .file
  | _ => none

/-- The JSON form of an imported name. -/
def ImportItem.toJson (i : ImportItem) : Json :=
  .object [("name", .string i.name), ("alias", .orNull (i.rename.map .string))]

/-- Reads an imported name. -/
def ImportItem.ofJson? (j : Json) : Option ImportItem := do
  let [name, rename] ← j.record? true ["name", "alias"] | none
  return ⟨← Json.required? Json.string? name, ← Json.optional? Json.string? rename⟩

/-- The JSON form of what an import brings into scope. -/
def ImportItems.toJson : ImportItems → Json
  | .module => .string "Module"
  | .wildcard => .string "Wildcard"
  | .names items => .tag "Names" (.array (items.map (Spanned.toJson ImportItem.toJson)))

/-- Reads what an import brings into scope. -/
def ImportItems.ofJson? (j : Json) : Option ImportItems := do
  match ← j.tagged? with
  | ("Module", none) => some .module
  | ("Module", some .null) => some .module
  | ("Wildcard", none) => some .wildcard
  | ("Wildcard", some .null) => some .wildcard
  | ("Names", some v) => (v.listOf? (Spanned.ofJson? ImportItem.ofJson?)).map .names
  | _ => none

/-- The JSON form of an import directive. -/
def ImportDecl.toJson (d : ImportDecl) : Json :=
  .object [("target", d.target.toJson), ("items", d.items.toJson),
    ("alias", .orNull (d.rename.map .string))]

/-- Reads an import directive. -/
def ImportDecl.ofJson? (j : Json) : Option ImportDecl := do
  let [target, items, rename] ← j.record? true ["target", "items", "alias"] | none
  return ⟨← Json.required? ImportTarget.ofJson? target,
    ← Json.orDefault? .module ImportItems.ofJson? items, ← Json.optional? Json.string? rename⟩

/-- The JSON form of a parameter. -/
def Param.toJson (p : Param) : Json :=
  .object [("name", .string p.name), ("ty", p.type.toJson)]

/-- Reads a parameter. -/
def Param.ofJson? (j : Json) : Option Param := do
  let [name, type] ← j.record? true ["name", "ty"] | none
  return ⟨← Json.required? Json.string? name, ← Json.required? Ty.ofJson? type⟩

/-- The JSON form of a function declaration. -/
def FunctionDecl.toJson (f : FunctionDecl) : Json :=
  .object [("name", .string f.name), ("params", .array (f.params.map Param.toJson)),
    ("return_type", f.returns.toJson), ("effects", .array (f.effects.map (Spanned.toJson .string))),
    ("effects_span", .orNull (f.effectsSpan.map Span.toJson)), ("is_pure", .bool f.isPure),
    ("body", .array (Stmt.listToJson f.body))]

/-- Reads a function declaration. -/
def FunctionDecl.ofJson? (byPosition : Bool) (depth : Nat) (j : Json) : Option FunctionDecl := do
  let [name, params, returns, effects, effectsSpan, isPure, body] ← j.record? true
    ["name", "params", "return_type", "effects", "effects_span", "is_pure", "body"] | none
  return {
    name := ← Json.required? Json.string? name
    params := ← Json.orDefault? [] (Json.listOf? Param.ofJson?) params
    returns := ← Json.required? Ty.ofJson? returns
    effects := ← Json.orDefault? [] (Json.listOf? (Spanned.ofJson? Json.string?)) effects
    effectsSpan := ← Json.optional? Span.ofJson? effectsSpan
    isPure := ← Json.orDefault? false Json.bool? isPure
    body := ← Json.orDefault? [] (Json.listOf? (Stmt.ofJson? byPosition depth)) body }

/-- The JSON form of a type declaration. -/
def TypeDecl.toJson (t : TypeDecl) : Json :=
  .object [("name", .string t.name), ("converts_from", .array (Ty.listToJson t.convertsFrom))]

/-- Reads a type declaration. -/
def TypeDecl.ofJson? (j : Json) : Option TypeDecl := do
  let [name, convertsFrom] ← j.record? true ["name", "converts_from"] | none
  return ⟨← Json.required? Json.string? name,
    ← Json.orDefault? [] (Json.listOf? Ty.ofJson?) convertsFrom⟩

/-- The JSON form of a top-level declaration. -/
def Declaration.toJson : Declaration → Json
  | .function f => .tag "Function" f.toJson
  | .type t => .tag "Type" t.toJson

/-- Reads a top-level declaration. -/
def Declaration.ofJson? (byPosition : Bool) (depth : Nat) (j : Json) : Option Declaration := do
  match ← j.tagged? with
  | ("Function", some v) => (FunctionDecl.ofJson? byPosition depth v).map .function
  | ("Type", some v) => (TypeDecl.ofJson? v).map .type
  | _ => none

namespace SourceUnit

/-- The JSON form of a source file. -/
def toJson (u : SourceUnit) : Json :=
  .object [("path", .string u.path.text),
    ("module", .orNull (u.moduleDecl.map (Spanned.toJson .string))),
    ("imports", .array (u.imports.map (Spanned.toJson ImportDecl.toJson))),
    ("declarations", .array (u.declarations.map (Spanned.toJson Declaration.toJson))),
    ("exports", .array (u.exports.map (Spanned.toJson .string))),
    ("source", .orNull (u.source.map .string))]

/-- Reads a source file, with at most the given nesting inside of its functions. -/
def ofJsonWithin? (byPosition : Bool) (depth : Nat) (j : Json) : Option SourceUnit := do
  let [path, moduleDecl, imports, declarations, exports, source] ←
    j.record? true ["path", "module", "imports", "declarations", "exports", "source"] | none
  return {
    path := ⟨← Json.required? Json.string? path⟩
    moduleDecl := ← Json.optional? (Spanned.ofJson? Json.string?) moduleDecl
    imports := ← Json.orDefault? [] (Json.listOf? (Spanned.ofJson? ImportDecl.ofJson?)) imports
    declarations := ← Json.orDefault? []
      (Json.listOf? (Spanned.ofJson? (Declaration.ofJson? byPosition depth))) declarations
    exports := ← Json.orDefault? [] (Json.listOf? (Spanned.ofJson? Json.string?)) exports
    source := ← Json.optional? Json.string? source }

/-- Reads a source file. -/
def ofJson? (byPosition : Bool) (j : Json) : Option SourceUnit :=
  ofJsonWithin? byPosition (j.depth + 1) j

end SourceUnit

end EffectAudit
