import EffectAudit.Syntax.Tree

/-!
# Laying out synthesized files

A file that is put together by a program has no text, so every construct is given a place as if it
had been written on a line of its own. Statements start in column five; the expressions of a
statement follow one another on its line; the arms of a match and the statements of a block take the
lines below.

## Main definitions

* `Stmt.layout`, `Expr.layout`: places for a statement and for an expression
* `UnitBuilder`, `UnitBuilder.build`: a file that grows by one construct at a time

Layout threads two counters: the last line used, and the next free column of the current line.
-/

namespace EffectAudit

/-- The number of characters of a text. -/
def textWidth (text : String) : Nat := text.toList.length

/-- The column in which statements start. -/
def bodyColumn : Nat := 5

/-- The number of columns that the form of an expression takes before its parts. -/
def ExprForm.width : ExprForm → Nat
  | .call path _ => textWidth path.text + 2
  | .ident name => textWidth name
  | _ => 1

mutual

/-- Lays out an expression on a line, from a column on. Gives the expression, the last line used
after it, and the next free column of its line. -/
def Expr.layout (line : Nat) (last column : Nat) : Expr → Expr × Nat × Nat
  | .node _ type? form =>
    let width := form.width
    let (form, last, next) := form.layout line last (column + width + 1)
    (.node (Span.ofNat line column width) type? form, last, next)

/-- Lays out the parts of an expression. -/
def ExprForm.layout (line : Nat) (last column : Nat) : ExprForm → ExprForm × Nat × Nat
  | .literal value => (.literal value, last, column)
  | .ident name => (.ident name, last, column)
  | .call path args =>
    let (args, last, column) := Expr.listLayout line last column args
    (.call path args, last, column)
  | .propagate operand =>
    let (operand, last, column) := operand.layout line last column
    (.propagate operand, last, column)
  | .matching scrutinee arms =>
    let (scrutinee, last, column) := scrutinee.layout line last column
    let (arms, last) := Arm.listLayout last arms
    (.matching scrutinee arms, last + 1, column)
  | .statusBranch subject check thenBody elseBody =>
    let (subject, last, column) := subject.layout line last column
    let (thenBody, last) := Stmt.blockLayout last thenBody
    let (elseBody, last) := Stmt.elseLayout last elseBody
    (.statusBranch subject check thenBody elseBody, last + 1, column)
  | .access field => (.access field, last, column)
  | .construct name args =>
    let (args, last, column) := Expr.listLayout line last column args
    (.construct name args, last, column)
  | .binary lhs op rhs =>
    let (lhs, last, column) := lhs.layout line last column
    let (rhs, last, column) := rhs.layout line last column
    (.binary lhs op rhs, last, column)
  | .unary op operand =>
    let (operand, last, column) := operand.layout line last column
    (.unary op operand, last, column)
  | .paren inner =>
    let (inner, last, column) := inner.layout line last column
    (.paren inner, last, column)

/-- Lays out expressions one after the other. -/
def Expr.listLayout (line : Nat) (last column : Nat) : List Expr → List Expr × Nat × Nat
  | [] => ([], last, column)
  | e :: es =>
    let (e, last, column) := e.layout line last column
    let (es, last, column) := Expr.listLayout line last column es
    (e :: es, last, column)

/-- Lays out arms, each from a line of its own on. -/
def Arm.listLayout (last : Nat) : List Arm → List Arm × Nat
  | [] => ([], last)
  | .node _ pattern body :: arms =>
    let span := Span.ofNat (last + 1) (bodyColumn + 4) 1
    let (body, last) := body.layout (last + 1)
    let (arms, last) := Arm.listLayout last arms
    (.node span ⟨pattern.node, span⟩ body :: arms, last)

/-- Lays out the body of the arm on the given line. -/
def ArmBody.layout (line : Nat) : ArmBody → ArmBody × Nat
  | .expr value =>
    let (value, last, _) := value.layout line line (bodyColumn + 12)
    (.expr value, last)
  | .block body =>
    let (body, last) := Stmt.blockLayout line body
    (.block body, last)

/-- Lays out a statement on the line after the last one used. -/
def Stmt.layout (last : Nat) : Stmt → Stmt × Nat
  | .node _ form =>
    let (form, last') := form.layout (last + 1)
    (.node (Span.ofNat (last + 1) bodyColumn 1) form, last')

/-- Lays out the form of the statement on the given line. -/
def StmtForm.layout (line : Nat) : StmtForm → StmtForm × Nat
  | .bind name type? value =>
    let (value, last, _) := value.layout line line bodyColumn
    (.bind name type? value, last)
  | .assign target value =>
    let (value, last, _) := value.layout line line bodyColumn
    (.assign target value, last)
  | .expr value =>
    let (value, last, _) := value.layout line line bodyColumn
    (.expr value, last)
  | .ret none => (.ret none, line)
  | .ret (some value) =>
    let (value, last, _) := value.layout line line (bodyColumn + 7)
    (.ret (some value), last)
  | .branch condition thenBody elseBody =>
    let (condition, last, _) := condition.layout line line (bodyColumn + 3)
    let (thenBody, last) := Stmt.blockLayout last thenBody
    let (elseBody, last) := Stmt.elseLayout last elseBody
    (.branch condition thenBody elseBody, last + 1)
  | .loop condition body =>
    let (condition, last, _) := condition.layout line line (bodyColumn + 6)
    let (body, last) := Stmt.blockLayout last body
    (.loop condition body, last + 1)

/-- Lays out statements one below the other. -/
def Stmt.blockLayout (last : Nat) : List Stmt → List Stmt × Nat
  | [] => ([], last)
  | s :: ss =>
    let (s, last) := s.layout last
    let (ss, last) := Stmt.blockLayout last ss
    (s :: ss, last)

/-- Lays out an `else` branch, which takes a line for its keyword. -/
def Stmt.elseLayout (last : Nat) : Option (List Stmt) → Option (List Stmt) × Nat
  | none => (none, last)
  | some body =>
    let (body, last) := Stmt.blockLayout (last + 1) body
    (some body, last)

end

/-- Places for a list of words on a line, from a column on and two columns apart. Gives the column
after them too. -/
def layoutWords {α : Type} (line : Nat) (text : α → String) :
    Nat → List α → List (Spanned α) × Nat
  | column, [] => ([], column)
  | column, w :: ws =>
    let width := textWidth (text w)
    let (rest, column') := layoutWords line text (column + width + 2) ws
    (⟨w, Span.ofNat line column width⟩ :: rest, column')

/-- A function to be laid out. -/
structure FunctionDraft where
  name : String
  params : List Param := []
  returns : Ty := .unit
  /-- The tokens of the `uses` clause, if there is one. -/
  uses : Option (List String) := none
  isPure : Bool := false
  body : List Stmt := []

/-- One construct of a file to be laid out. -/
inductive UnitItem where
  | module (name : String)
  | importModule (name : String) (rename : Option String)
  | importFile (path : String)
  | importNames (name : String) (names : List String)
  | importAll (name : String)
  | exports (names : List String)
  | type (name : String) (sources : List String)
  | function (draft : FunctionDraft)
  /-- The text of the file; it takes no line. -/
  | source (text : String)

/-- A file under construction, with the last line used. -/
structure UnitBuilder where
  unit : SourceUnit
  last : Nat := 0

namespace UnitBuilder

/-- Adds a declaration at a place, after which the given line is the last one used. -/
def declare (b : UnitBuilder) (last : Nat) (d : Declaration) (span : Span) : UnitBuilder :=
  ⟨{ b.unit with declarations := b.unit.declarations ++ [⟨d, span⟩] }, last⟩

/-- Adds an import on the next line. -/
def addImport (b : UnitBuilder) (d : ImportDecl) : UnitBuilder :=
  let span := Span.ofNat (b.last + 1) 1 (textWidth d.target.text + 7)
  ⟨{ b.unit with imports := b.unit.imports ++ [⟨d, span⟩] }, b.last + 1⟩

/-- Adds a function: its header, a line for each statement, and a closing line. -/
def addFunction (b : UnitBuilder) (f : FunctionDraft) : UnitBuilder :=
  let header := b.last + 1
  let nameColumn := if f.isPure then 15 else 10
  let clause := nameColumn + textWidth f.name + 2
  let (effects, effectsSpan) := match f.uses with
    | none => ([], none)
    | some tokens =>
      let (effects, column) := layoutWords header id (clause + 6) tokens
      (effects, some (Span.ofNat header clause (column - clause)))
  let (body, last) := Stmt.blockLayout header f.body
  let decl : FunctionDecl :=
    { name := f.name, params := f.params, returns := f.returns, effects, effectsSpan
      isPure := f.isPure, body }
  b.declare (last + 1) (.function decl) (Span.ofNat header nameColumn (textWidth f.name))

/-- Adds a construct. -/
def add (b : UnitBuilder) (item : UnitItem) : UnitBuilder :=
  let line := b.last + 1
  match item with
  | .module name =>
    ⟨{ b.unit with moduleDecl := some ⟨name, Span.ofNat line 8 (textWidth name)⟩ }, line⟩
  | .importModule name rename => b.addImport { target := .module name, rename }
  | .importFile path => b.addImport { target := .file path }
  | .importNames name names =>
    let items := (layoutWords line ImportItem.name 8 (names.map fun n => { name := n })).1
    b.addImport { target := .module name, items := .names items }
  | .importAll name => b.addImport { target := .module name, items := .wildcard }
  | .exports names =>
    ⟨{ b.unit with exports := b.unit.exports ++ (layoutWords line id 8 names).1 }, line⟩
  | .type name sources =>
    b.declare line (.type ⟨name, sources.map .named⟩) (Span.ofNat line 1 (textWidth name + 5))
  | .function draft => b.addFunction draft
  | .source text => { b with unit := { b.unit with source := some text } }

/-- The file with the given constructs, in order. -/
def build (path : Path) (items : List UnitItem) : SourceUnit :=
  (items.foldl add { unit := { path } }).unit

end UnitBuilder

end EffectAudit
