import EffectAudit.Proofs.Json.Decoder
import EffectAudit.Proofs.Syntax.Walk
import EffectAudit.Syntax.JsonForm

/-!
# Reading what was written

Every piece of syntax is read back from its JSON form, if the floating-point literals in it are
finite: there is no number to write for another one. Reading is by recursion on a bound for the
nesting, so for expressions and statements the bound has to exceed the depth of their forms.

## Main definitions

* `SourceUnit.literals`: the literals in a file
* `AllFinite`: there are no infinite or undefined numbers among literals

## Main results

* `Pattern.ofJson?_toJson`, `Expr.ofJson?_toJson`, `Stmt.listOf?_listToJson`: syntax in functions
* `SourceUnit.ofJsonWithin?_toJson`: files
-/

namespace EffectAudit

/-! ## Literals in a file -/

mutual

/-- The literals in a pattern. -/
def Pattern.literals : Pattern → List Literal
  | .wildcard | .binding _ => []
  | .literal value => [value]
  | .construct _ args => Pattern.listLiterals args

/-- The literals in patterns. -/
def Pattern.listLiterals : List (Spanned Pattern) → List Literal
  | [] => []
  | ⟨p, _⟩ :: rest => p.literals ++ Pattern.listLiterals rest

end

/-- The literals of an expression that stand in none of its parts: the literal that it is, or those
in the patterns of a match. -/
def ExprForm.literals : ExprForm → List Literal
  | .literal value => [value]
  | .matching _ arms => arms.flatMap fun a => a.pattern.literals
  | _ => []

/-- The literals of expressions, without those in their parts. -/
def Expr.literals (es : List Expr) : List Literal := es.flatMap fun e => e.form.literals

/-- The expressions of the body of an arm. -/
def ArmBody.walk : ArmBody → List Expr
  | .expr value => value.walk
  | .block body => Stmt.walk body

theorem Arm.walkAll_cons (span : Span) (pattern : Spanned Pattern) (body : ArmBody)
    (arms : List Arm) :
    Arm.walkAll (.node span pattern body :: arms) = body.walk ++ Arm.walkAll arms := by
  cases body <;> rw [Arm.walkAll, ArmBody.walk]

/-- The expressions of an `else` branch that may be missing. -/
def Stmt.walkElse : Option (List Stmt) → List Expr
  | none => []
  | some body => Stmt.walk body

theorem ExprForm.walk_statusBranch (subject : Expr) (check : StatusCheck) (yes : List Stmt)
    (no : Option (List Stmt)) :
    (ExprForm.statusBranch subject check yes no).walk =
      subject.walk ++ Stmt.walk yes ++ Stmt.walkElse no := by
  cases no <;> simp [ExprForm.walk, Stmt.walkElse]

theorem StmtForm.walk_branch (condition : Expr) (yes : List Stmt) (no : Option (List Stmt)) :
    (StmtForm.branch condition yes no).walk =
      condition.walk ++ Stmt.walk yes ++ Stmt.walkElse no := by
  cases no <;> simp [StmtForm.walk, Stmt.walkElse]

/-- The literals in a declaration. -/
def Declaration.literals : Declaration → List Literal
  | .function f => Expr.literals (Stmt.walk f.body)
  | .type _ => []

/-- The literals in a file. -/
def SourceUnit.literals (u : SourceUnit) : List Literal :=
  u.declarations.flatMap fun d => d.node.literals

/-- All floating-point literals of a list are finite. -/
def AllFinite (ls : List Literal) : Prop := ∀ x, Literal.float x ∈ ls → x.isFinite = true

theorem AllFinite.of_mem_flatMap {α : Type} {l : List α} {f : α → List Literal}
    (h : AllFinite (l.flatMap f)) {a : α} (ha : a ∈ l) : AllFinite (f a) :=
  fun x hx => h x (List.mem_flatMap.mpr ⟨a, ha, hx⟩)

theorem allFinite_append {l l' : List Literal} :
    AllFinite (l ++ l') ↔ AllFinite l ∧ AllFinite l' := by
  simp only [AllFinite, List.mem_append, or_imp, forall_and]

theorem Expr.literals_append (es es' : List Expr) :
    Expr.literals (es ++ es') = Expr.literals es ++ Expr.literals es' := List.flatMap_append

theorem Expr.literals_cons (e : Expr) (es : List Expr) :
    Expr.literals (e :: es) = e.form.literals ++ Expr.literals es := List.flatMap_cons

/-! ## Places and types -/

theorem Span.ofJson?_toJson (s : Span) : Span.ofJson? s.toJson = some s := by
  unfold Span.ofJson? Span.toJson
  rw [Json.record?_object]
  · simp [Json.required?, Json.word32?_nat]
  · rfl
  · decide

theorem Span.split?_around (s : Span) (node : Json) :
    Span.split? (s.around node) = some (node, s) := by
  unfold Span.split? Span.around
  rw [Json.record?_object]
  · simp [Json.required?, Span.ofJson?_toJson]
  · rfl
  · decide

theorem Spanned.ofJson?_around {α : Type} {read : Json → Option α} {node : Json} {a : α}
    (h : read node = some a) (s : Span) : Spanned.ofJson? read (s.around node) = some ⟨a, s⟩ := by
  unfold Spanned.ofJson?
  rw [Span.split?_around]
  simp [h]

/-- Things at their places are read back as a list. -/
theorem Spanned.listOf?_map {α : Type} {read : Json → Option α} {write : α → Json}
    {l : List (Spanned α)} (h : ∀ s ∈ l, read (write s.node) = some s.node) :
    Json.listOf? (Spanned.ofJson? read) (.array (l.map (Spanned.toJson write))) = some l :=
  Json.listOf?_map fun s hs => Spanned.ofJson?_around (h s hs) s.span

mutual

theorem Ty.ofJson?_toJson : (t : Ty) → Ty.ofJson? t.toJson = some t
  | .named name => by simp [Ty.toJson, Ty.ofJson?, Json.tag]
  | .generic name args => by
    simp [Ty.toJson, Ty.ofJson?, Json.tag, Ty.listOfJson?_listToJson args]
  | .unit => by simp [Ty.toJson, Ty.ofJson?]

theorem Ty.listOfJson?_listToJson : (ts : List Ty) → Ty.listOfJson? (Ty.listToJson ts) = some ts
  | [] => by simp [Ty.listToJson, Ty.listOfJson?]
  | t :: ts => by
    simp [Ty.listToJson, Ty.listOfJson?, Ty.ofJson?_toJson t, Ty.listOfJson?_listToJson ts]

end

theorem Ty.listToJson_eq : (ts : List Ty) → Ty.listToJson ts = ts.map Ty.toJson
  | [] => by simp [Ty.listToJson]
  | t :: ts => by simp [Ty.listToJson, Ty.listToJson_eq ts]

theorem Ty.optional?_toJson (t : Option Ty) :
    Json.optional? Ty.ofJson? (some (.orNull (t.map Ty.toJson))) = some t :=
  Json.optional?_orNull fun t _ => ⟨by cases t <;> simp [Ty.toJson, Json.tag], t.ofJson?_toJson⟩

theorem optional?_string (s : Option String) :
    Json.optional? Json.string? (some (.orNull (s.map .string))) = some s :=
  Json.optional?_orNull fun _ _ => ⟨nofun, rfl⟩

/-! ## Literals, operators and patterns -/

theorem Literal.ofJson?_toJson {v : Literal} (h : AllFinite [v]) :
    Literal.ofJson? v.toJson = some v := by
  cases v with
  | int n => simp [Literal.ofJson?, Literal.toJson, Json.tag, Json.tagged?, Json.int64?_int]
  | float x =>
    have hx : x.isFinite = true := h x (List.mem_singleton_self _)
    simp [Literal.ofJson?, Literal.toJson, Json.tag, Json.tagged?, hx, Json.binary64?]
  | str s => simp [Literal.ofJson?, Literal.toJson, Json.tag, Json.tagged?, Json.string?]
  | bool b => simp [Literal.ofJson?, Literal.toJson, Json.tag, Json.tagged?, Json.bool?]
  | unit => simp [Literal.ofJson?, Literal.toJson, Json.tagged?]

theorem BinaryOp.ofJson?_tag (op : BinaryOp) : BinaryOp.ofJson? (.string op.tag) = some op := by
  cases op <;> rfl

theorem UnaryOp.ofJson?_tag (op : UnaryOp) : UnaryOp.ofJson? (.string op.tag) = some op := by
  cases op <;> rfl

theorem StatusCheck.ofJson?_tag (c : StatusCheck) :
    StatusCheck.ofJson? (.string c.tag) = some c := by
  cases c <;> rfl

theorem ResultField.ofJson?_tag (f : ResultField) :
    ResultField.ofJson? (.string f.tag) = some f := by
  cases f <;> rfl

theorem CallPath.ofJson?_toJson (p : CallPath) : CallPath.ofJson? p.toJson = some p := by
  unfold CallPath.ofJson? CallPath.toJson
  rw [Json.record?_object]
  · simp [Json.required?, optional?_string, Json.string?]
  · rfl
  · decide

mutual

theorem Pattern.ofJson?_toJson : (d : Nat) → (p : Pattern) → AllFinite p.literals →
    p.toJson.depth < d → Pattern.ofJson? d p.toJson = some p
  | 0, _, _, hd => absurd hd (Nat.not_lt_zero _)
  | _ + 1, .wildcard, _, _ => by simp [Pattern.ofJson?, Pattern.toJson, Json.tagged?]
  | _ + 1, .binding name, _, _ => by
    simp [Pattern.ofJson?, Pattern.toJson, Json.tag, Json.tagged?, Json.string?]
  | _ + 1, .literal value, hf, _ => by
    simp [Pattern.ofJson?, Pattern.toJson, Json.tag, Json.tagged?, Literal.ofJson?_toJson hf]
  | d + 1, .construct name args, hf, hd => by
    simp only [Pattern.toJson, Json.tag, Json.depth, Json.membersDepth, Json.itemsDepth] at hd
    have hargs := Pattern.listOf?_listToJson d args hf (by omega)
    simp [Pattern.ofJson?, Pattern.toJson, Json.tag, Json.tagged?, Json.string?, hargs]

theorem Pattern.listOf?_listToJson : (d : Nat) → (ps : List (Spanned Pattern)) →
    AllFinite (Pattern.listLiterals ps) → Json.itemsDepth (Pattern.listToJson ps) < d →
    Json.listOf? (Spanned.ofJson? (Pattern.ofJson? d)) (.array (Pattern.listToJson ps)) = some ps
  | _, [], _, _ => by
    unfold Pattern.listToJson
    exact Json.listOf?_nil _
  | d, ⟨p, span⟩ :: rest, hf, hd => by
    obtain ⟨hp, hrest⟩ := allFinite_append.mp hf
    simp only [Pattern.listToJson, Span.around, Json.itemsDepth, Json.depth,
      Json.membersDepth] at hd
    unfold Pattern.listToJson
    refine Json.listOf?_cons (Spanned.ofJson?_around ?_ span) ?_
    · exact Pattern.ofJson?_toJson d p hp (by omega)
    · exact Pattern.listOf?_listToJson d rest hrest (by omega)

end

/-! ## Expressions and statements -/

theorem Expr.ofJson?_node {b : Bool} {d : Nat} {form : ExprForm}
    (h : ExprForm.ofJson? b d form.toJson = some form) (span : Span) (type? : Option Ty) :
    Expr.ofJson? b (d + 1) (Expr.node span type? form).toJson = some (.node span type? form) := by
  unfold Expr.ofJson? Expr.toJson
  rw [Span.split?_around, Option.bind_eq_bind, Option.bind_some]
  dsimp only
  rw [Json.record?_object]
  · simp [Json.required?, Ty.optional?_toJson, h]
  · rfl
  · decide

theorem Arm.ofJson?_node {b : Bool} {d : Nat} {pattern : Spanned Pattern} {body : ArmBody}
    (hpattern : Pattern.ofJson? d pattern.node.toJson = some pattern.node)
    (hbody : ArmBody.ofJson? b d body.toJson = some body) (span : Span) :
    Arm.ofJson? b (d + 1) (Arm.node span pattern body).toJson = some (.node span pattern body) := by
  have hspanned := Spanned.ofJson?_around hpattern pattern.span
  unfold Arm.ofJson? Arm.toJson
  rw [Span.split?_around, Option.bind_eq_bind, Option.bind_some]
  dsimp only
  rw [Json.record?_object]
  · simp [Json.required?, Spanned.toJson, hspanned, hbody]
  · rfl
  · decide

theorem Stmt.ofJson?_node {b : Bool} {d : Nat} {form : StmtForm}
    (h : StmtForm.ofJson? b d form.toJson = some form) (span : Span) :
    Stmt.ofJson? b (d + 1) (Stmt.node span form).toJson = some (.node span form) := by
  unfold Stmt.ofJson? Stmt.toJson
  rw [Span.split?_around]
  simp [h]

mutual

theorem Expr.ofJson?_toJson (b : Bool) : (d : Nat) → (e : Expr) →
    AllFinite (Expr.literals e.walk) → e.toJson.depth < d → Expr.ofJson? b d e.toJson = some e
  | 0, _, _, hd => absurd hd (Nat.not_lt_zero _)
  | d + 1, .node span type? form, hf, hd => by
    simp only [Expr.walk, Expr.literals_cons, allFinite_append] at hf
    simp only [Expr.toJson, Span.around, Json.depth, Json.membersDepth] at hd
    exact Expr.ofJson?_node (ExprForm.ofJson?_toJson b d form hf.1 hf.2 (by omega)) span type?

theorem ExprForm.ofJson?_toJson (b : Bool) : (d : Nat) → (form : ExprForm) →
    AllFinite form.literals → AllFinite (Expr.literals form.walk) → form.toJson.depth < d →
    ExprForm.ofJson? b d form.toJson = some form
  | 0, _, _, _, hd => absurd hd (Nat.not_lt_zero _)
  | _ + 1, .literal value, hf, _, _ => by
    simp [ExprForm.ofJson?, ExprForm.toJson, Json.tag, Json.tagged?, Literal.ofJson?_toJson hf]
  | _ + 1, .ident name, _, _, _ => by
    simp [ExprForm.ofJson?, ExprForm.toJson, Json.tag, Json.tagged?, Json.string?]
  | d + 1, .call path args, _, hf, hd => by
    simp only [ExprForm.toJson, Json.tag, Json.depth, Json.membersDepth] at hd
    have hargs := Expr.listOf?_listToJson b d args hf (by omega)
    simp only [ExprForm.ofJson?, ExprForm.toJson, Json.tag, Json.tagged?, Option.bind_eq_bind,
      Option.bind_some]
    rw [Json.record?_object]
    · simp [Json.required?, Json.orDefault?, CallPath.ofJson?_toJson, hargs]
    · rfl
    · decide
  | d + 1, .propagate operand, _, hf, hd => by
    simp only [ExprForm.toJson, Json.tag, Json.depth, Json.membersDepth] at hd
    have hoperand := Expr.ofJson?_toJson b d operand hf (by omega)
    simp [ExprForm.ofJson?, ExprForm.toJson, Json.tag, Json.tagged?, hoperand]
  | d + 1, .matching scrutinee arms, hown, hf, hd => by
    simp only [ExprForm.walk, Expr.literals_append, allFinite_append] at hf
    simp only [ExprForm.toJson, Json.tag, Json.depth, Json.membersDepth, Json.itemsDepth] at hd
    have hscrutinee := Expr.ofJson?_toJson b d scrutinee hf.1 (by omega)
    have harms := Arm.listOf?_listToJson b d arms hown hf.2 (by omega)
    simp [ExprForm.ofJson?, ExprForm.toJson, Json.tag, Json.tagged?, hscrutinee, harms]
  | d + 1, .statusBranch subject check yes no, _, hf, hd => by
    simp only [ExprForm.walk_statusBranch, Expr.literals_append, allFinite_append] at hf
    simp only [ExprForm.toJson, Json.tag, Json.depth, Json.membersDepth] at hd
    have hsubject := Expr.ofJson?_toJson b d subject hf.1.1 (by omega)
    have hyes := Stmt.listOf?_listToJson b d yes hf.1.2 (by omega)
    have hno := Stmt.optional?_elseToJson b d no hf.2 (by omega)
    simp only [ExprForm.ofJson?, ExprForm.toJson, Json.tag, Json.tagged?, Option.bind_eq_bind,
      Option.bind_some]
    rw [Json.record?_object]
    · simp [Json.required?, StatusCheck.ofJson?_tag, hsubject, hyes, hno]
    · rfl
    · decide
  | _ + 1, .access field, _, _, _ => by
    simp [ExprForm.ofJson?, ExprForm.toJson, Json.tag, Json.tagged?, ResultField.ofJson?_tag]
  | d + 1, .construct name args, _, hf, hd => by
    simp only [ExprForm.toJson, Json.tag, Json.depth, Json.membersDepth, Json.itemsDepth] at hd
    have hargs := Expr.listOf?_listToJson b d args hf (by omega)
    simp [ExprForm.ofJson?, ExprForm.toJson, Json.tag, Json.tagged?, Json.string?, hargs]
  | d + 1, .binary lhs op rhs, _, hf, hd => by
    simp only [ExprForm.walk, Expr.literals_append, allFinite_append] at hf
    simp only [ExprForm.toJson, Json.tag, Json.depth, Json.membersDepth, Json.itemsDepth] at hd
    have hlhs := Expr.ofJson?_toJson b d lhs hf.1 (by omega)
    have hrhs := Expr.ofJson?_toJson b d rhs hf.2 (by omega)
    simp [ExprForm.ofJson?, ExprForm.toJson, Json.tag, Json.tagged?, BinaryOp.ofJson?_tag, hlhs,
      hrhs]
  | d + 1, .unary op operand, _, hf, hd => by
    simp only [ExprForm.toJson, Json.tag, Json.depth, Json.membersDepth, Json.itemsDepth] at hd
    have hoperand := Expr.ofJson?_toJson b d operand hf (by omega)
    simp [ExprForm.ofJson?, ExprForm.toJson, Json.tag, Json.tagged?, UnaryOp.ofJson?_tag, hoperand]
  | d + 1, .paren inner, _, hf, hd => by
    simp only [ExprForm.toJson, Json.tag, Json.depth, Json.membersDepth] at hd
    have hinner := Expr.ofJson?_toJson b d inner hf (by omega)
    simp [ExprForm.ofJson?, ExprForm.toJson, Json.tag, Json.tagged?, hinner]

theorem Expr.listOf?_listToJson (b : Bool) : (d : Nat) → (es : List Expr) →
    AllFinite (Expr.literals (Expr.walkAll es)) → Json.itemsDepth (Expr.listToJson es) < d →
    Json.listOf? (Expr.ofJson? b d) (.array (Expr.listToJson es)) = some es
  | _, [], _, _ => by
    unfold Expr.listToJson
    exact Json.listOf?_nil _
  | d, e :: es, hf, hd => by
    simp only [Expr.walkAll, Expr.literals_append, allFinite_append] at hf
    simp only [Expr.listToJson, Json.itemsDepth] at hd
    unfold Expr.listToJson
    exact Json.listOf?_cons (Expr.ofJson?_toJson b d e hf.1 (by omega))
      (Expr.listOf?_listToJson b d es hf.2 (by omega))

theorem Arm.listOf?_listToJson (b : Bool) : (d : Nat) → (arms : List Arm) →
    AllFinite (arms.flatMap fun a => a.pattern.literals) →
    AllFinite (Expr.literals (Arm.walkAll arms)) → Json.itemsDepth (Arm.listToJson arms) < d →
    Json.listOf? (Arm.ofJson? b d) (.array (Arm.listToJson arms)) = some arms
  | _, [], _, _, _ => by
    unfold Arm.listToJson
    exact Json.listOf?_nil _
  | 0, _ :: _, _, _, hd => absurd hd (Nat.not_lt_zero _)
  | d + 1, .node span pattern body :: arms, hown, hf, hd => by
    obtain ⟨hpattern, hown⟩ := allFinite_append.mp hown
    rw [Arm.walkAll_cons, Expr.literals_append, allFinite_append] at hf
    simp only [Arm.listToJson, Arm.toJson, Spanned.toJson, Span.around, Json.itemsDepth, Json.depth,
      Json.membersDepth] at hd
    have hp := Pattern.ofJson?_toJson d pattern.node hpattern (by omega)
    have hb := ArmBody.ofJson?_toJson b d body hf.1 (by omega)
    unfold Arm.listToJson
    exact Json.listOf?_cons (Arm.ofJson?_node hp hb span)
      (Arm.listOf?_listToJson b (d + 1) arms hown hf.2 (by omega))

theorem ArmBody.ofJson?_toJson (b : Bool) : (d : Nat) → (body : ArmBody) →
    AllFinite (Expr.literals body.walk) → body.toJson.depth < d →
    ArmBody.ofJson? b d body.toJson = some body
  | 0, _, _, hd => absurd hd (Nat.not_lt_zero _)
  | d + 1, .expr value, hf, hd => by
    simp only [ArmBody.toJson, Json.tag, Json.depth, Json.membersDepth] at hd
    have hvalue := Expr.ofJson?_toJson b d value hf (by omega)
    simp [ArmBody.ofJson?, ArmBody.toJson, Json.tag, Json.tagged?, hvalue]
  | d + 1, .block body, hf, hd => by
    simp only [ArmBody.toJson, Json.tag, Json.depth, Json.membersDepth] at hd
    have hbody := Stmt.listOf?_listToJson b d body hf (by omega)
    simp [ArmBody.ofJson?, ArmBody.toJson, Json.tag, Json.tagged?, hbody]

theorem StmtForm.ofJson?_toJson (b : Bool) : (d : Nat) → (form : StmtForm) →
    AllFinite (Expr.literals form.walk) → form.toJson.depth < d →
    StmtForm.ofJson? b d form.toJson = some form
  | 0, _, _, hd => absurd hd (Nat.not_lt_zero _)
  | d + 1, .bind name type? value, hf, hd => by
    simp only [StmtForm.toJson, Json.tag, Json.depth, Json.membersDepth] at hd
    have hvalue := Expr.ofJson?_toJson b d value hf (by omega)
    simp only [StmtForm.ofJson?, StmtForm.toJson, Json.tag, Json.tagged?, Option.bind_eq_bind,
      Option.bind_some]
    rw [Json.record?_object]
    · simp [Json.required?, Json.string?, Ty.optional?_toJson, hvalue]
    · rfl
    · decide
  | d + 1, .assign target value, hf, hd => by
    simp only [StmtForm.toJson, Json.tag, Json.depth, Json.membersDepth] at hd
    have hvalue := Expr.ofJson?_toJson b d value hf (by omega)
    simp only [StmtForm.ofJson?, StmtForm.toJson, Json.tag, Json.tagged?, Option.bind_eq_bind,
      Option.bind_some]
    rw [Json.record?_object]
    · simp [Json.required?, Json.string?, hvalue]
    · rfl
    · decide
  | d + 1, .expr value, hf, hd => by
    simp only [StmtForm.toJson, Json.tag, Json.depth, Json.membersDepth] at hd
    have hvalue := Expr.ofJson?_toJson b d value hf (by omega)
    simp [StmtForm.ofJson?, StmtForm.toJson, Json.tag, Json.tagged?, hvalue]
  | _ + 1, .ret none, _, _ => by
    simp [StmtForm.ofJson?, StmtForm.toJson, Json.tag, Json.tagged?, Json.optional?]
  | d + 1, .ret (some (.node span type? form)), hf, hd => by
    simp only [StmtForm.toJson, Json.tag, Json.depth, Json.membersDepth] at hd
    have hvalue := Expr.ofJson?_toJson b d (.node span type? form) hf (by omega)
    simp only [Expr.toJson, Span.around] at hvalue
    simp [StmtForm.ofJson?, StmtForm.toJson, Expr.toJson, Span.around, Json.tag, Json.tagged?,
      Json.optional?, hvalue]
  | d + 1, .branch condition yes no, hf, hd => by
    simp only [StmtForm.walk_branch, Expr.literals_append, allFinite_append] at hf
    simp only [StmtForm.toJson, Json.tag, Json.depth, Json.membersDepth] at hd
    have hcondition := Expr.ofJson?_toJson b d condition hf.1.1 (by omega)
    have hyes := Stmt.listOf?_listToJson b d yes hf.1.2 (by omega)
    have hno := Stmt.optional?_elseToJson b d no hf.2 (by omega)
    simp only [StmtForm.ofJson?, StmtForm.toJson, Json.tag, Json.tagged?, Option.bind_eq_bind,
      Option.bind_some]
    rw [Json.record?_object]
    · simp [Json.required?, hcondition, hyes, hno]
    · rfl
    · decide
  | d + 1, .loop condition body, hf, hd => by
    simp only [StmtForm.walk, Expr.literals_append, allFinite_append] at hf
    simp only [StmtForm.toJson, Json.tag, Json.depth, Json.membersDepth] at hd
    have hcondition := Expr.ofJson?_toJson b d condition hf.1 (by omega)
    have hbody := Stmt.listOf?_listToJson b d body hf.2 (by omega)
    simp only [StmtForm.ofJson?, StmtForm.toJson, Json.tag, Json.tagged?, Option.bind_eq_bind,
      Option.bind_some]
    rw [Json.record?_object]
    · simp [Json.required?, hcondition, hbody]
    · rfl
    · decide

theorem Stmt.listOf?_listToJson (b : Bool) : (d : Nat) → (ss : List Stmt) →
    AllFinite (Expr.literals (Stmt.walk ss)) → Json.itemsDepth (Stmt.listToJson ss) < d →
    Json.listOf? (Stmt.ofJson? b d) (.array (Stmt.listToJson ss)) = some ss
  | _, [], _, _ => by
    unfold Stmt.listToJson
    exact Json.listOf?_nil _
  | 0, _ :: _, _, hd => absurd hd (Nat.not_lt_zero _)
  | d + 1, .node span form :: rest, hf, hd => by
    simp only [Stmt.walk, Expr.literals_append, allFinite_append] at hf
    simp only [Stmt.listToJson, Stmt.toJson, Span.around, Json.itemsDepth, Json.depth,
      Json.membersDepth] at hd
    unfold Stmt.listToJson
    refine Json.listOf?_cons (Stmt.ofJson?_node ?_ span) ?_
    · exact StmtForm.ofJson?_toJson b d form hf.1 (by omega)
    · exact Stmt.listOf?_listToJson b (d + 1) rest hf.2 (by omega)

theorem Stmt.optional?_elseToJson (b : Bool) : (d : Nat) → (body : Option (List Stmt)) →
    AllFinite (Expr.literals (Stmt.walkElse body)) → (Stmt.elseToJson body).depth < d →
    Json.optional? (Json.listOf? (Stmt.ofJson? b d)) (some (Stmt.elseToJson body)) = some body
  | _, none, _, _ => by simp [Stmt.elseToJson, Json.optional?]
  | d, some ss, hf, hd => by
    simp only [Stmt.elseToJson, Json.depth] at hd
    have hss := Stmt.listOf?_listToJson b d ss hf (by omega)
    simp [Stmt.elseToJson, Json.optional?, hss]

end

/-! ## Declarations and files -/

theorem ImportTarget.ofJson?_toJson (t : ImportTarget) :
    ImportTarget.ofJson? t.toJson = some t := by
  cases t <;> rfl

theorem ImportItem.ofJson?_toJson (i : ImportItem) : ImportItem.ofJson? i.toJson = some i := by
  unfold ImportItem.ofJson? ImportItem.toJson
  rw [Json.record?_object]
  · simp [Json.required?, Json.string?, optional?_string]
  · rfl
  · decide

theorem ImportItems.ofJson?_toJson (i : ImportItems) : ImportItems.ofJson? i.toJson = some i := by
  cases i with
  | module => rfl
  | wildcard => rfl
  | names items =>
    have hitems := Spanned.listOf?_map fun i (_ : i ∈ items) => i.node.ofJson?_toJson
    simp [ImportItems.ofJson?, ImportItems.toJson, Json.tag, Json.tagged?, hitems]

theorem ImportDecl.ofJson?_toJson (i : ImportDecl) : ImportDecl.ofJson? i.toJson = some i := by
  unfold ImportDecl.ofJson? ImportDecl.toJson
  rw [Json.record?_object]
  · simp [Json.required?, Json.orDefault?, ImportTarget.ofJson?_toJson, ImportItems.ofJson?_toJson,
      optional?_string]
  · rfl
  · decide

theorem Param.ofJson?_toJson (p : Param) : Param.ofJson? p.toJson = some p := by
  unfold Param.ofJson? Param.toJson
  rw [Json.record?_object]
  · simp [Json.required?, Json.string?, Ty.ofJson?_toJson]
  · rfl
  · decide

theorem TypeDecl.ofJson?_toJson (t : TypeDecl) : TypeDecl.ofJson? t.toJson = some t := by
  have htypes := Json.listOf?_map fun (s : Ty) (_ : s ∈ t.convertsFrom) => s.ofJson?_toJson
  unfold TypeDecl.ofJson? TypeDecl.toJson
  rw [Json.record?_object]
  · simp [Json.required?, Json.orDefault?, Json.string?, Ty.listToJson_eq, htypes]
  · rfl
  · decide

theorem FunctionDecl.ofJson?_toJson (b : Bool) {d : Nat} {f : FunctionDecl}
    (hf : AllFinite (Expr.literals (Stmt.walk f.body))) (hd : f.toJson.depth < d) :
    FunctionDecl.ofJson? b d f.toJson = some f := by
  have hparams := Json.listOf?_map fun p (_ : p ∈ f.params) => p.ofJson?_toJson
  have heffects : Json.listOf? (Spanned.ofJson? Json.string?)
      (.array (f.effects.map (Spanned.toJson .string))) = some f.effects :=
    Spanned.listOf?_map fun _ _ => rfl
  have hspan : Json.optional? Span.ofJson? (some (.orNull (f.effectsSpan.map Span.toJson))) =
      some f.effectsSpan :=
    Json.optional?_orNull fun s _ => ⟨nofun, s.ofJson?_toJson⟩
  simp only [FunctionDecl.toJson, Json.depth, Json.membersDepth] at hd
  have hbody := Stmt.listOf?_listToJson b d f.body hf (by omega)
  unfold FunctionDecl.ofJson? FunctionDecl.toJson
  rw [Json.record?_object]
  · simp [Json.required?, Json.orDefault?, Json.string?, Json.bool?, Ty.ofJson?_toJson, hparams,
      heffects, hspan, hbody]
  · rfl
  · decide

theorem Declaration.ofJson?_toJson (b : Bool) {d : Nat} {c : Declaration}
    (hf : AllFinite c.literals) (hd : c.toJson.depth < d) :
    Declaration.ofJson? b d c.toJson = some c := by
  cases c with
  | function f =>
    simp only [Declaration.toJson, Json.tag, Json.depth, Json.membersDepth] at hd
    have hread := FunctionDecl.ofJson?_toJson b hf (by omega : f.toJson.depth < d)
    simp [Declaration.ofJson?, Declaration.toJson, Json.tag, Json.tagged?, hread]
  | type t =>
    simp [Declaration.ofJson?, Declaration.toJson, Json.tag, Json.tagged?, TypeDecl.ofJson?_toJson]

/-- A file is read back. -/
theorem SourceUnit.ofJsonWithin?_toJson (b : Bool) {d : Nat} {u : SourceUnit}
    (hf : AllFinite u.literals) (hd : u.toJson.depth < d) :
    ofJsonWithin? b d u.toJson = some u := by
  have hmodule : Json.optional? (Spanned.ofJson? Json.string?)
      (some (.orNull (u.moduleDecl.map (Spanned.toJson .string)))) = some u.moduleDecl :=
    Json.optional?_orNull fun s _ =>
      ⟨nofun, Spanned.ofJson?_around (show Json.string? (.string s.node) = _ from rfl) s.span⟩
  have himports := Spanned.listOf?_map fun i (_ : i ∈ u.imports) => i.node.ofJson?_toJson
  have hexports : Json.listOf? (Spanned.ofJson? Json.string?)
      (.array (u.exports.map (Spanned.toJson .string))) = some u.exports :=
    Spanned.listOf?_map fun _ _ => rfl
  have hdeclarations : Json.listOf? (Spanned.ofJson? (Declaration.ofJson? b d))
      (.array (u.declarations.map (Spanned.toJson Declaration.toJson))) = some u.declarations := by
    refine Spanned.listOf?_map fun c hc => ?_
    have hle : c.node.toJson.depth < (Spanned.toJson Declaration.toJson c).depth :=
      Json.depth_lt_of_mem_members (List.mem_cons_self (a := ("node", c.node.toJson)))
    have hitem :=
      Json.depth_le_itemsDepth (List.mem_map_of_mem (f := Spanned.toJson Declaration.toJson) hc)
    simp only [toJson, Json.depth, Json.membersDepth] at hd
    exact Declaration.ofJson?_toJson b (hf.of_mem_flatMap hc) (by omega)
  unfold ofJsonWithin? toJson
  rw [Json.record?_object]
  · simp [Json.required?, Json.orDefault?, Json.string?, hmodule, himports, hdeclarations, hexports,
      optional?_string]
  · rfl
  · decide

end EffectAudit
