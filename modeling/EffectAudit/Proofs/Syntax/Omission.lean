import EffectAudit.Proofs.Json.Omission
import EffectAudit.Proofs.Syntax.RoundTrip

/-!
# Files with fields left out

The form of a file has a value for every field. Fields that have a default can be left out where
they hold it, at any depth and in any combination, and the same file is read.

Readers recurse on a bound for the nesting, and the bound is taken from the value that is read; so
two readers with different bounds are compared here. What is left out only makes a value less deep.

## Main definitions

* `JsonKind`, `JsonKind.schema`: the kinds of values in the form of a file, and their defaults

## Main results

* `JsonKind.keeps_stmt`: omissions in the body of a function
* `SourceUnit.ofJson?_toJson_omits`: omissions in a file
-/

namespace EffectAudit

open Json (Refines)
open Json.Schema (refines_record? refines_tagged? Keeps)

/-- The kinds of values in the form of a file. -/
inductive JsonKind where
  /-- A value in which nothing can be left out. -/
  | plain
  | list (item : JsonKind)
  | tuple (items : List JsonKind)
  | spanned (node : JsonKind)
  | file
  | importDecl
  | importItems
  | importItem
  | declaration
  | function
  | typeDecl
  | stmt
  | letting
  | assigning
  | branching
  | looping
  | expr
  | exprForm
  | call
  | callPath
  | statusBranch
  | arm
  | armBody

namespace JsonKind

/-- The kind of a member, or of the content of a case. -/
def member : JsonKind → String → JsonKind
  | .spanned node, "node" => node
  | .file, "imports" => .list (.spanned .importDecl)
  | .file, "declarations" => .list (.spanned .declaration)
  | .importDecl, "items" => .importItems
  | .importItems, "Names" => .list (.spanned .importItem)
  | .declaration, "Function" => .function
  | .declaration, "Type" => .typeDecl
  | .function, "body" => .list (.spanned .stmt)
  | .stmt, "Let" => .letting
  | .stmt, "Assign" => .assigning
  | .stmt, "Expr" => .spanned .expr
  | .stmt, "Return" => .spanned .expr
  | .stmt, "If" => .branching
  | .stmt, "While" => .looping
  | .letting, "value" => .spanned .expr
  | .assigning, "value" => .spanned .expr
  | .branching, "condition" => .spanned .expr
  | .branching, "then_body" => .list (.spanned .stmt)
  | .branching, "else_body" => .list (.spanned .stmt)
  | .looping, "condition" => .spanned .expr
  | .looping, "body" => .list (.spanned .stmt)
  | .expr, "kind" => .exprForm
  | .exprForm, "Call" => .call
  | .exprForm, "Try" => .spanned .expr
  | .exprForm, "Match" => .tuple [.spanned .expr, .list (.spanned .arm)]
  | .exprForm, "StatusBranch" => .statusBranch
  | .exprForm, "Constructor" => .tuple [.plain, .list (.spanned .expr)]
  | .exprForm, "Binary" => .tuple [.spanned .expr, .plain, .spanned .expr]
  | .exprForm, "Unary" => .tuple [.plain, .spanned .expr]
  | .exprForm, "Paren" => .spanned .expr
  | .call, "path" => .callPath
  | .call, "args" => .list (.spanned .expr)
  | .statusBranch, "subject" => .spanned .expr
  | .statusBranch, "then_body" => .list (.spanned .stmt)
  | .statusBranch, "else_body" => .list (.spanned .stmt)
  | .arm, "body" => .armBody
  | .armBody, "Expr" => .spanned .expr
  | .armBody, "Block" => .list (.spanned .stmt)
  | _, _ => .plain

/-- The kind of an item. -/
def item : JsonKind → Nat → JsonKind
  | .list item, _ => item
  | .tuple items, i => items.getD i .plain
  | _, _ => .plain

/-- The default of a field. -/
def default? : JsonKind → String → Option Json
  | .file, "module" => some .null
  | .file, "imports" => some (.array [])
  | .file, "declarations" => some (.array [])
  | .file, "exports" => some (.array [])
  | .file, "source" => some .null
  | .importDecl, "items" => some (.string "Module")
  | .importDecl, "alias" => some .null
  | .importItem, "alias" => some .null
  | .function, "params" => some (.array [])
  | .function, "effects" => some (.array [])
  | .function, "effects_span" => some .null
  | .function, "is_pure" => some (.bool false)
  | .function, "body" => some (.array [])
  | .typeDecl, "converts_from" => some (.array [])
  | .letting, "ty" => some .null
  | .branching, "else_body" => some .null
  | .expr, "ty" => some .null
  | .call, "args" => some (.array [])
  | .callPath, "qualifier" => some .null
  | .statusBranch, "else_body" => some .null
  | _, _ => none

/-- The parts and the defaults in the form of a file. -/
def schema : Json.Schema JsonKind := ⟨member, item, default?⟩

theorem isPlain_plain : schema.IsPlain .plain := ⟨fun _ => rfl, fun _ => rfl, fun _ => rfl⟩

variable {α : Type} {k : JsonKind} {b : Bool} {d d' : Nat} {j j' : Json}

/-- Readers of values in which nothing can be left out. -/
theorem keeps_plain (read : Json → Option α) : schema.Keeps .plain d read read :=
  .of_isPlain isPlain_plain read

theorem omits_tag {case : String} (h : schema.Omits (k.member case) j j') :
    schema.Omits k (.tag case j) (.tag case j') :=
  .object (.keep h .nil)

theorem omits_around (h : schema.Omits k j j') (s : Span) :
    schema.Omits (.spanned k) (s.around j) (s.around j') :=
  .object (.keep h (.keep .refl .nil))

/-! ## Places, callees and patterns -/

/-- Something at its place, before and after omissions. -/
inductive OmitsNode (k : JsonKind) (d : Nat) : Json × Span → Json × Span → Prop
  | mk {node node' : Json} (span : Span) (h : schema.Omits k node node') (hd : node'.depth < d) :
    OmitsNode k d (node, span) (node', span)

theorem refines_split? (h : schema.Omits (.spanned k) j j') :
    Refines (OmitsNode k j'.depth) (Span.split? j) (Span.split? j') := by
  refine (refines_record? (fun _ => isPlain_plain) h true _).bind ?_
  rintro _ _ (_ | ⟨hnode, _ | ⟨hspan, ⟨⟩⟩⟩)
  refine (hnode.refines rfl).bind fun node node' hnode => ?_
  refine .bind_eq (hspan.refines_required? rfl (keeps_plain _)) fun span => ?_
  exact .some (.mk span hnode.1 hnode.2)

theorem keeps_spanned {read read' : Json → Option α} (h : schema.Keeps k d read read') :
    schema.Keeps (.spanned k) d (Spanned.ofJson? read) (Spanned.ofJson? read') := by
  intro j j' hj hd
  refine (refines_split? hj).bind ?_
  rintro _ _ ⟨span, hnode, hdepth⟩
  exact .bind_eq (h hnode (Nat.lt_trans hdepth hd)) fun _ => .refl _

theorem keeps_list {read read' : Json → Option α} (h : schema.Keeps k d read read') :
    schema.Keeps (.list k) d (Json.listOf? read) (Json.listOf? read') :=
  h.listOf? fun _ => rfl

theorem keeps_callPath : schema.Keeps .callPath d CallPath.ofJson? CallPath.ofJson? := by
  intro j j' h _
  refine (refines_record? (fun _ => isPlain_plain) h true _).bind ?_
  rintro _ _ (_ | ⟨hqualifier, _ | ⟨hname, ⟨⟩⟩⟩)
  refine .bind_eq (hqualifier.refines_optional? rfl (keeps_plain _)) fun _ => ?_
  exact .bind_eq (hname.refines_required? rfl (keeps_plain _)) fun _ => .refl _

/-- A pattern is read alike with every bound beyond its depth. -/
theorem keeps_pattern : (d d' : Nat) →
    schema.Keeps .plain d' (Pattern.ofJson? d) (Pattern.ofJson? d')
  | 0, _ => fun _ _ _ _ => .none
  | _, 0 => fun _ _ _ hd => absurd hd (Nat.not_lt_zero _)
  | d + 1, d' + 1 => by
    intro j j' h hd
    refine (refines_tagged? (fun _ => rfl) h).bind ?_
    rintro _ _ hcontent
    split
    · -- a wildcard, which may be written with `null`
      cases hcontent
      exact .refl _
    · obtain _ | ⟨hv, -⟩ := hcontent
      obtain rfl := hv.eq_null_iff.mp rfl
      exact .refl _
    · -- a binding
      obtain _ | ⟨hv, hdv⟩ := hcontent
      exact (keeps_plain _ hv hdv).map _
    · -- a literal
      obtain _ | ⟨hv, hdv⟩ := hcontent
      exact (keeps_plain _ hv hdv).map _
    · -- a construction
      obtain _ | ⟨hv, hdv⟩ := hcontent
      obtain rfl := hv.eq_of_isPlain isPlain_plain
      simp only [Json.depth, Json.itemsDepth] at hdv
      have hargs := keeps_list (keeps_spanned (keeps_pattern d d'))
      refine .bind_eq (.refl _) fun _ => ?_
      exact .bind_eq (hargs .refl (by omega)) fun _ => .refl _
    · exact .none

/-! ## Expressions and statements -/

theorem keeps_expr_succ (hform : schema.Keeps .exprForm d' (ExprForm.ofJson? b d)
    (ExprForm.ofJson? b d')) :
    schema.Keeps (.spanned .expr) (d' + 1) (Expr.ofJson? b (d + 1)) (Expr.ofJson? b (d' + 1)) := by
  intro j j' h hd
  refine (refines_split? h).bind ?_
  rintro _ _ ⟨span, hnode, hdepth⟩
  refine (refines_record? (fun _ => isPlain_plain) hnode true _).bind ?_
  rintro _ _ (_ | ⟨hkind, _ | ⟨htype, ⟨⟩⟩⟩)
  refine .bind_eq (htype.refines_optional? rfl (keeps_plain _)) fun _ => ?_
  exact .bind_eq (hkind.refines_required? rfl (hform.mono (by omega))) fun _ => .refl _

theorem keeps_arm_succ (hbody : schema.Keeps .armBody d' (ArmBody.ofJson? b d)
    (ArmBody.ofJson? b d')) :
    schema.Keeps (.spanned .arm) (d' + 1) (Arm.ofJson? b (d + 1)) (Arm.ofJson? b (d' + 1)) := by
  intro j j' h hd
  refine (refines_split? h).bind ?_
  rintro _ _ ⟨span, hnode, hdepth⟩
  refine (refines_record? (fun _ => isPlain_plain) hnode true _).bind ?_
  rintro _ _ (_ | ⟨hpattern, _ | ⟨hbody', ⟨⟩⟩⟩)
  have hread := (keeps_spanned (keeps_pattern d d')).to_isPlain isPlain_plain
  refine .bind_eq (hpattern.refines_required? rfl (hread.mono (by omega))) fun _ => ?_
  exact .bind_eq (hbody'.refines_required? rfl (hbody.mono (by omega))) fun _ => .refl _

theorem keeps_armBody_succ
    (hexpr : schema.Keeps (.spanned .expr) d' (Expr.ofJson? b d) (Expr.ofJson? b d'))
    (hstmt : schema.Keeps (.spanned .stmt) d' (Stmt.ofJson? b d) (Stmt.ofJson? b d')) :
    schema.Keeps .armBody (d' + 1) (ArmBody.ofJson? b (d + 1)) (ArmBody.ofJson? b (d' + 1)) := by
  intro j j' h hd
  refine (refines_tagged? (fun _ => rfl) h).bind ?_
  rintro _ _ hcontent
  split
  · obtain _ | ⟨hv, hdv⟩ := hcontent
    exact (hexpr hv (by omega)).map _
  · obtain _ | ⟨hv, hdv⟩ := hcontent
    exact (keeps_list hstmt hv (by omega)).map _
  · exact .none

theorem keeps_stmt_succ (hform : schema.Keeps .stmt d' (StmtForm.ofJson? b d)
    (StmtForm.ofJson? b d')) :
    schema.Keeps (.spanned .stmt) (d' + 1) (Stmt.ofJson? b (d + 1)) (Stmt.ofJson? b (d' + 1)) := by
  intro j j' h hd
  refine (refines_split? h).bind ?_
  rintro _ _ ⟨span, hnode, hdepth⟩
  exact .bind_eq (hform hnode (by omega)) fun _ => .refl _

theorem keeps_exprForm_succ
    (hexpr : schema.Keeps (.spanned .expr) d' (Expr.ofJson? b d) (Expr.ofJson? b d'))
    (harm : schema.Keeps (.spanned .arm) d' (Arm.ofJson? b d) (Arm.ofJson? b d'))
    (hstmt : schema.Keeps (.spanned .stmt) d' (Stmt.ofJson? b d) (Stmt.ofJson? b d')) :
    schema.Keeps .exprForm (d' + 1) (ExprForm.ofJson? b (d + 1)) (ExprForm.ofJson? b (d' + 1)) := by
  intro j j' h hd
  refine (refines_tagged? (fun _ => rfl) h).bind ?_
  rintro _ _ hcontent
  split
  · -- a literal
    obtain _ | ⟨hv, hdv⟩ := hcontent
    exact (keeps_plain _ hv hdv).map _
  · -- a name
    obtain _ | ⟨hv, hdv⟩ := hcontent
    exact (keeps_plain _ hv hdv).map _
  · -- a call
    obtain _ | ⟨hv, hdv⟩ := hcontent
    refine (refines_record? (fun _ => isPlain_plain) hv true _).bind ?_
    rintro _ _ (_ | ⟨hpath, _ | ⟨hargs, ⟨⟩⟩⟩)
    refine .bind_eq (hpath.refines_required? rfl keeps_callPath) fun _ => ?_
    have hlist := keeps_list hexpr
    exact .bind_eq (hargs.refines_orDefault? rfl rfl (hlist.mono (by omega))) fun _ => .refl _
  · -- a propagation
    obtain _ | ⟨hv, hdv⟩ := hcontent
    exact (hexpr hv (by omega)).map _
  · -- a match
    obtain _ | ⟨hv, hdv⟩ := hcontent
    obtain ⟨_, rfl, _ | ⟨hscrutinee, _ | ⟨harms, ⟨⟩⟩⟩⟩ := hv.exists_items
    simp only [Json.depth, Json.itemsDepth] at hdv
    refine .bind_eq (hexpr hscrutinee (by omega)) fun _ => ?_
    exact .bind_eq (keeps_list harm harms (by omega)) fun _ => .refl _
  · -- a status branch
    obtain _ | ⟨hv, hdv⟩ := hcontent
    refine (refines_record? (fun _ => isPlain_plain) hv true _).bind ?_
    rintro _ _ (_ | ⟨hsubject, _ | ⟨hcheck, _ | ⟨hyes, _ | ⟨hno, ⟨⟩⟩⟩⟩⟩)
    refine .bind_eq (hsubject.refines_required? rfl (hexpr.mono (by omega))) fun _ => ?_
    refine .bind_eq (hcheck.refines_required? rfl (keeps_plain _)) fun _ => ?_
    have hlist := keeps_list hstmt
    refine .bind_eq (hyes.refines_required? rfl (hlist.mono (by omega))) fun _ => ?_
    exact .bind_eq (hno.refines_optional? rfl (hlist.mono (by omega))) fun _ => .refl _
  · -- a part of a result
    obtain _ | ⟨hv, hdv⟩ := hcontent
    exact (keeps_plain _ hv hdv).map _
  · -- a construction
    obtain _ | ⟨hv, hdv⟩ := hcontent
    obtain ⟨_, rfl, _ | ⟨hname, _ | ⟨hargs, ⟨⟩⟩⟩⟩ := hv.exists_items
    simp only [Json.depth, Json.itemsDepth] at hdv
    refine .bind_eq (keeps_plain _ hname (Nat.lt_succ_self _)) fun _ => ?_
    exact .bind_eq (keeps_list hexpr hargs (by omega)) fun _ => .refl _
  · -- an operator between operands
    obtain _ | ⟨hv, hdv⟩ := hcontent
    obtain ⟨_, rfl, _ | ⟨hlhs, _ | ⟨hop, _ | ⟨hrhs, ⟨⟩⟩⟩⟩⟩ := hv.exists_items
    simp only [Json.depth, Json.itemsDepth] at hdv
    refine .bind_eq (hexpr hlhs (by omega)) fun _ => ?_
    refine .bind_eq (keeps_plain _ hop (Nat.lt_succ_self _)) fun _ => ?_
    exact .bind_eq (hexpr hrhs (by omega)) fun _ => .refl _
  · -- an operator before its operand
    obtain _ | ⟨hv, hdv⟩ := hcontent
    obtain ⟨_, rfl, _ | ⟨hop, _ | ⟨hoperand, ⟨⟩⟩⟩⟩ := hv.exists_items
    simp only [Json.depth, Json.itemsDepth] at hdv
    refine .bind_eq (keeps_plain _ hop (Nat.lt_succ_self _)) fun _ => ?_
    exact .bind_eq (hexpr hoperand (by omega)) fun _ => .refl _
  · -- parentheses
    obtain _ | ⟨hv, hdv⟩ := hcontent
    exact (hexpr hv (by omega)).map _
  · exact .none

theorem keeps_stmtForm_succ
    (hexpr : schema.Keeps (.spanned .expr) d' (Expr.ofJson? b d) (Expr.ofJson? b d'))
    (hstmt : schema.Keeps (.spanned .stmt) d' (Stmt.ofJson? b d) (Stmt.ofJson? b d')) :
    schema.Keeps .stmt (d' + 1) (StmtForm.ofJson? b (d + 1)) (StmtForm.ofJson? b (d' + 1)) := by
  intro j j' h hd
  refine (refines_tagged? (fun _ => rfl) h).bind ?_
  rintro _ _ hcontent
  split
  · -- a binding
    obtain _ | ⟨hv, hdv⟩ := hcontent
    refine (refines_record? (fun _ => isPlain_plain) hv b _).bind ?_
    rintro _ _ (_ | ⟨hname, _ | ⟨htype, _ | ⟨hvalue, ⟨⟩⟩⟩⟩)
    refine .bind_eq (hname.refines_required? rfl (keeps_plain _)) fun _ => ?_
    refine .bind_eq (htype.refines_optional? rfl (keeps_plain _)) fun _ => ?_
    exact .bind_eq (hvalue.refines_required? rfl (hexpr.mono (by omega))) fun _ => .refl _
  · -- an assignment
    obtain _ | ⟨hv, hdv⟩ := hcontent
    refine (refines_record? (fun _ => isPlain_plain) hv b _).bind ?_
    rintro _ _ (_ | ⟨htarget, _ | ⟨hvalue, ⟨⟩⟩⟩)
    refine .bind_eq (htarget.refines_required? rfl (keeps_plain _)) fun _ => ?_
    exact .bind_eq (hvalue.refines_required? rfl (hexpr.mono (by omega))) fun _ => .refl _
  · -- an expression
    obtain _ | ⟨hv, hdv⟩ := hcontent
    exact (hexpr hv (by omega)).map _
  · -- a return
    obtain _ | ⟨hv, hdv⟩ := hcontent
    exact (hexpr.optional? hv (by omega)).map _
  · -- a branch
    obtain _ | ⟨hv, hdv⟩ := hcontent
    refine (refines_record? (fun _ => isPlain_plain) hv b _).bind ?_
    rintro _ _ (_ | ⟨hcondition, _ | ⟨hyes, _ | ⟨hno, ⟨⟩⟩⟩⟩)
    refine .bind_eq (hcondition.refines_required? rfl (hexpr.mono (by omega))) fun _ => ?_
    have hlist := keeps_list hstmt
    refine .bind_eq (hyes.refines_required? rfl (hlist.mono (by omega))) fun _ => ?_
    exact .bind_eq (hno.refines_optional? rfl (hlist.mono (by omega))) fun _ => .refl _
  · -- a loop
    obtain _ | ⟨hv, hdv⟩ := hcontent
    refine (refines_record? (fun _ => isPlain_plain) hv b _).bind ?_
    rintro _ _ (_ | ⟨hcondition, _ | ⟨hbody, ⟨⟩⟩⟩)
    refine .bind_eq (hcondition.refines_required? rfl (hexpr.mono (by omega))) fun _ => ?_
    have hlist := keeps_list hstmt
    exact .bind_eq (hbody.refines_required? rfl (hlist.mono (by omega))) fun _ => .refl _
  · exact .none

-- Each reader is one level of recursion over the ones that it calls; the bound of the first reader
-- only has to be positive where something is read, so the recursion is on both bounds.
mutual

theorem keeps_expr (b : Bool) : (d d' : Nat) →
    schema.Keeps (.spanned .expr) d' (Expr.ofJson? b d) (Expr.ofJson? b d')
  | 0, _ => fun _ _ _ _ => .none
  | _, 0 => fun _ _ _ hd => absurd hd (Nat.not_lt_zero _)
  | d + 1, d' + 1 => keeps_expr_succ (keeps_exprForm b d d')

theorem keeps_exprForm (b : Bool) : (d d' : Nat) →
    schema.Keeps .exprForm d' (ExprForm.ofJson? b d) (ExprForm.ofJson? b d')
  | 0, _ => fun _ _ _ _ => .none
  | _, 0 => fun _ _ _ hd => absurd hd (Nat.not_lt_zero _)
  | d + 1, d' + 1 =>
    keeps_exprForm_succ (keeps_expr b d d') (keeps_arm b d d') (keeps_stmt b d d')

theorem keeps_arm (b : Bool) : (d d' : Nat) →
    schema.Keeps (.spanned .arm) d' (Arm.ofJson? b d) (Arm.ofJson? b d')
  | 0, _ => fun _ _ _ _ => .none
  | _, 0 => fun _ _ _ hd => absurd hd (Nat.not_lt_zero _)
  | d + 1, d' + 1 => keeps_arm_succ (keeps_armBody b d d')

theorem keeps_armBody (b : Bool) : (d d' : Nat) →
    schema.Keeps .armBody d' (ArmBody.ofJson? b d) (ArmBody.ofJson? b d')
  | 0, _ => fun _ _ _ _ => .none
  | _, 0 => fun _ _ _ hd => absurd hd (Nat.not_lt_zero _)
  | d + 1, d' + 1 => keeps_armBody_succ (keeps_expr b d d') (keeps_stmt b d d')

theorem keeps_stmt (b : Bool) : (d d' : Nat) →
    schema.Keeps (.spanned .stmt) d' (Stmt.ofJson? b d) (Stmt.ofJson? b d')
  | 0, _ => fun _ _ _ _ => .none
  | _, 0 => fun _ _ _ hd => absurd hd (Nat.not_lt_zero _)
  | d + 1, d' + 1 => keeps_stmt_succ (keeps_stmtForm b d d')

theorem keeps_stmtForm (b : Bool) : (d d' : Nat) →
    schema.Keeps .stmt d' (StmtForm.ofJson? b d) (StmtForm.ofJson? b d')
  | 0, _ => fun _ _ _ _ => .none
  | _, 0 => fun _ _ _ hd => absurd hd (Nat.not_lt_zero _)
  | d + 1, d' + 1 => keeps_stmtForm_succ (keeps_expr b d d') (keeps_stmt b d d')

end

/-! ## Declarations and files -/

theorem keeps_importItem : schema.Keeps .importItem d ImportItem.ofJson? ImportItem.ofJson? := by
  intro j j' h _
  refine (refines_record? (fun _ => isPlain_plain) h true _).bind ?_
  rintro _ _ (_ | ⟨hname, _ | ⟨hrename, ⟨⟩⟩⟩)
  refine .bind_eq (hname.refines_required? rfl (keeps_plain _)) fun _ => ?_
  exact .bind_eq (hrename.refines_optional? rfl (keeps_plain _)) fun _ => .refl _

theorem keeps_importItems :
    schema.Keeps .importItems d ImportItems.ofJson? ImportItems.ofJson? := by
  intro j j' h hd
  refine (refines_tagged? (fun _ => rfl) h).bind ?_
  rintro _ _ hcontent
  split
  · cases hcontent
    exact .refl _
  · obtain _ | ⟨hv, -⟩ := hcontent
    obtain rfl := hv.eq_null_iff.mp rfl
    exact .refl _
  · cases hcontent
    exact .refl _
  · obtain _ | ⟨hv, -⟩ := hcontent
    obtain rfl := hv.eq_null_iff.mp rfl
    exact .refl _
  · obtain _ | ⟨hv, hdv⟩ := hcontent
    exact (keeps_list (keeps_spanned keeps_importItem) hv hdv).map _
  · exact .none

theorem keeps_importDecl : schema.Keeps .importDecl d ImportDecl.ofJson? ImportDecl.ofJson? := by
  intro j j' h _
  refine (refines_record? (fun _ => isPlain_plain) h true _).bind ?_
  rintro _ _ (_ | ⟨htarget, _ | ⟨hitems, _ | ⟨hrename, ⟨⟩⟩⟩⟩)
  refine .bind_eq (htarget.refines_required? rfl (keeps_plain _)) fun _ => ?_
  refine .bind_eq (hitems.refines_orDefault? rfl rfl keeps_importItems) fun _ => ?_
  exact .bind_eq (hrename.refines_optional? rfl (keeps_plain _)) fun _ => .refl _

theorem keeps_typeDecl : schema.Keeps .typeDecl d TypeDecl.ofJson? TypeDecl.ofJson? := by
  intro j j' h _
  refine (refines_record? (fun _ => isPlain_plain) h true _).bind ?_
  rintro _ _ (_ | ⟨hname, _ | ⟨htypes, ⟨⟩⟩⟩)
  refine .bind_eq (hname.refines_required? rfl (keeps_plain _)) fun _ => ?_
  exact .bind_eq (htypes.refines_orDefault? rfl rfl (keeps_plain _)) fun _ => .refl _

theorem keeps_function (b : Bool) (d d' : Nat) :
    schema.Keeps .function d' (FunctionDecl.ofJson? b d) (FunctionDecl.ofJson? b d') := by
  intro j j' h hd
  refine (refines_record? (fun _ => isPlain_plain) h true _).bind ?_
  rintro _ _ (_ | ⟨hname, _ | ⟨hparams, _ | ⟨hreturns, _ | ⟨heffects, _ | ⟨hspan, _ | ⟨hpure,
    _ | ⟨hbody, ⟨⟩⟩⟩⟩⟩⟩⟩⟩)
  refine .bind_eq (hname.refines_required? rfl (keeps_plain _)) fun _ => ?_
  refine .bind_eq (hparams.refines_orDefault? rfl rfl (keeps_plain _)) fun _ => ?_
  refine .bind_eq (hreturns.refines_required? rfl (keeps_plain _)) fun _ => ?_
  refine .bind_eq (heffects.refines_orDefault? rfl rfl (keeps_plain _)) fun _ => ?_
  refine .bind_eq (hspan.refines_optional? rfl (keeps_plain _)) fun _ => ?_
  refine .bind_eq (hpure.refines_orDefault? rfl rfl (keeps_plain _)) fun _ => ?_
  have hlist := keeps_list (keeps_stmt b d d')
  exact .bind_eq (hbody.refines_orDefault? rfl rfl (hlist.mono (by omega))) fun _ => .refl _

theorem keeps_declaration (b : Bool) (d d' : Nat) :
    schema.Keeps .declaration d' (Declaration.ofJson? b d) (Declaration.ofJson? b d') := by
  intro j j' h hd
  refine (refines_tagged? (fun _ => rfl) h).bind ?_
  rintro _ _ hcontent
  split
  · obtain _ | ⟨hv, hdv⟩ := hcontent
    exact (keeps_function b d d' hv (by omega)).map _
  · obtain _ | ⟨hv, hdv⟩ := hcontent
    exact (keeps_typeDecl hv hdv).map _
  · exact .none

/-- A file is read alike with fields left out, and with another bound for the nesting. -/
theorem keeps_file (b : Bool) (d d' : Nat) :
    schema.Keeps .file d' (SourceUnit.ofJsonWithin? b d) (SourceUnit.ofJsonWithin? b d') := by
  intro j j' h hd
  refine (refines_record? (fun _ => isPlain_plain) h true _).bind ?_
  rintro _ _ (_ | ⟨hpath, _ | ⟨hmodule, _ | ⟨himports, _ | ⟨hdeclarations, _ | ⟨hexports,
    _ | ⟨hsource, ⟨⟩⟩⟩⟩⟩⟩⟩)
  refine .bind_eq (hpath.refines_required? rfl (keeps_plain _)) fun _ => ?_
  refine .bind_eq (hmodule.refines_optional? rfl (keeps_plain _)) fun _ => ?_
  refine .bind_eq (himports.refines_orDefault? rfl rfl
    (keeps_list (keeps_spanned keeps_importDecl))) fun _ => ?_
  have hlist := keeps_list (keeps_spanned (keeps_declaration b d d'))
  refine .bind_eq (hdeclarations.refines_orDefault? rfl rfl (hlist.mono (by omega))) fun _ => ?_
  refine .bind_eq (hexports.refines_orDefault? rfl rfl (keeps_plain _)) fun _ => ?_
  exact .bind_eq (hsource.refines_optional? rfl (keeps_plain _)) fun _ => .refl _

end JsonKind

/-- A file is read back from its form, and from every value that is its form without some of the
fields that hold their default. -/
theorem SourceUnit.ofJson?_toJson_omits (b : Bool) {u : SourceUnit} (h : AllFinite u.literals) :
    ofJson? b u.toJson = some u ∧
      ∀ j, JsonKind.schema.Omits .file u.toJson j → ofJson? b j = some u := by
  have hread : ofJson? b u.toJson = some u := ofJsonWithin?_toJson b h (Nat.lt_succ_self _)
  refine ⟨hread, fun j hj => ?_⟩
  obtain ⟨_, hj, rfl⟩ := JsonKind.keeps_file b _ _ hj (Nat.lt_succ_self _) u hread
  exact hj

/-- A file with one function, which calls another one with a number. -/
def callingFile : SourceUnit where
  path := ⟨"a.cdz"⟩
  declarations := [⟨.function {
    name := "main"
    returns := .unit
    body := [.node ⟨2, 5, 9⟩ (.expr (.node ⟨2, 5, 9⟩ none (.call ⟨none, "sleep"⟩
      [.node ⟨2, 11, 3⟩ none (.literal (.float ⟨0x3ff8000000000000⟩))])))] }, ⟨1, 1, 15⟩⟩]

/-- The form of the file without any of the fields that hold their default. -/
def callingForm : Json :=
  .object [("path", .string "a.cdz"), ("declarations", .array [
    Span.around ⟨1, 1, 15⟩ (.tag "Function" (.object [("name", .string "main"),
      ("return_type", .string "Unit"), ("body", .array [
        Span.around ⟨2, 5, 9⟩ (.tag "Expr" (Span.around ⟨2, 5, 9⟩ (.object [("kind",
          .tag "Call" (.object [("path", .object [("name", .string "sleep")]), ("args", .array [
            Span.around ⟨2, 11, 3⟩ (.object [("kind", .tag "Literal" (.tag "Float"
              (.number (.float ⟨0x3ff8000000000000⟩))))])])]))])))])]))])]

theorem callingFile_omits_callingForm :
    AllFinite callingFile.literals ∧ JsonKind.schema.Omits .file callingFile.toJson callingForm ∧
      SourceUnit.ofJson? true callingForm = some callingFile := by
  have hfinite : AllFinite callingFile.literals := by
    intro x hx
    obtain rfl : x = ⟨0x3ff8000000000000⟩ := by
      simpa [callingFile, SourceUnit.literals, Declaration.literals, Stmt.walk, StmtForm.walk,
        Expr.walk, Expr.walkAll, ExprForm.walk, Expr.literals, Expr.form, ExprForm.literals] using
        hx
    decide
  have hform : JsonKind.schema.Omits .file callingFile.toJson callingForm := by
    -- fields of the file
    refine .object (.keep .refl (.drop rfl (.drop rfl (.keep (.array (.cons ?_ .nil))
      (.drop rfl (.drop rfl .nil))))))
    -- fields of the function
    refine JsonKind.omits_around (JsonKind.omits_tag ?_) _
    refine .object (.keep .refl (.drop rfl (.keep .refl (.drop rfl (.drop rfl (.drop rfl
      (.keep (.array (.cons ?_ .nil)) .nil)))))))
    -- the type of the call
    refine JsonKind.omits_around (JsonKind.omits_tag ?_) _
    refine JsonKind.omits_around (.object (.keep (JsonKind.omits_tag ?_) (.drop rfl .nil))) _
    -- the qualifier of the callee and the type of the argument
    refine .object (.keep (.object (.drop rfl (.keep .refl .nil)))
      (.keep (.array (.cons ?_ .nil)) .nil))
    exact JsonKind.omits_around (.object (.keep .refl (.drop rfl .nil))) _
  exact ⟨hfinite, hform, (SourceUnit.ofJson?_toJson_omits true hfinite).2 _ hform⟩

end EffectAudit
