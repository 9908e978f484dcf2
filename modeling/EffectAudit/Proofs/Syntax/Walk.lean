import EffectAudit.Proofs.Syntax.Occurrence

/-!
# Walking through a body

The listed expressions of a body are those that a plain walk comes to, in the same order, though the
list is made along with uses and places that a walk knows nothing of. The place that is listed with
an expression is that of the innermost statement around it: the statement evaluates the expression
itself, and not through a block inside it.

## Main definitions

* `Stmt.walk`: the expressions of a body, an expression before its parts
* `Stmt.Evaluates`, `EvaluatedAt`: the expressions of a statement that no block inside it has

## Main results

* `Stmt.exprs_eq_walk`: the listed expressions in their order
* `evaluatedAt_iff`: the places that are listed with them
-/

namespace EffectAudit

/-! ## Pre-order -/

mutual

/-- The expressions of an expression, itself first. -/
def Expr.walk : Expr → List Expr
  | .node span type? form => .node span type? form :: form.walk

/-- The expressions inside a form. -/
def ExprForm.walk : ExprForm → List Expr
  | .literal _ | .ident _ | .access _ => []
  | .call _ args | .construct _ args => Expr.walkAll args
  | .propagate e | .unary _ e | .paren e => e.walk
  | .binary lhs _ rhs => lhs.walk ++ rhs.walk
  | .matching scrutinee arms => scrutinee.walk ++ Arm.walkAll arms
  | .statusBranch subject _ yes none => subject.walk ++ Stmt.walk yes
  | .statusBranch subject _ yes (some no) => subject.walk ++ Stmt.walk yes ++ Stmt.walk no

/-- The expressions of some expressions. -/
def Expr.walkAll : List Expr → List Expr
  | [] => []
  | e :: es => e.walk ++ Expr.walkAll es

/-- The expressions of the bodies of arms. -/
def Arm.walkAll : List Arm → List Expr
  | [] => []
  | .node _ _ (.expr value) :: arms => value.walk ++ Arm.walkAll arms
  | .node _ _ (.block body) :: arms => Stmt.walk body ++ Arm.walkAll arms

/-- The expressions inside the form of a statement, its own before those of its blocks. -/
def StmtForm.walk : StmtForm → List Expr
  | .bind _ _ e | .assign _ e | .expr e | .ret (some e) => e.walk
  | .ret none => []
  | .branch condition yes none => condition.walk ++ Stmt.walk yes
  | .branch condition yes (some no) => condition.walk ++ Stmt.walk yes ++ Stmt.walk no
  | .loop condition body => condition.walk ++ Stmt.walk body

/-- The expressions of a body, statement by statement. -/
def Stmt.walk : List Stmt → List Expr
  | [] => []
  | .node _ form :: rest => form.walk ++ Stmt.walk rest

end

mutual

theorem Expr.map_occurrences (statement : Span) (use : Use) :
    (e : Expr) → (e.occurrences statement use).map (·.expr) = e.walk
  | .node span type? form => by
    simp [Expr.occurrences, Expr.walk, ExprForm.map_occurrences statement use form]

theorem ExprForm.map_occurrences (statement : Span) (use : Use) :
    (form : ExprForm) → (form.occurrences statement use).map (·.expr) = form.walk
  | .literal _ | .ident _ | .access _ => by simp [ExprForm.occurrences, ExprForm.walk]
  | .call _ args | .construct _ args => by
    simp [ExprForm.occurrences, ExprForm.walk, Expr.map_listOccurrences statement args]
  | .propagate e | .unary _ e | .paren e => by
    simp [ExprForm.occurrences, ExprForm.walk, Expr.map_occurrences statement _ e]
  | .binary lhs _ rhs => by
    simp [ExprForm.occurrences, ExprForm.walk, Expr.map_occurrences statement _ lhs,
      Expr.map_occurrences statement _ rhs]
  | .matching scrutinee arms => by
    simp [ExprForm.occurrences, ExprForm.walk, Expr.map_occurrences statement _ scrutinee,
      Arm.map_listOccurrences statement arms]
  | .statusBranch subject _ yes none => by
    simp [ExprForm.occurrences, ExprForm.walk, Expr.map_occurrences statement _ subject,
      Stmt.map_blockOccurrences yes]
  | .statusBranch subject _ yes (some no) => by
    simp [ExprForm.occurrences, ExprForm.walk, Expr.map_occurrences statement _ subject,
      Stmt.map_blockOccurrences yes, Stmt.map_blockOccurrences no]

theorem Expr.map_listOccurrences (statement : Span) :
    (es : List Expr) → (Expr.listOccurrences statement es).map (·.expr) = Expr.walkAll es
  | [] => by simp [Expr.listOccurrences, Expr.walkAll]
  | e :: es => by
    simp [Expr.listOccurrences, Expr.walkAll, Expr.map_occurrences statement _ e,
      Expr.map_listOccurrences statement es]

theorem Arm.map_listOccurrences (statement : Span) :
    (arms : List Arm) → (Arm.listOccurrences statement arms).map (·.expr) = Arm.walkAll arms
  | [] => by simp [Arm.listOccurrences, Arm.walkAll]
  | .node _ _ (.expr value) :: arms => by
    simp [Arm.listOccurrences, Arm.walkAll, Expr.map_occurrences statement _ value,
      Arm.map_listOccurrences statement arms]
  | .node _ _ (.block body) :: arms => by
    simp [Arm.listOccurrences, Arm.walkAll, Stmt.map_blockOccurrences body,
      Arm.map_listOccurrences statement arms]

theorem StmtForm.map_occurrences (statement : Span) :
    (form : StmtForm) → (form.occurrences statement).map (·.expr) = form.walk
  | .bind _ _ e | .assign _ e | .expr e | .ret (some e) => by
    simp [StmtForm.occurrences, StmtForm.walk, Expr.map_occurrences statement _ e]
  | .ret none => by simp [StmtForm.occurrences, StmtForm.walk]
  | .branch condition yes none => by
    simp [StmtForm.occurrences, StmtForm.walk, Expr.map_occurrences statement _ condition,
      Stmt.map_blockOccurrences yes]
  | .branch condition yes (some no) => by
    simp [StmtForm.occurrences, StmtForm.walk, Expr.map_occurrences statement _ condition,
      Stmt.map_blockOccurrences yes, Stmt.map_blockOccurrences no]
  | .loop condition body => by
    simp [StmtForm.occurrences, StmtForm.walk, Expr.map_occurrences statement _ condition,
      Stmt.map_blockOccurrences body]

theorem Stmt.map_blockOccurrences :
    (body : List Stmt) → (Stmt.blockOccurrences body).map (·.expr) = Stmt.walk body
  | [] => by simp [Stmt.blockOccurrences, Stmt.walk]
  | .node span form :: rest => by
    simp [Stmt.blockOccurrences, Stmt.occurrences, Stmt.walk, StmtForm.map_occurrences span form,
      Stmt.map_blockOccurrences rest]

end

/-- **The listed expressions are those of a plain walk, in its order.** -/
theorem Stmt.exprs_eq_walk (body : List Stmt) : Stmt.exprs body = Stmt.walk body :=
  Stmt.map_blockOccurrences body

/-! ## Innermost statements -/

/-- The place of a statement. -/
def Stmt.span : Stmt → Span
  | .node span _ => span

/-- The value of an arm that has no block. -/
def Arm.value? : Arm → Option Expr
  | .node _ _ (.expr value) => some value
  | .node _ _ (.block _) => none

/-- The expressions right inside a form, where no statement is between. -/
def ExprForm.parts : ExprForm → List Expr
  | .literal _ | .ident _ | .access _ => []
  | .call _ args | .construct _ args => args
  | .propagate e | .unary _ e | .paren e | .statusBranch e _ _ _ => [e]
  | .binary lhs _ rhs => [lhs, rhs]
  | .matching scrutinee arms => scrutinee :: arms.filterMap Arm.value?

/-- The expressions right inside a statement. -/
def Stmt.values : Stmt → List Expr
  | .node _ (.bind _ _ e) | .node _ (.assign _ e) | .node _ (.expr e) | .node _ (.ret (some e))
  | .node _ (.branch e _ _) | .node _ (.loop e _) => [e]
  | .node _ (.ret none) => []

/-- A statement evaluates an expression itself: there is no other statement between the two. -/
inductive Stmt.Evaluates (s : Stmt) : Expr → Prop
  | value {e : Expr} : e ∈ s.values → Evaluates s e
  | part {span : Span} {type? : Option Ty} {form : ExprForm} {e : Expr} :
      Evaluates s (.node span type? form) → e ∈ form.parts → Evaluates s e

theorem occurrences_subset_form {form : ExprForm} {e : Expr} (he : e ∈ form.parts)
    (statement : Span) (use : Use) :
    ∃ use', e.occurrences statement use' ⊆ form.occurrences statement use := by
  cases form with
  | literal _ => cases he
  | ident _ => cases he
  | access _ => cases he
  | call _ args => exact ⟨_, occurrences_subset_list he⟩
  | construct _ args => exact ⟨_, occurrences_subset_list he⟩
  | propagate e' =>
    obtain rfl := List.mem_singleton.mp he
    exact ⟨_, List.Subset.refl _⟩
  | unary _ e' =>
    obtain rfl := List.mem_singleton.mp he
    exact ⟨_, List.Subset.refl _⟩
  | paren e' =>
    obtain rfl := List.mem_singleton.mp he
    exact ⟨_, List.Subset.refl _⟩
  | statusBranch e' check yes no =>
    obtain rfl := List.mem_singleton.mp he
    cases no with
    | none => exact ⟨_, List.subset_append_left _ _⟩
    | some no =>
      exact ⟨_, List.subset_append_of_subset_left _ (List.subset_append_left _ _)⟩
  | binary lhs _ rhs =>
    rcases List.mem_cons.mp he with rfl | he
    · exact ⟨_, List.subset_append_left _ _⟩
    · obtain rfl := List.mem_singleton.mp he
      exact ⟨_, List.subset_append_right _ _⟩
  | matching scrutinee arms =>
    rcases List.mem_cons.mp he with rfl | he
    · exact ⟨_, List.subset_append_left _ _⟩
    · -- the value of an arm stands in the list of the arms
      obtain ⟨⟨armSpan, pattern, body⟩, harm, hvalue⟩ := List.mem_filterMap.mp he
      cases body with
      | block _ => cases hvalue
      | expr value =>
        cases hvalue
        have hsub : e.occurrences statement .plain ++ Arm.listOccurrences statement [] ⊆
            Arm.listOccurrences statement arms := occurrences_subset_arms harm
        exact ⟨_, List.subset_append_of_subset_right _ (List.append_subset.mp hsub).1⟩

theorem occurrences_subset_values {s : Stmt} {e : Expr} (he : e ∈ s.values) :
    ∃ use, e.occurrences s.span use ⊆ s.occurrences := by
  obtain ⟨span, form⟩ := s
  cases form with
  | bind _ _ e' =>
    obtain rfl := List.mem_singleton.mp he
    exact ⟨_, List.Subset.refl _⟩
  | assign _ e' =>
    obtain rfl := List.mem_singleton.mp he
    exact ⟨_, List.Subset.refl _⟩
  | expr e' =>
    obtain rfl := List.mem_singleton.mp he
    exact ⟨_, List.Subset.refl _⟩
  | ret value =>
    cases value with
    | none => cases he
    | some e' =>
      obtain rfl := List.mem_singleton.mp he
      exact ⟨_, List.Subset.refl _⟩
  | branch e' yes no =>
    obtain rfl := List.mem_singleton.mp he
    cases no with
    | none => exact ⟨_, List.subset_append_left _ _⟩
    | some no =>
      exact ⟨_, List.subset_append_of_subset_left _ (List.subset_append_left _ _)⟩
  | loop e' _ =>
    obtain rfl := List.mem_singleton.mp he
    exact ⟨_, List.subset_append_left _ _⟩

/-- What a statement evaluates is listed with its place. -/
theorem Stmt.Evaluates.occurrences_subset {s : Stmt} {e : Expr} (h : s.Evaluates e) :
    ∃ use, e.occurrences s.span use ⊆ s.occurrences := by
  induction h with
  | value he => exact occurrences_subset_values he
  | part _ he ih =>
    obtain ⟨use, ih⟩ := ih
    obtain ⟨use', hsub⟩ := occurrences_subset_form he s.span use
    exact ⟨use', List.Subset.trans hsub (List.cons_subset.mp ih).2⟩

section Statements

variable {body : List Stmt}

/-- A statement at the given place evaluates an expression. -/
def EvaluatedAt (body : List Stmt) (statement : Span) (e : Expr) : Prop :=
  ∃ s, Placed body (.stmt s) ∧ s.Evaluates e ∧ s.span = statement

theorem EvaluatedAt.value {s : Stmt} {e : Expr} (hs : Placed body (.stmt s)) (he : e ∈ s.values) :
    EvaluatedAt body s.span e := ⟨s, hs, .value he, rfl⟩

theorem EvaluatedAt.part {statement span : Span} {type? : Option Ty} {form : ExprForm} {e : Expr}
    (h : EvaluatedAt body statement (.node span type? form)) (he : e ∈ form.parts) :
    EvaluatedAt body statement e := by
  obtain ⟨s, hs, hev, hspan⟩ := h
  exact ⟨s, hs, hev.part he, hspan⟩

mutual

theorem evaluatedAt_of_mem_expr {statement : Span} {use : Use} :
    (e : Expr) → Placed body (.expr use e) → EvaluatedAt body statement e →
      ∀ o ∈ e.occurrences statement use, EvaluatedAt body o.statement o.expr
  | .node _ _ form, he, hev, o, ho => by
    rcases List.mem_cons.mp ho with rfl | ho
    · exact hev
    · exact evaluatedAt_of_mem_form form he hev o ho

theorem evaluatedAt_of_mem_form {statement span : Span} {type? : Option Ty} {use : Use} :
    (form : ExprForm) → Placed body (.expr use (.node span type? form)) →
      EvaluatedAt body statement (.node span type? form) →
      ∀ o ∈ form.occurrences statement use, EvaluatedAt body o.statement o.expr
  | .literal _, _, _, _, ho | .ident _, _, _, _, ho | .access _, _, _, _, ho =>
    absurd ho List.not_mem_nil
  | .call _ args, he, hev, o, ho =>
    evaluatedAt_of_mem_exprs args (fun _ => he.argument) (fun _ => hev.part) o ho
  | .construct _ args, he, hev, o, ho =>
    evaluatedAt_of_mem_exprs args (fun _ => he.constructed) (fun _ => hev.part) o ho
  | .propagate e, he, hev, o, ho =>
    evaluatedAt_of_mem_expr e he.operand (hev.part List.mem_cons_self) o ho
  | .unary _ e, he, hev, o, ho =>
    evaluatedAt_of_mem_expr e he.unary (hev.part List.mem_cons_self) o ho
  | .paren e, he, hev, o, ho =>
    evaluatedAt_of_mem_expr e he.paren (hev.part List.mem_cons_self) o ho
  | .binary lhs _ rhs, he, hev, o, ho => by
    rcases List.mem_append.mp ho with ho | ho
    · exact evaluatedAt_of_mem_expr lhs he.left (hev.part (by simp [ExprForm.parts])) o ho
    · exact evaluatedAt_of_mem_expr rhs he.right (hev.part (by simp [ExprForm.parts])) o ho
  | .matching e arms, he, hev, o, ho => by
    rcases List.mem_append.mp ho with ho | ho
    · exact evaluatedAt_of_mem_expr e he.scrutinee (hev.part List.mem_cons_self) o ho
    · refine evaluatedAt_of_mem_arms arms (fun _ _ _ => he.armValue) ?_
        (fun _ _ _ _ => he.armBody) o ho
      intro armSpan pattern value harm
      exact hev.part (List.mem_cons_of_mem _ (List.mem_filterMap.mpr ⟨_, harm, rfl⟩))
  | .statusBranch e _ yes none, he, hev, o, ho => by
    rcases List.mem_append.mp ho with ho | ho
    · exact evaluatedAt_of_mem_expr e he.subject (hev.part List.mem_cons_self) o ho
    · exact evaluatedAt_of_mem_block yes (fun _ => he.statusYes) o ho
  | .statusBranch e _ yes (some no), he, hev, o, ho => by
    rcases List.mem_append.mp ho with ho | ho
    · rcases List.mem_append.mp ho with ho | ho
      · exact evaluatedAt_of_mem_expr e he.subject (hev.part List.mem_cons_self) o ho
      · exact evaluatedAt_of_mem_block yes (fun _ => he.statusYes) o ho
    · exact evaluatedAt_of_mem_block no (fun _ => he.statusNo) o ho

theorem evaluatedAt_of_mem_exprs {statement : Span} :
    (es : List Expr) → (∀ e ∈ es, Placed body (.expr .plain e)) →
      (∀ e ∈ es, EvaluatedAt body statement e) →
      ∀ o ∈ Expr.listOccurrences statement es, EvaluatedAt body o.statement o.expr
  | [], _, _, _, ho => absurd ho List.not_mem_nil
  | e :: es, h, hev, o, ho => by
    rcases List.mem_append.mp ho with ho | ho
    · exact evaluatedAt_of_mem_expr e (h e List.mem_cons_self) (hev e List.mem_cons_self) o ho
    · exact evaluatedAt_of_mem_exprs es (fun a ha => h a (List.mem_cons_of_mem e ha))
        (fun a ha => hev a (List.mem_cons_of_mem e ha)) o ho

theorem evaluatedAt_of_mem_arms {statement : Span} :
    (arms : List Arm) →
      (∀ span pattern value, .node span pattern (.expr value) ∈ arms →
        Placed body (.expr .plain value)) →
      (∀ span pattern value, .node span pattern (.expr value) ∈ arms →
        EvaluatedAt body statement value) →
      (∀ span pattern inner t, .node span pattern (.block inner) ∈ arms → t ∈ inner →
        Placed body (.stmt t)) →
      ∀ o ∈ Arm.listOccurrences statement arms, EvaluatedAt body o.statement o.expr
  | [], _, _, _, _, ho => absurd ho List.not_mem_nil
  | .node span pattern (.expr value) :: arms, hv, hev, hb, o, ho => by
    rcases List.mem_append.mp ho with ho | ho
    · exact evaluatedAt_of_mem_expr value (hv span pattern value List.mem_cons_self)
        (hev span pattern value List.mem_cons_self) o ho
    · exact evaluatedAt_of_mem_arms arms (fun _ _ _ h => hv _ _ _ (List.mem_cons_of_mem _ h))
        (fun _ _ _ h => hev _ _ _ (List.mem_cons_of_mem _ h))
        (fun _ _ _ _ h => hb _ _ _ _ (List.mem_cons_of_mem _ h)) o ho
  | .node span pattern (.block inner) :: arms, hv, hev, hb, o, ho => by
    rcases List.mem_append.mp ho with ho | ho
    · exact evaluatedAt_of_mem_block inner
        (fun t => hb span pattern inner t List.mem_cons_self) o ho
    · exact evaluatedAt_of_mem_arms arms (fun _ _ _ h => hv _ _ _ (List.mem_cons_of_mem _ h))
        (fun _ _ _ h => hev _ _ _ (List.mem_cons_of_mem _ h))
        (fun _ _ _ _ h => hb _ _ _ _ (List.mem_cons_of_mem _ h)) o ho

theorem evaluatedAt_of_mem_stmt :
    (s : Stmt) → Placed body (.stmt s) → ∀ o ∈ s.occurrences, EvaluatedAt body o.statement o.expr
  | .node _ form, hs, o, ho => evaluatedAt_of_mem_stmtForm form hs o ho

theorem evaluatedAt_of_mem_stmtForm {span : Span} :
    (form : StmtForm) → Placed body (.stmt (.node span form)) →
      ∀ o ∈ form.occurrences span, EvaluatedAt body o.statement o.expr
  | .bind _ _ e, hs, o, ho =>
    evaluatedAt_of_mem_expr e hs.bound (.value hs List.mem_cons_self) o ho
  | .assign _ e, hs, o, ho =>
    evaluatedAt_of_mem_expr e hs.assigned (.value hs List.mem_cons_self) o ho
  | .expr e, hs, o, ho =>
    evaluatedAt_of_mem_expr e hs.evaluated (.value hs List.mem_cons_self) o ho
  | .ret none, _, _, ho => absurd ho List.not_mem_nil
  | .ret (some e), hs, o, ho =>
    evaluatedAt_of_mem_expr e hs.returned (.value hs List.mem_cons_self) o ho
  | .branch e yes none, hs, o, ho => by
    rcases List.mem_append.mp ho with ho | ho
    · exact evaluatedAt_of_mem_expr e hs.condition (.value hs List.mem_cons_self) o ho
    · exact evaluatedAt_of_mem_block yes (fun _ => hs.branchYes) o ho
  | .branch e yes (some no), hs, o, ho => by
    rcases List.mem_append.mp ho with ho | ho
    · rcases List.mem_append.mp ho with ho | ho
      · exact evaluatedAt_of_mem_expr e hs.condition (.value hs List.mem_cons_self) o ho
      · exact evaluatedAt_of_mem_block yes (fun _ => hs.branchYes) o ho
    · exact evaluatedAt_of_mem_block no (fun _ => hs.branchNo) o ho
  | .loop e inner, hs, o, ho => by
    rcases List.mem_append.mp ho with ho | ho
    · exact evaluatedAt_of_mem_expr e hs.loopCondition (.value hs List.mem_cons_self) o ho
    · exact evaluatedAt_of_mem_block inner (fun _ => hs.loopBody) o ho

theorem evaluatedAt_of_mem_block :
    (block : List Stmt) → (∀ s ∈ block, Placed body (.stmt s)) →
      ∀ o ∈ Stmt.blockOccurrences block, EvaluatedAt body o.statement o.expr
  | [], _, _, ho => absurd ho List.not_mem_nil
  | s :: ss, h, o, ho => by
    rcases List.mem_append.mp ho with ho | ho
    · exact evaluatedAt_of_mem_stmt s (h s List.mem_cons_self) o ho
    · exact evaluatedAt_of_mem_block ss (fun t ht => h t (List.mem_cons_of_mem s ht)) o ho

end

/-- **The place that is listed with an expression is that of the statement which evaluates it.** -/
theorem evaluatedAt_iff {statement : Span} {e : Expr} :
    EvaluatedAt body statement e ↔
      ∃ o ∈ Stmt.blockOccurrences body, o.expr = e ∧ o.statement = statement := by
  constructor
  · rintro ⟨s, hs, hev, rfl⟩
    obtain ⟨use, hsub⟩ := hev.occurrences_subset
    obtain ⟨span, type?, form⟩ := e
    have hlisted : s.occurrences ⊆ Stmt.blockOccurrences body := listed_of_placed hs
    exact ⟨⟨_, use, s.span⟩, hlisted (List.cons_subset.mp hsub).1, rfl, rfl⟩
  · rintro ⟨o, ho, rfl, rfl⟩
    exact evaluatedAt_of_mem_block body (fun _ => .statement) o ho

end Statements

end EffectAudit
