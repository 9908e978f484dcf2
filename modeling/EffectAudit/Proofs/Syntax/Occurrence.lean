import EffectAudit.Syntax.Occurrence

/-!
# Where expressions stand

The list of the expressions of a body is complete and says correctly what use is made of each. Both
are said by a relation that has one rule for each place of the syntax where an expression or a
statement may stand; a listed use then says what stands around the expression.

## Main definitions

* `Placed`: expressions and statements of a body, with the uses that are made of their values
* `Expr.Wraps`: an expression in parentheses

## Main results

* `placed_iff`: the listed expressions are those of the body
* `Placed.exists_propagate`, `Placed.exists_branch`: what stands around an expression
* `Coverage.isFull_ofArms_iff`: the arms that handle both outcomes
-/

namespace EffectAudit

/-- A piece of a body: a statement, or an expression of whose value the given use is made. -/
inductive Piece where
  | stmt (s : Stmt)
  | expr (use : Use) (e : Expr)

/-- The pieces of a body, by the places where they may stand. -/
inductive Placed (body : List Stmt) : Piece → Prop
  | statement {s} : s ∈ body → Placed body (.stmt s)
  | bound {span name type? e} : Placed body (.stmt (.node span (.bind name type? e))) →
      Placed body (.expr .plain e)
  | assigned {span target e} : Placed body (.stmt (.node span (.assign target e))) →
      Placed body (.expr .plain e)
  | evaluated {span e} : Placed body (.stmt (.node span (.expr e))) →
      Placed body (.expr .plain e)
  | returned {span e} : Placed body (.stmt (.node span (.ret (some e)))) →
      Placed body (.expr .plain e)
  | condition {span e yes no} : Placed body (.stmt (.node span (.branch e yes no))) →
      Placed body (.expr .plain e)
  | branchYes {span e yes no s} : Placed body (.stmt (.node span (.branch e yes no))) →
      s ∈ yes → Placed body (.stmt s)
  | branchNo {span e yes no s} : Placed body (.stmt (.node span (.branch e yes (some no)))) →
      s ∈ no → Placed body (.stmt s)
  | loopCondition {span e inner} : Placed body (.stmt (.node span (.loop e inner))) →
      Placed body (.expr .plain e)
  | loopBody {span e inner s} : Placed body (.stmt (.node span (.loop e inner))) →
      s ∈ inner → Placed body (.stmt s)
  | argument {use span type? path args e} :
      Placed body (.expr use (.node span type? (.call path args))) → e ∈ args →
      Placed body (.expr .plain e)
  | operand {use span type? e} : Placed body (.expr use (.node span type? (.propagate e))) →
      Placed body (.expr .propagated e)
  | scrutinee {use span type? e arms} :
      Placed body (.expr use (.node span type? (.matching e arms))) →
      Placed body (.expr (.scrutinized (.ofArms arms)) e)
  | armValue {use span type? e arms armSpan pattern value} :
      Placed body (.expr use (.node span type? (.matching e arms))) →
      .node armSpan pattern (.expr value) ∈ arms → Placed body (.expr .plain value)
  | armBody {use span type? e arms armSpan pattern inner s} :
      Placed body (.expr use (.node span type? (.matching e arms))) →
      .node armSpan pattern (.block inner) ∈ arms → s ∈ inner → Placed body (.stmt s)
  | subject {use span type? e check yes no} :
      Placed body (.expr use (.node span type? (.statusBranch e check yes no))) →
      Placed body (.expr (.scrutinized (.ofStatus check no.isSome)) e)
  | statusYes {use span type? e check yes no s} :
      Placed body (.expr use (.node span type? (.statusBranch e check yes no))) →
      s ∈ yes → Placed body (.stmt s)
  | statusNo {use span type? e check yes no s} :
      Placed body (.expr use (.node span type? (.statusBranch e check yes (some no)))) →
      s ∈ no → Placed body (.stmt s)
  | constructed {use span type? name args e} :
      Placed body (.expr use (.node span type? (.construct name args))) → e ∈ args →
      Placed body (.expr .plain e)
  | left {use span type? lhs op rhs} :
      Placed body (.expr use (.node span type? (.binary lhs op rhs))) →
      Placed body (.expr .plain lhs)
  | right {use span type? lhs op rhs} :
      Placed body (.expr use (.node span type? (.binary lhs op rhs))) →
      Placed body (.expr .plain rhs)
  | unary {use span type? op e} :
      Placed body (.expr use (.node span type? (.unary op e))) → Placed body (.expr .plain e)
  | paren {use span type? e} : Placed body (.expr use (.node span type? (.paren e))) →
      Placed body (.expr use e)

/-! ## Listed expressions -/

/-- The expressions of a piece are listed. -/
def Piece.Listed (os : List Occurrence) : Piece → Prop
  | .stmt s => s.occurrences ⊆ os
  | .expr use e => ∃ statement, e.occurrences statement use ⊆ os

theorem occurrences_subset_block {s : Stmt} {body : List Stmt} (h : s ∈ body) :
    s.occurrences ⊆ Stmt.blockOccurrences body := by
  induction body with
  | nil => exact absurd h List.not_mem_nil
  | cons t rest ih =>
    rw [Stmt.blockOccurrences]
    rcases List.mem_cons.mp h with rfl | h
    · exact List.subset_append_left _ _
    · exact List.subset_append_of_subset_right _ (ih h)

theorem occurrences_subset_list {e : Expr} {es : List Expr} {statement : Span} (h : e ∈ es) :
    e.occurrences statement .plain ⊆ Expr.listOccurrences statement es := by
  induction es with
  | nil => exact absurd h List.not_mem_nil
  | cons a rest ih =>
    rw [Expr.listOccurrences]
    rcases List.mem_cons.mp h with rfl | h
    · exact List.subset_append_left _ _
    · exact List.subset_append_of_subset_right _ (ih h)

theorem occurrences_subset_arms {arm : Arm} {arms : List Arm} {statement : Span} (h : arm ∈ arms) :
    Arm.listOccurrences statement [arm] ⊆ Arm.listOccurrences statement arms := by
  have hcons : ∀ (a : Arm) (rest : List Arm), Arm.listOccurrences statement (a :: rest) =
      Arm.listOccurrences statement [a] ++ Arm.listOccurrences statement rest := by
    rintro ⟨_, _, _ | _⟩ rest <;> simp [Arm.listOccurrences]
  induction arms with
  | nil => exact absurd h List.not_mem_nil
  | cons a rest ih =>
    rw [hcons a rest]
    rcases List.mem_cons.mp h with rfl | h
    · exact List.subset_append_left _ _
    · exact List.subset_append_of_subset_right _ (ih h)

theorem Piece.Listed.form {os : List Occurrence} {use : Use} {span : Span} {type? : Option Ty}
    {form : ExprForm} (h : Listed os (.expr use (.node span type? form))) :
    ∃ statement, form.occurrences statement use ⊆ os := by
  obtain ⟨statement, h⟩ := h
  exact ⟨statement, (List.cons_subset.mp h).2⟩

/-- The expressions of all pieces of a body are listed. -/
theorem listed_of_placed {body : List Stmt} {piece : Piece} (h : Placed body piece) :
    piece.Listed (Stmt.blockOccurrences body) := by
  -- the list of a piece holds the lists of the pieces inside it, one case for each place
  induction h with
  | statement hs => exact occurrences_subset_block hs
  | bound _ ih => exact ⟨_, ih⟩
  | assigned _ ih => exact ⟨_, ih⟩
  | evaluated _ ih => exact ⟨_, ih⟩
  | returned _ ih => exact ⟨_, ih⟩
  | @condition _ _ _ no _ ih =>
    cases no with
    | none => exact ⟨_, (List.append_subset.mp ih).1⟩
    | some no => exact ⟨_, (List.append_subset.mp (List.append_subset.mp ih).1).1⟩
  | @branchYes _ _ _ no _ _ hs ih =>
    refine List.Subset.trans (occurrences_subset_block hs) ?_
    cases no with
    | none => exact (List.append_subset.mp ih).2
    | some no => exact (List.append_subset.mp (List.append_subset.mp ih).1).2
  | branchNo _ hs ih =>
    exact List.Subset.trans (occurrences_subset_block hs) (List.append_subset.mp ih).2
  | loopCondition _ ih => exact ⟨_, (List.append_subset.mp ih).1⟩
  | loopBody _ hs ih =>
    exact List.Subset.trans (occurrences_subset_block hs) (List.append_subset.mp ih).2
  | argument _ he ih =>
    obtain ⟨statement, ih⟩ := ih.form
    exact ⟨statement, List.Subset.trans (occurrences_subset_list he) ih⟩
  | operand _ ih => exact ih.form
  | scrutinee _ ih =>
    obtain ⟨statement, ih⟩ := ih.form
    exact ⟨statement, (List.append_subset.mp ih).1⟩
  | armValue _ ha ih =>
    obtain ⟨statement, ih⟩ := ih.form
    have harm := List.Subset.trans (occurrences_subset_arms ha) (List.append_subset.mp ih).2
    exact ⟨statement, (List.append_subset.mp harm).1⟩
  | armBody _ ha hs ih =>
    obtain ⟨statement, ih⟩ := ih.form
    have harm := List.Subset.trans (occurrences_subset_arms ha) (List.append_subset.mp ih).2
    exact List.Subset.trans (occurrences_subset_block hs) (List.append_subset.mp harm).1
  | @subject _ _ _ _ _ _ no _ ih =>
    obtain ⟨statement, ih⟩ := ih.form
    cases no with
    | none => exact ⟨statement, (List.append_subset.mp ih).1⟩
    | some no => exact ⟨statement, (List.append_subset.mp (List.append_subset.mp ih).1).1⟩
  | @statusYes _ _ _ _ _ _ no _ _ hs ih =>
    obtain ⟨statement, ih⟩ := ih.form
    refine List.Subset.trans (occurrences_subset_block hs) ?_
    cases no with
    | none => exact (List.append_subset.mp ih).2
    | some no => exact (List.append_subset.mp (List.append_subset.mp ih).1).2
  | statusNo _ hs ih =>
    obtain ⟨statement, ih⟩ := ih.form
    exact List.Subset.trans (occurrences_subset_block hs) (List.append_subset.mp ih).2
  | constructed _ he ih =>
    obtain ⟨statement, ih⟩ := ih.form
    exact ⟨statement, List.Subset.trans (occurrences_subset_list he) ih⟩
  | left _ ih =>
    obtain ⟨statement, ih⟩ := ih.form
    exact ⟨statement, (List.append_subset.mp ih).1⟩
  | right _ ih =>
    obtain ⟨statement, ih⟩ := ih.form
    exact ⟨statement, (List.append_subset.mp ih).2⟩
  | unary _ ih => exact ih.form
  | paren _ ih => exact ih.form

/-! ## Placed expressions -/

section Listed

variable {body : List Stmt}

mutual

/-- What is listed of an expression of a body are expressions of the body. -/
theorem placed_of_mem_expr {statement : Span} {use : Use} :
    (e : Expr) → Placed body (.expr use e) → ∀ o ∈ e.occurrences statement use,
      Placed body (.expr o.use o.expr)
  | .node _ _ form, he, o, ho => by
    rcases List.mem_cons.mp ho with rfl | ho
    · exact he
    · exact placed_of_mem_form form he o ho

theorem placed_of_mem_form {statement span : Span} {type? : Option Ty} {use : Use} :
    (form : ExprForm) → Placed body (.expr use (.node span type? form)) →
      ∀ o ∈ form.occurrences statement use, Placed body (.expr o.use o.expr)
  | .literal _, _, _, ho => absurd ho List.not_mem_nil
  | .ident _, _, _, ho => absurd ho List.not_mem_nil
  | .call _ args, he, o, ho => placed_of_mem_exprs args (fun _ => he.argument) o ho
  | .propagate e, he, o, ho => placed_of_mem_expr e he.operand o ho
  | .matching e arms, he, o, ho => by
    rcases List.mem_append.mp ho with ho | ho
    · exact placed_of_mem_expr e he.scrutinee o ho
    · exact placed_of_mem_arms arms (fun _ _ _ => he.armValue) (fun _ _ _ _ => he.armBody) o ho
  | .statusBranch e _ yes none, he, o, ho => by
    rcases List.mem_append.mp ho with ho | ho
    · exact placed_of_mem_expr e he.subject o ho
    · exact placed_of_mem_block yes (fun _ => he.statusYes) o ho
  | .statusBranch e _ yes (some no), he, o, ho => by
    rcases List.mem_append.mp ho with ho | ho
    · rcases List.mem_append.mp ho with ho | ho
      · exact placed_of_mem_expr e he.subject o ho
      · exact placed_of_mem_block yes (fun _ => he.statusYes) o ho
    · exact placed_of_mem_block no (fun _ => he.statusNo) o ho
  | .access _, _, _, ho => absurd ho List.not_mem_nil
  | .construct _ args, he, o, ho => placed_of_mem_exprs args (fun _ => he.constructed) o ho
  | .binary lhs _ rhs, he, o, ho => by
    rcases List.mem_append.mp ho with ho | ho
    · exact placed_of_mem_expr lhs he.left o ho
    · exact placed_of_mem_expr rhs he.right o ho
  | .unary _ e, he, o, ho => placed_of_mem_expr e he.unary o ho
  | .paren e, he, o, ho => placed_of_mem_expr e he.paren o ho

theorem placed_of_mem_exprs {statement : Span} :
    (es : List Expr) → (∀ e ∈ es, Placed body (.expr .plain e)) →
      ∀ o ∈ Expr.listOccurrences statement es, Placed body (.expr o.use o.expr)
  | [], _, _, ho => absurd ho List.not_mem_nil
  | e :: es, h, o, ho => by
    rcases List.mem_append.mp ho with ho | ho
    · exact placed_of_mem_expr e (h e List.mem_cons_self) o ho
    · exact placed_of_mem_exprs es (fun a ha => h a (List.mem_cons_of_mem e ha)) o ho

theorem placed_of_mem_arms {statement : Span} :
    (arms : List Arm) →
      (∀ span pattern value, .node span pattern (.expr value) ∈ arms →
        Placed body (.expr .plain value)) →
      (∀ span pattern inner s, .node span pattern (.block inner) ∈ arms → s ∈ inner →
        Placed body (.stmt s)) →
      ∀ o ∈ Arm.listOccurrences statement arms, Placed body (.expr o.use o.expr)
  | [], _, _, _, ho => absurd ho List.not_mem_nil
  | .node span pattern (.expr value) :: arms, hv, hb, o, ho => by
    rcases List.mem_append.mp ho with ho | ho
    · exact placed_of_mem_expr value (hv span pattern value List.mem_cons_self) o ho
    · exact placed_of_mem_arms arms (fun _ _ _ h => hv _ _ _ (List.mem_cons_of_mem _ h))
        (fun _ _ _ _ h => hb _ _ _ _ (List.mem_cons_of_mem _ h)) o ho
  | .node span pattern (.block inner) :: arms, hv, hb, o, ho => by
    rcases List.mem_append.mp ho with ho | ho
    · exact placed_of_mem_block inner (fun s => hb span pattern inner s List.mem_cons_self) o ho
    · exact placed_of_mem_arms arms (fun _ _ _ h => hv _ _ _ (List.mem_cons_of_mem _ h))
        (fun _ _ _ _ h => hb _ _ _ _ (List.mem_cons_of_mem _ h)) o ho

theorem placed_of_mem_stmt :
    (s : Stmt) → Placed body (.stmt s) → ∀ o ∈ s.occurrences, Placed body (.expr o.use o.expr)
  | .node _ form, hs, o, ho => placed_of_mem_stmtForm form hs o ho

theorem placed_of_mem_stmtForm {span : Span} :
    (form : StmtForm) → Placed body (.stmt (.node span form)) →
      ∀ o ∈ form.occurrences span, Placed body (.expr o.use o.expr)
  | .bind _ _ e, hs, o, ho => placed_of_mem_expr e hs.bound o ho
  | .assign _ e, hs, o, ho => placed_of_mem_expr e hs.assigned o ho
  | .expr e, hs, o, ho => placed_of_mem_expr e hs.evaluated o ho
  | .ret none, _, _, ho => absurd ho List.not_mem_nil
  | .ret (some e), hs, o, ho => placed_of_mem_expr e hs.returned o ho
  | .branch e yes none, hs, o, ho => by
    rcases List.mem_append.mp ho with ho | ho
    · exact placed_of_mem_expr e hs.condition o ho
    · exact placed_of_mem_block yes (fun _ => hs.branchYes) o ho
  | .branch e yes (some no), hs, o, ho => by
    rcases List.mem_append.mp ho with ho | ho
    · rcases List.mem_append.mp ho with ho | ho
      · exact placed_of_mem_expr e hs.condition o ho
      · exact placed_of_mem_block yes (fun _ => hs.branchYes) o ho
    · exact placed_of_mem_block no (fun _ => hs.branchNo) o ho
  | .loop e inner, hs, o, ho => by
    rcases List.mem_append.mp ho with ho | ho
    · exact placed_of_mem_expr e hs.loopCondition o ho
    · exact placed_of_mem_block inner (fun _ => hs.loopBody) o ho

theorem placed_of_mem_block :
    (block : List Stmt) → (∀ s ∈ block, Placed body (.stmt s)) →
      ∀ o ∈ Stmt.blockOccurrences block, Placed body (.expr o.use o.expr)
  | [], _, _, ho => absurd ho List.not_mem_nil
  | s :: ss, h, o, ho => by
    rcases List.mem_append.mp ho with ho | ho
    · exact placed_of_mem_stmt s (h s List.mem_cons_self) o ho
    · exact placed_of_mem_block ss (fun t ht => h t (List.mem_cons_of_mem s ht)) o ho

end

end Listed

/-- **The expressions of a body are listed**, each with the use that is made of it, and no
others. -/
theorem placed_iff {body : List Stmt} {use : Use} {e : Expr} :
    Placed body (.expr use e) ↔ ∃ o ∈ Stmt.blockOccurrences body, o.use = use ∧ o.expr = e := by
  constructor
  · intro h
    obtain ⟨statement, hsub⟩ := listed_of_placed h
    obtain ⟨span, type?, form⟩ := e
    exact ⟨⟨_, use, statement⟩, (List.cons_subset.mp hsub).1, rfl, rfl⟩
  · rintro ⟨o, ho, rfl, rfl⟩
    exact placed_of_mem_block body (fun _ => .statement) o ho

/-! ## What stands around an expression -/

/-- An expression, possibly in parentheses. -/
inductive Expr.Wraps : Expr → Expr → Prop
  | self (e : Expr) : Wraps e e
  | paren {span : Span} {type? : Option Ty} {inner e : Expr} :
      Wraps inner e → Wraps (.node span type? (.paren inner)) e

theorem Expr.Wraps.of_paren {outer e : Expr} {span : Span} {type? : Option Ty}
    (h : outer.Wraps (.node span type? (.paren e))) : outer.Wraps e := by
  generalize hp : Expr.node span type? (.paren e) = inner at h
  induction h with
  | self _ => exact hp ▸ .paren (.self e)
  | paren _ ih => exact .paren (ih hp)

section Around

variable {body : List Stmt} {e : Expr}

/-- An expression that is propagated is the operand of a `?`, possibly in parentheses. -/
theorem Placed.exists_propagate (h : Placed body (.expr .propagated e)) :
    ∃ use span type? operand, Placed body (.expr use (.node span type? (.propagate operand))) ∧
      operand.Wraps e := by
  generalize hp : Piece.expr .propagated e = piece at h
  induction h generalizing e with
  | operand h _ =>
    cases hp
    exact ⟨_, _, _, _, h, .self _⟩
  | paren _ ih =>
    cases hp
    -- parentheses pass the use on, so the `?` is further out
    obtain ⟨use, span, type?, operand, hplaced, hwraps⟩ := ih rfl
    exact ⟨use, span, type?, operand, hplaced, hwraps.of_paren⟩
  | _ => cases hp

/-- An expression that is scrutinized is what a branch is on, possibly in parentheses. -/
theorem Placed.exists_branch {c : Coverage} (h : Placed body (.expr (.scrutinized c) e)) :
    (∃ use span type? scrutinee arms,
      Placed body (.expr use (.node span type? (.matching scrutinee arms))) ∧
        scrutinee.Wraps e ∧ c = .ofArms arms) ∨
    ∃ use span type? subject check yes no,
      Placed body (.expr use (.node span type? (.statusBranch subject check yes no))) ∧
        subject.Wraps e ∧ c = .ofStatus check no.isSome := by
  generalize hp : Piece.expr (.scrutinized c) e = piece at h
  induction h generalizing e with
  | scrutinee h _ =>
    cases hp
    exact .inl ⟨_, _, _, _, _, h, .self _, rfl⟩
  | subject h _ =>
    cases hp
    exact .inr ⟨_, _, _, _, _, _, _, h, .self _, rfl⟩
  | paren _ ih =>
    cases hp
    rcases ih rfl with ⟨_, _, _, _, _, hplaced, hwraps, hc⟩ |
      ⟨_, _, _, _, _, _, _, hplaced, hwraps, hc⟩
    · exact .inl ⟨_, _, _, _, _, hplaced, hwraps.of_paren, hc⟩
    · exact .inr ⟨_, _, _, _, _, _, _, hplaced, hwraps.of_paren, hc⟩
  | _ => cases hp

end Around

/-! ## Outcomes that are handled -/

/-- A pattern matches results with the given constructor. -/
def Pattern.Handles (outcome : String) : Pattern → Prop
  | .wildcard => True
  | .binding _ => True
  | .construct name _ => name = outcome
  | .literal _ => False

namespace Coverage

theorem ofPattern_iff (p : Pattern) :
    ((ofPattern p).ok = true ↔ p.Handles "Ok") ∧ ((ofPattern p).err = true ↔ p.Handles "Err") := by
  cases p with
  | wildcard => exact ⟨iff_of_true rfl trivial, iff_of_true rfl trivial⟩
  | binding name => exact ⟨iff_of_true rfl trivial, iff_of_true rfl trivial⟩
  | literal value => exact ⟨iff_of_false Bool.false_ne_true id, iff_of_false Bool.false_ne_true id⟩
  | construct name args => exact ⟨beq_iff_eq, beq_iff_eq⟩

/-- Arms handle both outcomes if one of them does, or one of them handles each. -/
theorem isFull_ofArms_iff {arms : List Arm} :
    (ofArms arms).isFull = true ↔
      (∃ arm ∈ arms, arm.pattern.Handles "Ok") ∧ ∃ arm ∈ arms, arm.pattern.Handles "Err" := by
  have h : ((ofArms arms).ok = true ↔ ∃ arm ∈ arms, arm.pattern.Handles "Ok") ∧
      ((ofArms arms).err = true ↔ ∃ arm ∈ arms, arm.pattern.Handles "Err") := by
    induction arms with
    | nil => simp [ofArms]
    | cons arm rest ih =>
      have hcons : ofArms (arm :: rest) = (ofPattern arm.pattern).union (ofArms rest) := rfl
      simp only [List.mem_cons, exists_eq_or_imp]
      rw [hcons, ← ih.1, ← ih.2, ← (ofPattern_iff arm.pattern).1,
        ← (ofPattern_iff arm.pattern).2]
      exact ⟨Bool.or_eq_true_iff, Bool.or_eq_true_iff⟩
  rw [isFull, Bool.and_eq_true, h.1, h.2]

theorem isFull_ofStatus_iff {check : StatusCheck} {hasElse : Bool} :
    (ofStatus check hasElse).isFull = true ↔ hasElse = true := by
  cases check <;> cases hasElse <;> decide

end Coverage

end EffectAudit
