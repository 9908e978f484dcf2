import EffectAudit.Proofs.Lists
import EffectAudit.Proofs.Results.Discharge
import EffectAudit.Proofs.SymbolTable
import EffectAudit.Proofs.Syntax.Walk

/-!
# How results are judged

Each call that returns a result is recorded once, in the order of a walk through the body, and is
judged by what stands around it. Uses are handed down while the expressions of a body are listed;
here they are compared with the branches and the `?` that are written around a call. A call is told
by its place, so the calls of the body have to stand at different places.

## Main definitions

* `Scope.returnsResult`: calls that return a result
* `Propagated`, `TakenApart`: what may stand around a call
* `Judged`: the right record of a call

## Main results

* `judged_of_occurrence`: the record that is made from a listed call is right
* `LinkedProgram.spans_unusedResult`: results that are not handled are reported
* `LinkedProgram.discharge_judged`: what is recorded and reported about a file
-/

namespace EffectAudit

/-! ## What is recorded -/

/-- Whether an expression is a call that returns a result, by the type attached to it or else by the
function that the call is bound to. -/
def Scope.returnsResult (s : Scope) : Expr → Bool
  | .node _ (some t) (.call _ _) => t.isResult
  | .node _ none (.call path _) =>
    match s.resolve path with
    | .bound (.function g) => ((s.symbols.lookup? g).map (·.returns.isResult)).getD false
    | _ => false
  | _ => false

/-- An expression, possibly in parentheses, is the operand of a `?`. -/
def Propagated (body : List Stmt) (e : Expr) : Prop :=
  ∃ use span type? operand, Placed body (.expr use (.node span type? (.propagate operand))) ∧
    operand.Wraps e

/-- An expression, possibly in parentheses, is what a match with arms for both outcomes is on, or a
branch on the status that has an `else`. -/
def TakenApart (body : List Stmt) (e : Expr) : Prop :=
  (∃ use span type? scrutinee arms,
    Placed body (.expr use (.node span type? (.matching scrutinee arms))) ∧ scrutinee.Wraps e ∧
      (∃ arm ∈ arms, arm.pattern.Handles "Ok") ∧ ∃ arm ∈ arms, arm.pattern.Handles "Err") ∨
  ∃ use span type? subject check yes no,
    Placed body (.expr use (.node span type? (.statusBranch subject check yes (some no)))) ∧
      subject.Wraps e

/-- What is to be recorded of a call in the body of a function. -/
structure Judged (body : List Stmt) (function : FunctionRef) (e : Expr) (r : ResultCall) :
    Prop where
  function : r.function = function
  callee : e.callPath?.map CallPath.text = some r.callee
  span : r.span = e.span
  propagated : r.state = .propagated ↔ Propagated body e
  matched : r.state = .matched ↔ TakenApart body e
  undischarged : r.state = .undischarged ↔ ¬ Propagated body e ∧ ¬ TakenApart body e
  /-- The innermost statement around the call, and only it, stands at the recorded place. -/
  statement : ∀ place, EvaluatedAt body place e ↔ r.statement = place

/-! ## Uses and what stands around -/

namespace Discharge

theorem ofUse_eq_propagated {use : Use} : ofUse use = propagated ↔ use = .propagated := by
  cases use with
  | plain => simp [ofUse]
  | propagated => simp [ofUse]
  | scrutinized c => cases hfull : c.isFull <;> simp [ofUse, hfull]

theorem ofUse_eq_matched {use : Use} :
    ofUse use = matched ↔ ∃ c : Coverage, c.isFull = true ∧ use = .scrutinized c := by
  cases use with
  | plain => simp [ofUse]
  | propagated => simp [ofUse]
  | scrutinized c => cases hfull : c.isFull <;> simp [ofUse, hfull]

theorem eq_undischarged_iff {state : Discharge} :
    state = undischarged ↔ state ≠ propagated ∧ state ≠ matched := by
  cases state <;> decide

end Discharge

section Around

variable {body : List Stmt} {e : Expr}

/-- What is made of the value of parentheses is made of what they enclose. -/
theorem Placed.of_wraps {use : Use} {outer : Expr} (h : Placed body (.expr use outer))
    (hwraps : outer.Wraps e) : Placed body (.expr use e) := by
  induction hwraps with
  | self _ => exact h
  | paren _ ih => exact ih h.paren

theorem propagated_iff : Propagated body e ↔ Placed body (.expr .propagated e) := by
  constructor
  · rintro ⟨use, span, type?, operand, hplaced, hwraps⟩
    exact hplaced.operand.of_wraps hwraps
  · intro h
    exact h.exists_propagate

theorem takenApart_iff :
    TakenApart body e ↔ ∃ c : Coverage, c.isFull = true ∧
      Placed body (.expr (.scrutinized c) e) := by
  constructor
  · rintro (⟨use, span, type?, scrutinee, arms, hplaced, hwraps, hboth⟩ |
      ⟨use, span, type?, subject, check, yes, no, hplaced, hwraps⟩)
    · exact ⟨_, Coverage.isFull_ofArms_iff.mpr hboth, hplaced.scrutinee.of_wraps hwraps⟩
    · exact ⟨_, Coverage.isFull_ofStatus_iff.mpr rfl, hplaced.subject.of_wraps hwraps⟩
  · rintro ⟨c, hfull, hplaced⟩
    rcases hplaced.exists_branch with ⟨use, span, type?, scrutinee, arms, hmatch, hwraps, rfl⟩ |
      ⟨use, span, type?, subject, check, yes, no, hbranch, hwraps, rfl⟩
    · exact .inl ⟨_, _, _, _, _, hmatch, hwraps, Coverage.isFull_ofArms_iff.mp hfull⟩
    · obtain ⟨no', rfl⟩ := Option.isSome_iff_exists.mp (Coverage.isFull_ofStatus_iff.mp hfull)
      exact .inr ⟨_, _, _, _, _, _, _, hbranch, hwraps⟩

/-- Calls that stand at one place are one, if no two calls of the body do. -/
theorem eq_of_span (hspans : ((Stmt.calls body).map (·.span)).Nodup) {o o' : Occurrence}
    (ho : o ∈ Stmt.blockOccurrences body) (ho' : o' ∈ Stmt.blockOccurrences body)
    (hcall : o.expr.callPath?.isSome) (hcall' : o'.expr.callPath?.isSome)
    (hspan : o'.expr.span = o.expr.span) : o' = o := by
  let place (o : Occurrence) : Option Span := o.expr.callPath?.map fun _ => o.expr.span
  have hplaces : (Stmt.calls body).map (·.span) = (Stmt.blockOccurrences body).filterMap place := by
    simp only [Stmt.calls, Stmt.exprs, List.filterMap_map, List.map_filterMap, Option.map_map,
      Function.comp_def]
    rfl
  rw [hplaces] at hspans
  have hat : ∀ o : Occurrence, o.expr.callPath?.isSome → place o = some o.expr.span := by
    intro o ho
    obtain ⟨path, hpath⟩ := Option.isSome_iff_exists.mp ho
    simp [place, hpath]
  exact eq_of_nodup_filterMap hspans ho' ho (hspan ▸ hat o' hcall') (hat o hcall)

/-- **The record that is made from a listed call is right.** -/
theorem judged_of_occurrence (hspans : ((Stmt.calls body).map (·.span)).Nodup) {o : Occurrence}
    (ho : o ∈ Stmt.blockOccurrences body) {path : CallPath} (hpath : o.expr.callPath? = some path)
    (function : FunctionRef) :
    Judged body function o.expr ⟨function, path.text, o.expr.span, o.statement, .ofUse o.use⟩ := by
  have honly : ∀ o' ∈ Stmt.blockOccurrences body, o'.expr = o.expr → o' = o :=
    fun o' ho' he => eq_of_span hspans ho ho' (by simp [hpath]) (by simp [he, hpath]) (by rw [he])
  -- so the call has the listed use, and no other
  have huse : ∀ use, Placed body (.expr use o.expr) ↔ o.use = use := by
    intro use
    rw [placed_iff]
    constructor
    · rintro ⟨o', ho', rfl, he⟩
      rw [honly o' ho' he]
    · rintro rfl
      exact ⟨o, ho, rfl, rfl⟩
  have hpropagated : Discharge.ofUse o.use = .propagated ↔ Propagated body o.expr := by
    rw [Discharge.ofUse_eq_propagated, propagated_iff, huse]
  have hmatched : Discharge.ofUse o.use = .matched ↔ TakenApart body o.expr := by
    simp only [Discharge.ofUse_eq_matched, takenApart_iff, huse]
  refine ⟨rfl, by simp [hpath], rfl, hpropagated, hmatched, ?_, ?_⟩
  · rw [← hpropagated, ← hmatched]
    exact Discharge.eq_undischarged_iff
  · intro place
    rw [evaluatedAt_iff]
    constructor
    · rintro ⟨o', ho', he, rfl⟩
      rw [honly o' ho' he]
    · rintro rfl
      exact ⟨o, ho, rfl, rfl⟩

end Around

/-! ## The records of a function -/

theorem Scope.exists_callPath_of_returnsResult {s : Scope} {e : Expr}
    (h : s.returnsResult e = true) : ∃ path, e.callPath? = some path := by
  obtain ⟨span, type?, form⟩ := e
  cases form with
  | call path args => exact ⟨path, rfl⟩
  | _ => cases type? <;> cases h

namespace LinkedProgram

variable {p : LinkedProgram} {s : Scope} {d : FunctionDecl}

/-- Records are made of calls, by the callee as it is written. -/
theorem callee_of_resultCallee? {b : BoundFunction} {e : Expr} {callee : String}
    (h : p.resultCallee? b e = some callee) : e.callPath?.map CallPath.text = some callee := by
  unfold resultCallee? at h
  split at h
  · rename_i path hpath
    split at h
    · rw [hpath, Option.map_some, h]
    · cases h
  · cases h

/-- The calls for which a record is made are those that return a result. -/
theorem resultCallee?_eq (hsymbols : p.symbols = s.symbols)
    (hspans : ((Stmt.calls d.body).map (·.span)).Nodup) {use : Use} {e : Expr}
    (he : Placed d.body (.expr use e)) :
    p.resultCallee? (s.boundFunction d) e =
      if s.returnsResult e = true then e.callPath?.map CallPath.text else none := by
  obtain ⟨span, type?, form⟩ := e
  cases form with
  | call path args =>
    cases type? with
    | some t => rfl
    | none =>
      have hcall : ⟨path, span⟩ ∈ Stmt.calls d.body := mem_calls_iff.mpr ⟨use, none, args, he⟩
      have hcallee : ∀ callee, (s.boundFunction d).calleeAt? span = some callee ↔
          s.resolve path = .bound callee := fun _ => Scope.calleeAt?_boundFunction hspans hcall
      -- the function that is found at the place is the one that the call is bound to
      have htype : ((p.callType? (s.boundFunction d) span).map (·.isResult)).getD false =
          s.returnsResult (.node span none (.call path args)) := by
        cases hat : (s.boundFunction d).calleeAt? span with
        | none =>
          have hunbound : ∀ callee, s.resolve path ≠ .bound callee := by
            intro callee hr
            rw [(hcallee callee).mpr hr] at hat
            cases hat
          cases hr : s.resolve path with
          | bound callee => exact absurd hr (hunbound callee)
          | skipped => simp [callType?, Scope.returnsResult, hat, hr]
          | refused _ => simp [callType?, Scope.returnsResult, hat, hr]
        | some callee =>
          have hr := (hcallee callee).mp hat
          cases callee with
          | operation _ => simp [callType?, Scope.returnsResult, hat, hr]
          | function g =>
            simp [callType?, signature?, Scope.returnsResult, hat, hr, hsymbols, Function.comp_def]
      rw [← htype]
      rfl
  | _ => cases type? <;> rfl

/-- The records of a body are those of its calls that return a result, in the order of a walk. -/
theorem forall₂_judged (hsymbols : p.symbols = s.symbols)
    (hspans : ((Stmt.calls d.body).map (·.span)).Nodup) :
    List.Forall₂ (Judged d.body (s.boundFunction d).ref)
      ((Stmt.walk d.body).filter s.returnsResult)
      ((Stmt.blockOccurrences d.body).filterMap (p.resultCall? (s.boundFunction d))) := by
  rw [← Stmt.map_blockOccurrences]
  have hcallee : ∀ o ∈ Stmt.blockOccurrences d.body,
      p.resultCallee? (s.boundFunction d) o.expr =
        if s.returnsResult o.expr = true then o.expr.callPath?.map CallPath.text else none :=
    fun o ho => resultCallee?_eq hsymbols hspans (placed_iff.mpr ⟨o, ho, rfl, rfl⟩)
  apply forall₂_filter_filterMap
  · intro o ho hnot
    simp [resultCall?, hcallee o ho, hnot]
  · intro o ho hyes
    obtain ⟨path, hpath⟩ := Scope.exists_callPath_of_returnsResult hyes
    refine ⟨_, ?_, judged_of_occurrence hspans ho hpath _⟩
    simp [resultCall?, hcallee o ho, hyes, hpath]

/-! ## The records of a file -/

/-- Either nothing is said about a function, or it is bound completely and its body is judged. -/
theorem functionDischarge_cases (p : LinkedProgram) (binding : FileBinding) (file : FileKey)
    (d : FunctionDecl) :
    p.functionDischarge binding file d = {} ∨
      ∃ signature b, p.signature? ⟨file, d.name⟩ = some signature ∧
        binding.function? ⟨file, d.name⟩ = some b ∧ b.isPoisoned = false ∧
        p.functionDischarge binding file d =
          { calls := (Stmt.blockOccurrences d.body).filterMap (p.resultCall? b)
            diagnostics := (Stmt.blockOccurrences d.body).flatMap
              (p.occurrenceFaults signature b) } := by
  unfold functionDischarge
  cases hsignature : p.signature? ⟨file, d.name⟩ with
  | none => exact .inl rfl
  | some signature =>
    cases hb : binding.function? ⟨file, d.name⟩ with
    | none => exact .inl rfl
    | some b =>
      cases hpoisoned : b.isPoisoned with
      | true => simp [hpoisoned]
      | false =>
        refine .inr ⟨signature, b, rfl, rfl, hpoisoned, ?_⟩
        simp [hpoisoned]

theorem function_of_mem_functionDischarge {binding : FileBinding} {file : FileKey} {r : ResultCall}
    (h : r ∈ (p.functionDischarge binding file d).calls) :
    r.function = ⟨file, d.name⟩ ∧
      ∃ b, binding.function? ⟨file, d.name⟩ = some b ∧ b.isPoisoned = false := by
  rcases p.functionDischarge_cases binding file d with hnone | ⟨signature, b, -, hb, hpoisoned, heq⟩
  · rw [hnone] at h
    exact absurd h List.not_mem_nil
  · rw [heq] at h
    obtain ⟨o, -, hr⟩ := List.mem_filterMap.mp h
    obtain ⟨callee, -, rfl⟩ := Option.map_eq_some_iff.mp hr
    exact ⟨(FileBinding.of_function? hb).2, b, hb, hpoisoned⟩

/-- The records of one function of a file. -/
theorem filter_calls_fileDischarge {binding : FileBinding} {u : SourceUnit}
    {f : Spanned FunctionDecl} (hf : f ∈ firstDeclarations u.functions) :
    (p.fileDischarge binding u).calls.filter (·.function == ⟨u.path.key, f.node.name⟩) =
      (p.functionDischarge binding u.path.key f.node).calls := by
  have hnodup := nodup_firstDeclarations u.functions
  simp only [fileDischarge, List.flatMap_map, List.filter_flatMap]
  rw [flatMap_eq_of_unique (List.Nodup.of_map _ hnodup) hf]
  · refine List.filter_eq_self.mpr fun r hr => ?_
    simp [(function_of_mem_functionDischarge hr).1]
  · -- a function that is declared under another name has other records
    intro g hg hne
    refine List.filter_eq_nil_iff.mpr fun r hr => ?_
    have hname : g.node.name ≠ f.node.name := fun h =>
      hne (List.inj_on_of_nodup_map hnodup hg hf h)
    simp [(function_of_mem_functionDischarge hr).1, hname]

theorem rule_of_propagationFinding? {signature : Signature} {b : BoundFunction} {operand : Expr}
    {finding : Finding} (h : p.propagationFinding? signature b operand = some finding) :
    finding.rule = .errorPropagationMisuse := by
  unfold propagationFinding? at h
  split at h
  · cases h
    rfl
  · split at h
    · cases h
    · split at h
      · cases h
        rfl
      · split at h
        · cases h
        · cases h
          rfl

theorem rule_of_propagationFault? {signature : Signature} {b : BoundFunction} {e : Expr}
    {finding : Finding} (h : p.propagationFault? signature b e = some finding) :
    finding.rule = .errorPropagationMisuse := by
  unfold propagationFault? at h
  split at h
  · exact rule_of_propagationFinding? h
  · cases h

theorem rule_of_resultFault? {b : BoundFunction} {o : Occurrence} {finding : Finding}
    (h : p.resultFault? b o = some finding) : finding.rule = .unusedResult := by
  obtain ⟨callee, -, hfault⟩ := Option.bind_eq_some_iff.mp h
  cases huse : o.use with
  | plain =>
    rw [huse] at hfault
    cases hfault
    rfl
  | propagated =>
    rw [huse] at hfault
    cases hfault
  | scrutinized c =>
    rw [huse, Use.fault?] at hfault
    split at hfault
    · cases hfault
    · cases hfault
      rfl

/-- An expression is reported for its result if it is recorded as one that is not handled. -/
theorem spans_occurrenceFaults (p : LinkedProgram) (signature : Signature) (b : BoundFunction)
    (o : Occurrence) :
    ((p.occurrenceFaults signature b o).filter (·.rule == .unusedResult)).map (·.location.span) =
      ((p.resultCall? b o).toList.filter (·.state == .undischarged)).map (·.span) := by
  have hother : ((p.propagationFault? signature b o.expr).toList.map fun finding =>
      finding.report signature.path o.expr.span).filter (·.rule == .unusedResult) = [] := by
    refine List.filter_eq_nil_iff.mpr fun diagnostic h => ?_
    obtain ⟨finding, hfinding, rfl⟩ := List.mem_map.mp h
    simp [Finding.report, rule_of_propagationFault? (Option.mem_toList.mp hfinding)]
  rw [occurrenceFaults, List.map_append, List.filter_append, hother, List.append_nil]
  unfold resultFault? resultCall?
  cases p.resultCallee? b o.expr with
  | none => rfl
  | some callee =>
    cases o.use with
    | plain => rfl
    | propagated => rfl
    | scrutinized c =>
      cases hfull : c.isFull <;>
        simp [Use.fault?, Discharge.ofUse, hfull, Finding.report, Finding.rule]

/-- **Results that are not handled are reported**, each once, and no other result is. -/
theorem spans_unusedResult (p : LinkedProgram) (binding : FileBinding) (u : SourceUnit) :
    ((p.fileDischarge binding u).diagnostics.filter (·.rule == .unusedResult)).map
        (·.location.span) =
      ((p.fileDischarge binding u).calls.filter (·.state == .undischarged)).map (·.span) := by
  simp only [fileDischarge, List.flatMap_map, List.filter_flatMap, List.map_flatMap]
  refine List.flatMap_congr fun d _ => ?_
  rcases p.functionDischarge_cases binding u.path.key d.node with
    hnone | ⟨signature, b, -, -, -, heq⟩
  · rw [hnone]
    rfl
  · rw [heq]
    simp only [List.filterMap_eq_flatMap_toList, List.filter_flatMap, List.map_flatMap]
    exact List.flatMap_congr fun o _ => spans_occurrenceFaults p signature b o

/-- A function of a file that is bound is bound as its first declaration says. -/
theorem bound_of_function? {registry : Registry} {symbols : SymbolTable} {graph : ModuleGraph}
    {u : SourceUnit} {f : Spanned FunctionDecl} (hf : f ∈ firstDeclarations u.functions)
    {b : BoundFunction}
    (hb : (Scope.bindFile registry symbols graph u).function? ⟨u.path.key, f.node.name⟩ = some b) :
    b = Scope.boundFunction ⟨registry, symbols, graph, u.path.key⟩ f.node ∧
      ∃ signature, symbols.lookup? ⟨u.path.key, f.node.name⟩ = some signature := by
  obtain ⟨hmem, href⟩ := FileBinding.of_function? hb
  rw [Scope.bindFile, Scope.functions_bindDeclarations, List.mem_map] at hmem
  obtain ⟨g, hg, rfl⟩ := hmem
  obtain ⟨hg, hbinds⟩ := List.mem_filter.mp hg
  -- declarations of one name are one declaration
  obtain rfl : g = f := by
    refine List.inj_on_of_nodup_map (nodup_firstDeclarations u.functions) hg hf ?_
    exact congrArg FunctionRef.name href
  refine ⟨rfl, Option.isSome_iff_exists.mp ?_⟩
  rw [Scope.binds, Bool.and_eq_true] at hbinds
  exact hbinds.1

/-- **Results are judged exactly.** For a function that is bound completely there is one record for
each call that returns a result, in the order of a walk through the body, and no other; it says of
the call whether it is propagated, taken apart or neither, and where the innermost statement around
it is. Each result that is not handled is reported at the place of its call, and no other result
is. -/
theorem discharge_judged (p : LinkedProgram) (registry : Registry) (graph : ModuleGraph)
    (u : SourceUnit) :
    let s : Scope := ⟨registry, p.symbols, graph, u.path.key⟩
    let binding := Scope.bindFile registry p.symbols graph u
    let found := p.fileDischarge binding u
    (∀ d ∈ firstDeclarations u.functions, ∀ b,
      binding.function? ⟨u.path.key, d.node.name⟩ = some b → b.isPoisoned = false →
      ((Stmt.calls d.node.body).map (·.span)).Nodup →
      List.Forall₂ (Judged d.node.body ⟨u.path.key, d.node.name⟩)
        ((Stmt.walk d.node.body).filter s.returnsResult)
        (found.calls.filter (·.function == ⟨u.path.key, d.node.name⟩))) ∧
    (∀ r ∈ found.calls, ∃ d ∈ firstDeclarations u.functions,
      r.function = ⟨u.path.key, d.node.name⟩ ∧
        ∃ b, binding.function? r.function = some b ∧ b.isPoisoned = false) ∧
    (found.diagnostics.filter (·.rule == .unusedResult)).map (·.location.span) =
      (found.calls.filter (·.state == .undischarged)).map (·.span) := by
  intro s binding found
  refine ⟨?_, ?_, spans_unusedResult p binding u⟩
  · intro d hd b hb hpoisoned hspans
    obtain ⟨rfl, signature, hsignature⟩ := bound_of_function? hd hb
    rw [filter_calls_fileDischarge hd]
    have heq : (p.functionDischarge binding u.path.key d.node).calls =
        (Stmt.blockOccurrences d.node.body).filterMap (p.resultCall? (s.boundFunction d.node)) := by
      have hfound : p.signature? ⟨u.path.key, d.node.name⟩ = some signature := hsignature
      simp [functionDischarge, hfound, hb, hpoisoned, s]
    have hsymbols : p.symbols = s.symbols := rfl
    rw [heq]
    exact forall₂_judged hsymbols hspans
  · intro r hr
    obtain ⟨part, hpart, hr⟩ := List.mem_flatMap.mp hr
    obtain ⟨d, hd, rfl⟩ := List.mem_map.mp hpart
    obtain ⟨hfunction, b, hb, hpoisoned⟩ := function_of_mem_functionDischarge hr
    exact ⟨d, hd, hfunction, b, hfunction ▸ hb, hpoisoned⟩

section Orders

/-- A function with five calls that return a result: one in parentheses before a `?`, one that a
match is on and one in each of its arms, in a block and as a value, and one that a branch is on
which does not handle errors. -/
def ordersDecl : FunctionDecl :=
  let call (line : UInt32) : Expr := .node ⟨line, 5, 4⟩ none (.call { name := "load" } [])
  let arm (outcome : String) (body : ArmBody) : Arm :=
    .node ⟨3, 1, 1⟩ ⟨.construct outcome [], ⟨3, 1, 1⟩⟩ body
  { name := "orders"
    returns := .result (.named "Int") (.named "IoError")
    body :=
      [.node ⟨1, 1, 1⟩ (.bind "x" none (.node ⟨1, 9, 1⟩ none (.propagate
          (.node ⟨1, 4, 1⟩ none (.paren (call 1)))))),
        .node ⟨2, 1, 1⟩ (.expr (.node ⟨2, 2, 1⟩ none (.matching (call 2)
          [arm "Ok" (.block [.node ⟨3, 1, 1⟩ (.expr (call 3))]), arm "Err" (.expr (call 4))]))),
        .node ⟨5, 1, 1⟩ (.expr (.node ⟨5, 2, 1⟩ none (.statusBranch (call 5) .isOk [] none)))] }

/-- The file of the function and of the one that it calls. -/
def ordersUnit : SourceUnit where
  path := ⟨"m.cdz"⟩
  declarations :=
    [⟨.function { name := "load", returns := .result (.named "Int") (.named "IoError") },
        ⟨8, 1, 1⟩⟩,
      ⟨.function ordersDecl, ⟨0, 1, 1⟩⟩]

/-- The program of this file alone. -/
def ordersProgram : LinkedProgram :=
  ofBodies .standard (SymbolTable.collect ∅ .standard "m" ordersUnit) []

theorem orders_discharge_judged :
    let graph := ModuleGraph.build (.ofUnits [ordersUnit]) {}
    let s : Scope := ⟨.standard, ordersProgram.symbols, graph, ordersUnit.path.key⟩
    let found := ordersProgram.fileDischarge
      (Scope.bindFile .standard ordersProgram.symbols graph ordersUnit) ordersUnit
    (s.boundFunction ordersDecl).isPoisoned = false ∧
    ((Stmt.calls ordersDecl.body).map (·.span)).Nodup ∧
    found.calls.map (fun r => (r.span.line, r.statement.line, r.state)) =
      [(1, 1, .propagated), (2, 2, .matched), (3, 3, .undischarged), (4, 2, .undischarged),
        (5, 5, .undischarged)] ∧
    List.Forall₂ (Judged ordersDecl.body ⟨ordersUnit.path.key, "orders"⟩)
      ((Stmt.walk ordersDecl.body).filter s.returnsResult) found.calls ∧
    (found.diagnostics.filter (·.rule == .unusedResult)).map (·.location.span.line) =
      [3, 4, 5] := by
  intro graph s found
  obtain ⟨hjudged, -, hreported⟩ := discharge_judged ordersProgram .standard graph ordersUnit
  have hspans : ((Stmt.calls ordersDecl.body).map (·.span)).Nodup := by decide
  have hall : found.calls.filter (·.function == ⟨ordersUnit.path.key, "orders"⟩) = found.calls := by
    decide +kernel
  have hrecords := hjudged ⟨ordersDecl, ⟨0, 1, 1⟩⟩ (by simp [ordersUnit, SourceUnit.functions,
    firstDeclarations, ordersDecl]) (s.boundFunction ordersDecl) (by decide +kernel)
    (by decide +kernel) hspans
  refine ⟨by decide +kernel, hspans, by decide +kernel, ?_, ?_⟩
  · rw [← hall]
    exact hrecords
  · have hlines := congrArg (List.map Span.line) hreported
    rw [List.map_map] at hlines
    exact hlines.trans (by decide +kernel)

end Orders

end LinkedProgram

end EffectAudit
