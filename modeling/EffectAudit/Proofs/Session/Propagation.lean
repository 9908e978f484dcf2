import EffectAudit.Proofs.Results.Judgement
import EffectAudit.Proofs.Session.Clean
import EffectAudit.Proofs.Session.Rebinding

/-!
# Misuse of propagation

A `?` hands the error of its operand on to the caller of the function that it stands in. This needs
a function that returns a result, an operand that is a result as far as its type is known, and an
error that converts to the one that the function returns. Each `?` of a body that lacks one of these
is reported once, whatever it is nested in, and no other `?` is.

## Main definitions

* `Scope.Misuse`: what is wrong with a `?`

## Main results

* `LinkedProgram.propagationFault?_eq_some_iff`: what is found to be wrong with a `?`
* `LinkedProgram.forall₂_misuse`: the misuses of a body are reported in the order of a walk
* `LinkedProgram.span_ne_of_propagated`: a result that is propagated is not reported as unused
* `Session.propagation_judged`: the reports on the functions of a program
-/

namespace EffectAudit

/-- What is wrong with a `?` in a function of the given name that returns `returns`. -/
inductive Scope.Misuse (s : Scope) (converts : Ty → Ty → Prop) (name : String) (returns : Ty) :
    Expr → Finding → Prop
  /-- The function returns no result. -/
  | outside {span type? operand} (noResult : ∀ ok error, returns ≠ .result ok error) :
      Misuse s converts name returns (.node span type? (.propagate operand))
        (.propagationOutsideResult name returns.text)
  /-- The operand has a type and is no result. -/
  | nonResult {span type? operand okOut errorOut t} (result : returns = .result okOut errorOut)
      (type : s.HasType operand t) (noResult : ∀ ok error, t ≠ .result ok error) :
      Misuse s converts name returns (.node span type? (.propagate operand))
        (.propagationOnNonResult t.text)
  /-- The error of the operand does not convert to that of the function. -/
  | incompatible {span type? operand okOut errorOut ok error}
      (result : returns = .result okOut errorOut) (type : s.HasType operand (.result ok error))
      (refused : ¬ converts error errorOut) :
      Misuse s converts name returns (.node span type? (.propagate operand))
        (.incompatibleErrorType errorOut.text error.text)

/-- An expression has at most one type. -/
theorem Scope.HasType.unique {s : Scope} {e : Expr} {t t' : Ty} (h : s.HasType e t)
    (h' : s.HasType e t') : t = t' := by
  induction h with
  | attached =>
    cases h'
    rfl
  | call hr hs =>
    cases h' with
    | call hr' hs' =>
      cases hr.symm.trans hr'
      cases hs.symm.trans hs'
      rfl
  | paren _ ih =>
    cases h' with
    | paren h' => exact ih h'

/-- There is nothing wrong with a `?` on a result whose error converts to that of the function. -/
theorem Scope.not_misuse {s : Scope} {converts : Ty → Ty → Prop} {name : String} {span : Span}
    {type? : Option Ty} {operand : Expr} {ok error okOut errorOut : Ty}
    (htype : s.HasType operand (.result ok error)) (hconverts : converts error errorOut)
    (finding : Finding) :
    ¬ s.Misuse converts name (.result okOut errorOut) (.node span type? (.propagate operand))
      finding := by
  intro h
  cases h with
  | outside noResult => exact noResult okOut errorOut rfl
  | nonResult _ type noResult => exact noResult ok error (type.unique htype)
  | incompatible result type refused =>
    cases result
    cases type.unique htype
    exact refused hconverts

namespace LinkedProgram

variable {p : LinkedProgram} {s : Scope} {d : FunctionDecl} {signature : Signature}

/-! ## One `?` -/

section Types

variable (hsymbols : p.symbols = s.symbols) (hspans : ((Stmt.calls d.body).map (·.span)).Nodup)

include hsymbols hspans

theorem misuse_of_propagationFinding? {use : Use} {span : Span} {type? : Option Ty} {operand : Expr}
    (he : Placed d.body (.expr use (.node span type? (.propagate operand)))) {finding : Finding}
    (h : p.propagationFinding? signature (s.boundFunction d) operand = some finding) :
    s.Misuse (fun a b => p.symbols.converts a b = true) signature.name signature.returns
      (.node span type? (.propagate operand)) finding := by
  have htype : ∀ t, p.typeOf? (s.boundFunction d) operand = some t ↔ s.HasType operand t :=
    fun t => typeOf?_eq_some_iff hsymbols hspans operand he.operand
  unfold propagationFinding? at h
  split at h
  · rename_i hreturns
    cases h
    exact .outside (Ty.result?_eq_none_iff.mp hreturns)
  · rename_i okOut errorOut hreturns
    have hreturns := Ty.result?_eq_some_iff.mp hreturns
    split at h
    · cases h
    · rename_i t ht
      have ht := (htype t).mp ht
      split at h
      · rename_i hnone
        cases h
        exact .nonResult hreturns ht (Ty.result?_eq_none_iff.mp hnone)
      · rename_i ok error hresult
        obtain rfl := Ty.result?_eq_some_iff.mp hresult
        split at h
        · cases h
        · rename_i hrefused
          cases h
          exact .incompatible hreturns ht hrefused

/-- **What is found to be wrong with a `?`** is what is wrong with it. -/
theorem propagationFault?_eq_some_iff {use : Use} {e : Expr} (he : Placed d.body (.expr use e))
    {finding : Finding} :
    p.propagationFault? signature (s.boundFunction d) e = some finding ↔
      s.Misuse (fun a b => p.symbols.converts a b = true) signature.name signature.returns e
        finding := by
  constructor
  · intro h
    obtain ⟨span, type?, form⟩ := e
    cases form with
    | propagate operand => exact misuse_of_propagationFinding? hsymbols hspans he h
    | _ => cases h
  · intro h
    have hfault : ∀ {span type? operand},
        p.propagationFault? signature (s.boundFunction d) (.node span type? (.propagate operand)) =
          p.propagationFinding? signature (s.boundFunction d) operand := rfl
    cases h with
    | outside noResult =>
      rw [hfault, propagationFinding?, Ty.result?_eq_none_iff.mpr noResult]
    | nonResult result type noResult =>
      have htype := (typeOf?_eq_some_iff hsymbols hspans _ he.operand).mpr type
      rw [hfault, propagationFinding?, Ty.result?_eq_some_iff.mpr result, htype]
      simp only [Ty.result?_eq_none_iff.mpr noResult]
    | incompatible result type refused =>
      have htype := (typeOf?_eq_some_iff hsymbols hspans _ he.operand).mpr type
      rw [hfault, propagationFinding?, Ty.result?_eq_some_iff.mpr result, htype]
      exact if_neg refused

end Types

/-! ## The reports on a body -/

/-- The report on an expression under the rule of propagation is that on a `?`. -/
theorem filter_occurrenceFaults (p : LinkedProgram) (signature : Signature) (b : BoundFunction)
    (o : Occurrence) :
    (p.occurrenceFaults signature b o).filter (·.rule == .errorPropagationMisuse) =
      ((p.propagationFault? signature b o.expr).map fun finding =>
        finding.report signature.path o.expr.span).toList := by
  have hother : ((p.resultFault? b o).toList.map fun finding =>
      finding.report signature.path o.expr.span).filter
        (·.rule == .errorPropagationMisuse) = [] := by
    refine List.filter_eq_nil_iff.mpr fun diagnostic h => ?_
    obtain ⟨finding, hfinding, rfl⟩ := List.mem_map.mp h
    simp [Finding.report, rule_of_resultFault? (Option.mem_toList.mp hfinding)]
  rw [occurrenceFaults, List.map_append, List.filter_append, hother, List.nil_append]
  cases hfault : p.propagationFault? signature b o.expr with
  | none => rfl
  | some finding => simp [Finding.report, rule_of_propagationFault? hfault]

open Classical in
/-- **Misuses are reported once each**, in the order of a walk through the body. -/
theorem forall₂_misuse (signature : Signature) (hsymbols : p.symbols = s.symbols)
    (hspans : ((Stmt.calls d.body).map (·.span)).Nodup) :
    List.Forall₂
      (fun e diagnostic => ∃ finding,
        s.Misuse (fun a b => p.symbols.converts a b = true) signature.name signature.returns e
          finding ∧ diagnostic = finding.report signature.path e.span)
      ((Stmt.walk d.body).filter fun e => ∃ finding,
        s.Misuse (fun a b => p.symbols.converts a b = true) signature.name signature.returns e
          finding)
      (((Stmt.blockOccurrences d.body).flatMap
        (p.occurrenceFaults signature (s.boundFunction d))).filter
          (·.rule == .errorPropagationMisuse)) := by
  have hreports : ((Stmt.blockOccurrences d.body).flatMap
      (p.occurrenceFaults signature (s.boundFunction d))).filter
        (·.rule == .errorPropagationMisuse) =
      (Stmt.blockOccurrences d.body).filterMap fun o =>
        (p.propagationFault? signature (s.boundFunction d) o.expr).map fun finding =>
          finding.report signature.path o.expr.span := by
    rw [List.filter_flatMap, List.filterMap_eq_flatMap_toList]
    exact List.flatMap_congr fun o _ => filter_occurrenceFaults p signature _ o
  have hfault : ∀ o ∈ Stmt.blockOccurrences d.body, ∀ finding,
      p.propagationFault? signature (s.boundFunction d) o.expr = some finding ↔ _ :=
    fun o ho finding =>
      propagationFault?_eq_some_iff hsymbols hspans (placed_iff.mpr ⟨o, ho, rfl, rfl⟩)
  rw [hreports, ← Stmt.map_blockOccurrences]
  apply forall₂_filter_filterMap
  · intro o ho hright
    rw [Option.map_eq_none_iff, Option.eq_none_iff_forall_ne_some]
    intro finding hsome
    exact of_decide_eq_false hright ⟨finding, (hfault o ho finding).mp hsome⟩
  · intro o ho hwrong
    obtain ⟨finding, hmisuse⟩ := of_decide_eq_true hwrong
    refine ⟨_, ?_, finding, hmisuse, rfl⟩
    rw [(hfault o ho finding).mpr hmisuse, Option.map_some]

/-- **A result that is propagated is not reported as unused.** -/
theorem span_ne_of_propagated (hspans : ((Stmt.calls d.body).map (·.span)).Nodup)
    {b : BoundFunction} {call : Expr} (hcall : call.callPath?.isSome)
    (hpropagated : Propagated d.body call) :
    ∀ diagnostic ∈ (Stmt.blockOccurrences d.body).flatMap (p.occurrenceFaults signature b),
      diagnostic.rule = .unusedResult → diagnostic.location.span ≠ call.span := by
  intro diagnostic hdiagnostic hrule hspan
  obtain ⟨o, ho, hfound⟩ := List.mem_flatMap.mp hdiagnostic
  obtain ⟨finding, hfinding, rfl⟩ := List.mem_map.mp hfound
  rcases List.mem_append.mp hfinding with hresult | hmisuse
  · have hresult := Option.mem_toList.mp hresult
    obtain ⟨callee, hcallee, hfault⟩ := Option.bind_eq_some_iff.mp hresult
    -- what is reported is a call at the place of the one that is propagated, so it is that call
    have hocall : o.expr.callPath?.isSome := by
      rw [← Option.isSome_map, callee_of_resultCallee? hcallee]
      rfl
    obtain ⟨o', ho', huse, rfl⟩ := placed_iff.mp (propagated_iff.mp hpropagated)
    obtain rfl := eq_of_span hspans ho' ho hcall hocall hspan
    rw [huse] at hfault
    cases hfault
  · have hother := rule_of_propagationFault? (Option.mem_toList.mp hmisuse)
    have hrule : finding.rule = .unusedResult := hrule
    rw [hother] at hrule
    cases hrule

end LinkedProgram

namespace Session

/-! ## The functions of a program -/

section Loaded

variable {s : Session} (hs : s.Loaded) {key : FileKey} {f : SourceFile}
  (hf : s.program.get? key = some f) {d : Spanned FunctionDecl}
  (hd : d ∈ firstDeclarations f.unit.functions)

include hs hf hd

/-- The reports on a function that is bound completely are those on the expressions of its body. -/
theorem Loaded.diagnostics_functionDischarge {b : BoundFunction}
    (hb : (Scope.bindFile s.registry s.symbols s.graph f.unit).function? ⟨key, d.node.name⟩ =
      some b) (hclear : b.isPoisoned = false) :
    (s.linked.functionDischarge (Scope.bindFile s.registry s.symbols s.graph f.unit) key
        d.node).diagnostics =
      (Stmt.blockOccurrences d.node.body).flatMap
        (s.linked.occurrenceFaults (Signature.ofDecl s.registry f.moduleName f.unit d)
          ((s.scope key).boundFunction d.node)) := by
  have hkey := hs.listed.unit_key hf
  have hsignature : s.linked.signature? ⟨key, d.node.name⟩ = some _ := hs.lookup?_eq hf hd
  obtain ⟨rfl, -⟩ := LinkedProgram.bound_of_function? hd (hkey ▸ hb)
  rw [hkey] at hb hclear
  unfold LinkedProgram.functionDischarge
  rw [hsignature, hb]
  simp only [hclear, Bool.false_eq_true, if_false]
  rfl

end Loaded

open Classical in
/-- **Misuse of propagation is judged exactly.** Let modules and symbols be those of the program, as
they are after every analysis and after every edit. In a function that is bound completely, each `?`
at any depth that is misused is reported once at its place, in the order of a walk through the body,
and no other `?` is; calls of the body are taken to stand at different places. So a call that is
propagated by a `?` on a result, out of a function that returns a result with an error that this one
converts to, is neither reported as misuse nor as unused. -/
theorem propagation_judged :
    (∀ before units, (analyze before units).Loaded) ∧
    (∀ registry policy steps, SpelledAlike steps →
      ((start registry policy).run steps).Loaded) ∧
    ∀ s : Session, s.Loaded → ∀ key f, s.program.get? key = some f →
      let binding := Scope.bindFile s.registry s.symbols s.graph f.unit
      (s.linked.fileDischarge binding f.unit).diagnostics =
        (firstDeclarations f.unit.functions).flatMap
          (fun d => (s.linked.functionDischarge binding key d.node).diagnostics) ∧
      ∀ d ∈ firstDeclarations f.unit.functions, ∀ b,
        binding.function? ⟨key, d.node.name⟩ = some b → b.isPoisoned = false →
        ((Stmt.calls d.node.body).map (·.span)).Nodup →
        let found := (s.linked.functionDischarge binding key d.node).diagnostics
        let misuse := (s.scope key).Misuse s.program.Converts d.node.name d.node.returns
        List.Forall₂
          (fun e diagnostic => ∃ finding, misuse e finding ∧
            diagnostic = finding.report f.unit.path e.span)
          ((Stmt.walk d.node.body).filter fun e => ∃ finding, misuse e finding)
          (found.filter (·.rule == .errorPropagationMisuse)) ∧
        ∀ span type? operand call ok error okOut errorOut,
          Expr.node span type? (.propagate operand) ∈ Stmt.walk d.node.body →
          operand.Wraps call → call.callPath?.isSome →
          (s.scope key).HasType operand (.result ok error) →
          d.node.returns = .result okOut errorOut → s.program.Converts error errorOut →
          (∀ finding, ¬ misuse (.node span type? (.propagate operand)) finding) ∧
            ∀ diagnostic ∈ found, diagnostic.rule = .unusedResult →
              diagnostic.location.span ≠ call.span := by
  refine ⟨fun before units => (current_analyze before units).toLoaded,
    fun registry policy steps h => (tracked_run registry policy h).toLoaded, ?_⟩
  intro s hs key f hf binding
  have hconverts : (fun a b => s.linked.symbols.converts a b = true) = s.program.Converts := by
    ext source target
    exact hs.converts_iff
  refine ⟨?_, fun d hd b hb hclear hspans => ?_⟩
  · unfold LinkedProgram.fileDischarge
    simp only [List.flatMap_map, hs.listed.unit_key hf]
  intro found misuse
  have hfound : found = _ := hs.diagnostics_functionDischarge hf hd hb hclear
  have hmisuse := LinkedProgram.forall₂_misuse (p := s.linked) (s := s.scope key)
    (Signature.ofDecl s.registry f.moduleName f.unit d) rfl hspans
  rw [hconverts, ← hfound] at hmisuse
  refine ⟨hmisuse, ?_⟩
  intro span type? operand call ok error okOut errorOut he hwraps hcall htype hreturns hconv
  constructor
  · simp only [misuse, hreturns]
    exact Scope.not_misuse htype hconv
  · rw [hfound]
    apply LinkedProgram.span_ne_of_propagated hspans hcall
    rw [← Stmt.map_blockOccurrences] at he
    obtain ⟨o, ho, he⟩ := List.mem_map.mp he
    exact ⟨o.use, span, type?, operand, placed_iff.mpr ⟨o, ho, rfl, he⟩, hwraps⟩

/-- A function with a `?` on a payment, whose error converts, and in an arm of a match a `?` on a
shipment, whose error does not. -/
def purchaseDecl : FunctionDecl :=
  let call (line : UInt32) (name : String) : Expr := .node ⟨line, 3, 4⟩ none (.call { name } [])
  { name := "purchase"
    returns := .result .unit (.named "ShopError")
    body :=
      [.node ⟨2, 3, 9⟩ (.expr (.node ⟨2, 9, 1⟩ none (.propagate
          (.node ⟨2, 2, 6⟩ none (.paren (call 2 "pay")))))),
        .node ⟨3, 3, 9⟩ (.expr (.node ⟨3, 3, 9⟩ none (.matching (.node ⟨3, 3, 1⟩ none (.ident "x"))
          [.node ⟨4, 3, 9⟩ ⟨.wildcard, ⟨4, 3, 1⟩⟩
            (.expr (.node ⟨4, 9, 1⟩ none (.propagate (call 4 "ship"))))])))] }

/-- The file of this function and of those that it calls. -/
def purchaseUnit : SourceUnit where
  path := ⟨"purchase.cdz"⟩
  declarations :=
    [⟨.function purchaseDecl, ⟨1, 1, 30⟩⟩,
      ⟨.function { name := "pay", returns := .result .unit (.named "PayError") }, ⟨7, 1, 30⟩⟩,
      ⟨.function { name := "ship", returns := .result .unit (.named "ShipError") }, ⟨9, 1, 30⟩⟩]

/-- The file that says what the errors of payments convert to. -/
def errorsUnit : SourceUnit where
  path := ⟨"errors.cdz"⟩
  declarations :=
    [⟨.type { name := "ShopError", convertsFrom := [.named "PayError"] }, ⟨1, 1, 30⟩⟩]

open Classical in
theorem purchase_propagation_judged :
    let s := (start .standard {}).analyze [errorsUnit, purchaseUnit]
    let binding := Scope.bindFile s.registry s.symbols s.graph purchaseUnit
    let found := (s.linked.functionDischarge binding purchaseUnit.path.key purchaseDecl).diagnostics
    let misuse := (s.scope purchaseUnit.path.key).Misuse s.program.Converts "purchase"
      purchaseDecl.returns
    s.Loaded ∧ s.program.Converts (.named "PayError") (.named "ShopError") ∧
    ((Stmt.calls purchaseDecl.body).map (·.span)).Nodup ∧
    found.map (fun d => (d.rule, d.location.span.line)) = [(.errorPropagationMisuse, 4)] ∧
    List.Forall₂
      (fun e diagnostic => ∃ finding, misuse e finding ∧
        diagnostic = finding.report purchaseUnit.path e.span)
      ((Stmt.walk purchaseDecl.body).filter fun e => ∃ finding, misuse e finding)
      (found.filter (·.rule == .errorPropagationMisuse)) ∧
    ∀ diagnostic ∈ found, diagnostic.rule = .unusedResult →
      diagnostic.location.span ≠ ⟨2, 3, 4⟩ := by
  intro s binding found misuse
  obtain ⟨hanalyze, -, hjudged⟩ := propagation_judged
  have hs : s.Loaded := hanalyze (start .standard {}) [errorsUnit, purchaseUnit]
  have hconverts : s.program.Converts (.named "PayError") (.named "ShopError") :=
    .inr ⟨errorsUnit.path.key, ⟨errorsUnit.path, errorsUnit⟩, rfl, _, List.mem_cons_self, rfl,
      List.mem_cons_self⟩
  have hspans : ((Stmt.calls purchaseDecl.body).map (·.span)).Nodup := by decide
  obtain ⟨-, hfunctions⟩ := hjudged s hs purchaseUnit.path.key ⟨purchaseUnit.path, purchaseUnit⟩ rfl
  obtain ⟨hmisuse, hfine⟩ := hfunctions ⟨purchaseDecl, ⟨1, 1, 30⟩⟩ List.mem_cons_self
    ((s.scope purchaseUnit.path.key).boundFunction purchaseDecl) (by decide +kernel)
    (by decide +kernel) hspans
  refine ⟨hs, hconverts, hspans, by decide +kernel, hmisuse, ?_⟩
  have hpay : (s.scope purchaseUnit.path.key).HasType
      (.node ⟨2, 2, 6⟩ none (.paren (.node ⟨2, 3, 4⟩ none (.call { name := "pay" } []))))
      (.result .unit (.named "PayError")) := by
    have hlookup : s.symbols.lookup? ⟨purchaseUnit.path.key, "pay"⟩ =
        some (Signature.ofDecl .standard "purchase" purchaseUnit
          ⟨{ name := "pay", returns := .result .unit (.named "PayError") }, ⟨7, 1, 30⟩⟩) := by
      decide +kernel
    have hcall : (s.scope purchaseUnit.path.key).HasType
        (.node ⟨2, 3, 4⟩ none (.call { name := "pay" } [])) _ := .call (by decide +kernel) hlookup
    exact .paren hcall
  exact (hfine _ _ _ _ _ _ _ _ List.mem_cons_self (.paren (.self _)) rfl hpay rfl hconverts).2

end Session

end EffectAudit
