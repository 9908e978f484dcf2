import EffectAudit.Proofs.Function.Binding
import EffectAudit.Proofs.Syntax.Walk

/-!
# Accounting for calls

Binding loses no call. Every call of a body is bound to a callee, passed over because it may go
through an import that has failed, or reported once; the bound calls and the reports come in the
order in which a walk through the body comes to the calls. Of declarations with one name the first
is bound, and each later one is reported.

## Main definitions

* `Stmt.callExprs`: the calls of a body, in the order of a walk
* `Scope.Ledger`: calls accounted for one by one
* `Scope.Accounts`: a bound function with its reports accounts for a declaration
* `Scope.Contributes`, `Scope.ComposedOf`: what declarations add to the binding of their file

## Main results

* `Scope.accounts_bindFunction`: bound functions account for their declarations
* `Scope.composedOf_bindDeclarations`: the binding of a file is what its declarations add
-/

namespace EffectAudit

/-! ## Calls of a body -/

/-- The calls among the expressions of a body, in the order of a walk through it. -/
def Stmt.callExprs (body : List Stmt) : List Expr :=
  (Stmt.walk body).filter fun e => e.callPath?.isSome

theorem Stmt.exists_callPath {body : List Stmt} {e : Expr} (he : e ∈ Stmt.callExprs body) :
    ∃ call, e.callPath? = some call :=
  Option.isSome_iff_exists.mp (List.mem_filter.mp he).2

/-- The callee of a call at the place of the call. -/
def Expr.call? (e : Expr) : Option (Spanned CallPath) := e.callPath?.map (⟨·, e.span⟩)

theorem Stmt.calls_eq (body : List Stmt) :
    Stmt.calls body = (Stmt.callExprs body).filterMap Expr.call? := by
  unfold Stmt.calls Stmt.callExprs
  rw [Stmt.exprs_eq_walk, List.filterMap_filter]
  refine List.filterMap_congr fun e _ => ?_
  unfold Expr.call?
  cases e.callPath? with
  | none => rfl
  | some call => rfl

namespace Scope

variable {s : Scope} {path : Path}

/-! ## The ledger of a body -/

/-- Calls accounted for one by one, with the sites and the reports that they give: each of them is
bound to an operation or to a function of the table, passed over without a report because an import
that has failed may have brought what it calls, or reported once. -/
inductive Ledger (s : Scope) (path : Path) :
    List Expr → List CallSite → List Diagnostic → Prop
  | nil : Ledger s path [] [] []
  | bound {e : Expr} {call : CallPath} {callee : Callee} {es : List Expr} {sites : List CallSite}
      {reports : List Diagnostic} (hcall : e.callPath? = some call)
      (hbound : s.resolve call = .bound callee)
      (htable : ∀ g, callee = .function g → g ∈ s.symbols.functions)
      (rest : Ledger s path es sites reports) :
      Ledger s path (e :: es) (⟨callee, e.span⟩ :: sites) reports
  | skipped {e : Expr} {call : CallPath} {es : List Expr} {sites : List CallSite}
      {reports : List Diagnostic} (hcall : e.callPath? = some call)
      (hskipped : s.resolve call = .skipped)
      (hfailed : ∃ failed ∈ s.resolution.failed, failed.HidesCall call)
      (rest : Ledger s path es sites reports) : Ledger s path (e :: es) sites reports
  | reported {e : Expr} {call : CallPath} {finding : Finding} {es : List Expr}
      {sites : List CallSite} {reports : List Diagnostic} (hcall : e.callPath? = some call)
      (hrefused : s.resolve call = .refused finding) (rest : Ledger s path es sites reports) :
      Ledger s path (e :: es) sites (finding.report path e.span :: reports)

/-- A call could be bound. -/
def BindsCall (s : Scope) (e : Expr) : Prop :=
  ∃ call callee, e.callPath? = some call ∧ s.resolve call = .bound callee

theorem isSome_site? {e : Expr} {call : CallPath} (hcall : e.callPath? = some call) :
    (s.site? ⟨call, e.span⟩).isSome = true ↔ s.BindsCall e := by
  unfold BindsCall site?
  cases hr : s.resolve call with
  | bound callee => simp [hcall, hr]
  | skipped => simp [hcall, hr]
  | refused finding => simp [hcall, hr]

/-- The sites and the reports of calls account for the calls. -/
theorem ledger_calls (path : Path) {es : List Expr}
    (hes : ∀ e ∈ es, ∃ call, e.callPath? = some call) :
    s.Ledger path es ((es.filterMap Expr.call?).filterMap s.site?)
      ((es.filterMap Expr.call?).filterMap (s.complaint? path)) := by
  induction es with
  | nil => exact .nil
  | cons e rest ih =>
    obtain ⟨⟨call, hcall⟩, hrest⟩ := List.forall_mem_cons.mp hes
    have hcall' : e.call? = some ⟨call, e.span⟩ := congrArg (Option.map _) hcall
    rw [List.filterMap_cons_some hcall', List.filterMap_cons, List.filterMap_cons]
    unfold site? complaint?
    cases hr : s.resolve call with
    | bound callee =>
      refine .bound hcall hr (fun g hg => ?_) (ih hrest)
      exact SymbolTable.mem_functions_iff.mpr (visible_of_resolve (hr.trans (congrArg _ hg))).1
    | skipped => exact .skipped hcall hr (hidesCall_of_skipped hr) (ih hrest)
    | refused finding => exact .reported hcall hr (ih hrest)

/-- Where all calls are bound the sites are those of the calls, one by one. -/
theorem Ledger.forall₂_sites {es : List Expr} {sites : List CallSite}
    {reports : List Diagnostic} (h : s.Ledger path es sites reports)
    (hall : ∀ e ∈ es, s.BindsCall e) :
    List.Forall₂ (fun e c => c.span = e.span ∧ ∃ call, e.callPath? = some call ∧
      s.resolve call = .bound c.callee) es sites := by
  induction h with
  | nil => exact .nil
  | bound hcall hbound _ _ ih =>
    exact .cons ⟨rfl, _, hcall, hbound⟩ (ih (List.forall_mem_cons.mp hall).2)
  | skipped hcall hskipped _ _ _ =>
    obtain ⟨call, callee, hcall', hbound⟩ := (List.forall_mem_cons.mp hall).1
    cases hcall.symm.trans hcall'
    cases hskipped.symm.trans hbound
  | reported hcall hrefused _ _ =>
    obtain ⟨call, callee, hcall', hbound⟩ := (List.forall_mem_cons.mp hall).1
    cases hcall.symm.trans hcall'
    cases hrefused.symm.trans hbound

/-! ## Functions -/

/-- A bound function and the reports on it account for a declaration. Tokens of the `uses` clause
that are not in the vocabulary are reported one by one before the calls. The function is poisoned if
and only if a call is not bound or a token is unknown; else its calls are those of the body one by
one, each at its place. -/
structure Accounts (s : Scope) (path : Path) (d : FunctionDecl) (b : BoundFunction)
    (reports : List Diagnostic) : Prop where
  ref : b.ref = ⟨s.file, d.name⟩
  ledger : ∃ complaints, s.Ledger path (Stmt.callExprs d.body) b.calls complaints ∧
    reports = ((d.effects.filter fun t => (s.registry.effect? t.node).isNone).map fun t =>
      (Finding.unknownEffect t.node).report path t.span) ++ complaints
  poisoned : b.isPoisoned = true ↔ (∃ e ∈ Stmt.callExprs d.body, ¬ s.BindsCall e) ∨
    ∃ t ∈ d.effects, s.registry.effect? t.node = none
  complete : b.isPoisoned = false → List.Forall₂ (fun e c => c.span = e.span ∧
    ∃ call, e.callPath? = some call ∧ s.resolve call = .bound c.callee)
      (Stmt.callExprs d.body) b.calls

/-- A function is poisoned by a call that is not bound or by an unknown token. -/
theorem isPoisoned_boundFunction_iff {d : FunctionDecl} :
    (s.boundFunction d).isPoisoned = true ↔ (∃ e ∈ Stmt.callExprs d.body, ¬ s.BindsCall e) ∨
      ∃ t ∈ d.effects, s.registry.effect? t.node = none := by
  have htokens : (!(s.unknownTokens d).isEmpty) = true ↔
      ∃ t ∈ d.effects, s.registry.effect? t.node = none := by
    rw [Bool.not_eq_true', List.isEmpty_eq_false_iff_exists_mem]
    simp only [unknownTokens, List.mem_filter, Option.isNone_iff_eq_none]
  have hcalls : ((Stmt.calls d.body).any fun c => (s.site? c).isNone) = true ↔
      ∃ e ∈ Stmt.callExprs d.body, ¬ s.BindsCall e := by
    rw [List.any_eq_true, Stmt.calls_eq]
    constructor
    · rintro ⟨c, hc, hnone⟩
      obtain ⟨e, he, hcall⟩ := List.mem_filterMap.mp hc
      obtain ⟨call, hcall', rfl⟩ := Option.map_eq_some_iff.mp hcall
      refine ⟨e, he, fun hbinds => ?_⟩
      have hsome := (isSome_site? hcall').mpr hbinds
      rw [Option.isNone_iff_eq_none.mp hnone] at hsome
      cases hsome
    · rintro ⟨e, he, hbinds⟩
      obtain ⟨call, hcall⟩ := Stmt.exists_callPath he
      refine ⟨⟨call, e.span⟩, List.mem_filterMap.mpr ⟨e, he, congrArg (Option.map _) hcall⟩, ?_⟩
      rw [← isSome_site? hcall, Option.not_isSome_iff_eq_none] at hbinds
      exact Option.isNone_iff_eq_none.mpr hbinds
  show (_ || _) = true ↔ _
  rw [Bool.or_eq_true, htokens, hcalls, or_comm]

/-- **Bound functions account for their declarations.** -/
theorem accounts_bindFunction (path : Path) (d : FunctionDecl) :
    s.Accounts path d (s.boundFunction d) (s.bindFunction path d).diagnostics := by
  have hledger := ledger_calls (s := s) path fun e (he : e ∈ Stmt.callExprs d.body) =>
    Stmt.exists_callPath he
  rw [← Stmt.calls_eq] at hledger
  refine ⟨rfl, ⟨_, hledger, rfl⟩, isPoisoned_boundFunction_iff, fun hclear => ?_⟩
  refine hledger.forall₂_sites fun e he => ?_
  by_contra hbinds
  rw [isPoisoned_boundFunction_iff.mpr (.inl ⟨e, he, hbinds⟩)] at hclear
  cases hclear

/-! ## Files -/

/-- What a declaration adds to the binding of its file, given with its place among the declarations
of the file. A function whose name was declared before is reported, with the place where it was
declared first; any other one is bound. -/
def Contributes (s : Scope) (path : Path) (ds : List (Spanned FunctionDecl))
    (e : Spanned FunctionDecl × Nat) (part : FileBinding) : Prop :=
  if e.1.node.name ∈ (ds.take e.2).map (·.node.name) then
    part.functions = [] ∧ ∃ first, ds.find? (·.node.name == e.1.node.name) = some first ∧
      part.diagnostics = [(Finding.duplicateFunction e.1.node.name first.span).report path e.1.span]
  else ∃ b, part.functions = [b] ∧ s.Accounts path e.1.node b part.diagnostics

/-- A binding consists of what declarations add to it, in their order. -/
def ComposedOf (s : Scope) (path : Path) (ds : List (Spanned FunctionDecl))
    (es : List (Spanned FunctionDecl × Nat)) (b : FileBinding) : Prop :=
  ∃ parts, List.Forall₂ (s.Contributes path ds) es parts ∧
    b.functions = parts.flatMap (·.functions) ∧ b.diagnostics = parts.flatMap (·.diagnostics)

theorem ComposedOf.cons {ds : List (Spanned FunctionDecl)} {e : Spanned FunctionDecl × Nat}
    {es : List (Spanned FunctionDecl × Nat)} {part b : FileBinding}
    (hpart : s.Contributes path ds e part) (h : s.ComposedOf path ds es b) :
    s.ComposedOf path ds (e :: es) (part ++ b) := by
  obtain ⟨parts, hparts, hfunctions, hdiagnostics⟩ := h
  refine ⟨part :: parts, .cons hpart hparts, ?_, ?_⟩
  · rw [functions_append, hfunctions, List.flatMap_cons]
  · rw [diagnostics_append, hdiagnostics, List.flatMap_cons]

/-- The declarations of a list behind a given part of it add what they should, where the functions
of that part are bound already. -/
theorem composedOf_behind {ds : List (Spanned FunctionDecl)}
    (hown : ∀ d ∈ ds, ∃ signature first, s.own? d.node.name = some signature ∧
      ds.find? (·.node.name == d.node.name) = some first ∧ signature.span = first.span)
    {before rest : List (Spanned FunctionDecl)} (hds : ds = before ++ rest) {names : List String}
    (hnames : ∀ name, name ∈ names ↔ name ∈ before.map (·.node.name)) :
    s.ComposedOf path ds (rest.zipIdx before.length) (s.bindDeclarations path names rest) := by
  induction rest generalizing before names with
  | nil => exact ⟨[], .nil, rfl, rfl⟩
  | cons d rest ih =>
    have hd : d ∈ ds := hds ▸ List.mem_append_right _ List.mem_cons_self
    obtain ⟨signature, first, hsignature, hfirst, hspan⟩ := hown d hd
    have hds' : ds = before ++ [d] ++ rest := by rw [hds, List.append_assoc]; rfl
    have hlength : before.length + 1 = (before ++ [d]).length := by rw [List.length_append]; rfl
    have htake : ds.take before.length = before := by rw [hds, List.take_left]
    have hconcat : ∀ name, name ∈ (before ++ [d]).map (·.node.name) ↔
        name ∈ names ∨ name = d.node.name := by
      intro name
      rw [hnames, List.map_append, List.mem_append, List.map_singleton, List.mem_singleton]
    unfold bindDeclarations
    rw [hsignature, List.zipIdx_cons, hlength]
    dsimp only
    by_cases hmem : d.node.name ∈ names
    · -- the name is not bound again
      have hsame : ∀ name, name ∈ names ↔ name ∈ (before ++ [d]).map (·.node.name) := by
        intro name
        rw [hconcat]
        refine ⟨.inl, fun h => h.elim id ?_⟩
        rintro rfl
        exact hmem
      rw [if_pos hmem]
      refine .cons ?_ (ih hds' hsame)
      unfold Contributes
      rw [htake, if_pos ((hnames _).mp hmem), hspan]
      exact ⟨rfl, first, hfirst, rfl⟩
    · have hmore : ∀ name, name ∈ d.node.name :: names ↔
          name ∈ (before ++ [d]).map (·.node.name) := by
        intro name
        rw [hconcat, List.mem_cons, or_comm]
      rw [if_neg hmem]
      refine .cons ?_ (ih hds' hmore)
      unfold Contributes
      rw [htake, if_neg fun h => hmem ((hnames _).mpr h)]
      exact ⟨_, rfl, accounts_bindFunction path d.node⟩

/-- **The binding of declarations is what they add one by one.** -/
theorem composedOf_bindDeclarations {ds : List (Spanned FunctionDecl)}
    (hown : ∀ d ∈ ds, ∃ signature first, s.own? d.node.name = some signature ∧
      ds.find? (·.node.name == d.node.name) = some first ∧ signature.span = first.span) :
    s.ComposedOf path ds ds.zipIdx (s.bindDeclarations path [] ds) :=
  composedOf_behind hown (List.nil_append ds).symm fun _ => Iff.rfl

end Scope

end EffectAudit
