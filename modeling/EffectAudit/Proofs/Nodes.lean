import EffectAudit.Proofs.Diagnostic
import EffectAudit.Proofs.Modules.Conflicts
import EffectAudit.Proofs.Results.Judgement
import Mathlib.Data.List.Flatten

/-!
# The nodes that are reported

Findings are placed at nodes of the syntax: import directives and their items, exports, functions,
tokens of `uses` clauses, calls and `?` expressions. The stages that link a file and that check its
results go through the nodes in source order and report each of them once at most.

## Main definitions

* `Node`, `SourceUnit.nodes`: the nodes of a file at which findings are placed
* `SourceUnit.Separate`: no two nodes of one kind start at the same place
* `Finding.nodeKind`, `Diagnostic.node`: the node at which a finding is placed
* `Diagnostic.ReportedBy`: a diagnostic as a stage of the analysis reports it

## Main results

* `ModuleGraph.nodes_diagnosticsOf`, `Scope.nodes_bindDeclarations`,
  `LinkedProgram.nodes_fileDischarge`: the nodes that a stage reports are nodes of the file, in
  order
-/

namespace EffectAudit

/-! ## Nodes -/

/-- The kinds of syntax at which findings are placed. -/
inductive NodeKind where
  | directive
  | item
  | exported
  | function
  /-- A token of a `uses` clause. -/
  | token
  | call
  /-- A `?` expression. -/
  | propagation
  deriving DecidableEq

/-- A node of the syntax: its kind and where it starts. -/
structure Node where
  kind : NodeKind
  line : UInt32
  column : UInt32
  deriving DecidableEq

/-- The node of the given kind at a place. -/
def Span.node (span : Span) (kind : NodeKind) : Node := ⟨kind, span.line, span.column⟩

/-- The node of an expression, if it is a call or a `?`. -/
def Expr.node? (e : Expr) : Option Node :=
  match e.form with
  | .call _ _ => some (e.span.node .call)
  | .propagate _ => some (e.span.node .propagation)
  | _ => none

/-- The nodes of an import directive: itself and its items. -/
def importNodes (d : Spanned ImportDecl) : List Node :=
  d.span.node .directive ::
    match d.node.items with
    | .names items => items.map (·.span.node .item)
    | _ => []

/-- The nodes of a function: itself, the tokens of its `uses` clause, and its calls and `?`
expressions. -/
def functionNodes (d : Spanned FunctionDecl) : List Node :=
  d.span.node .function ::
    (d.node.effects.map (·.span.node .token) ++ (Stmt.exprs d.node.body).filterMap Expr.node?)

namespace SourceUnit

/-- The nodes of a file at which findings are placed. -/
def nodes (u : SourceUnit) : List Node :=
  u.imports.flatMap importNodes ++ u.exports.map (·.span.node .exported)
    ++ u.functions.flatMap functionNodes

/-- No two nodes of one kind start at the same place. -/
def Separate (u : SourceUnit) : Prop := u.nodes.Nodup

instance (u : SourceUnit) : Decidable u.Separate := inferInstanceAs (Decidable u.nodes.Nodup)

end SourceUnit

/-! ## Findings at nodes -/

/-- The kind of node at which a finding is placed. -/
def Finding.nodeKind : Finding → NodeKind
  | unresolvedModule _ | circularDependency _ => .directive
  | unexportedImport _ _ => .item
  | duplicateModule _ _ _ => .exported
  | duplicateFunction _ _ => .function
  | unknownEffect _ | unusedEffect _ _ => .token
  | propagationOutsideResult _ _ | propagationOnNonResult _ | incompatibleErrorType _ _ =>
    .propagation
  | _ => .call

/-- The stages of an analysis: modules and calls are linked, then effects and results are
checked. -/
inductive Stage where
  | linking
  | effects
  | results
  deriving DecidableEq

/-- The stage that reports findings of a rule. -/
def Rule.stage : Rule → Stage
  | pureFunctionViolation | effectCompleteness | effectMinimality => .effects
  | unusedResult | errorPropagationMisuse => .results
  | _ => .linking

namespace Diagnostic

/-- The kind of node at which a diagnostic is placed. Unresolved imports are directives, items or
calls, which the first letter of the message tells. -/
def nodeKind (d : Diagnostic) : NodeKind :=
  match d.rule with
  | .unresolvedImport =>
    if d.message.toList.head? = some 'c' then .directive
    else if d.message.toList.head? = some 'm' then .item
    else .call
  | .circularDependency => .directive
  | .duplicateModule => .exported
  | .duplicateFunction => .function
  | .unknownEffect | .effectMinimality => .token
  | .errorPropagationMisuse => .propagation
  | _ => .call

/-- The node at which a diagnostic is placed. -/
def node (d : Diagnostic) : Node := d.location.span.node d.nodeKind

/-- A diagnostic is the report of a finding, as a stage of the analysis makes it. -/
def ReportedBy (stage : Stage) (d : Diagnostic) : Prop := d.IsReport ∧ d.rule.stage = stage

end Diagnostic

namespace Finding

theorem nodeKind_report (finding : Finding) (file : Path) (span : Span) :
    (finding.report file span).nodeKind = finding.nodeKind := by
  cases finding with
  | unresolvedModule target =>
    have hfirst : (unresolvedModule target).message.toList.head? = some 'c' := by
      show ("cannot resolve import " ++ target ++
        ": no module or file with that name").toList.head? =
        some 'c'
      rw [String.toList_append, String.toList_append]
      rfl
    exact if_pos hfirst
  | unexportedImport owner name =>
    have hfirst : (unexportedImport owner name).message.toList.head? = some 'm' := by
      show ("module `" ++ owner ++ "` does not export `" ++ name ++ "`").toList.head? = some 'm'
      simp only [String.toList_append]
      rfl
    refine (if_neg ?_).trans (if_pos hfirst)
    show (unexportedImport owner name).message.toList.head? ≠ some 'c'
    rw [hfirst]
    decide
  | unexportedCall owner name =>
    have hfirst : (unexportedCall owner name).message.toList.head? = some '`' := by
      show ("`" ++ name ++ "` is defined in module `" ++ owner ++
        "` but not exported").toList.head? =
        some '`'
      simp only [String.toList_append]
      rfl
    refine (if_neg ?_).trans (if_neg ?_)
    · show (unexportedCall owner name).message.toList.head? ≠ some 'c'
      rw [hfirst]
      decide
    · show (unexportedCall owner name).message.toList.head? ≠ some 'm'
      rw [hfirst]
      decide
  | _ => rfl

theorem node_report (finding : Finding) (file : Path) (span : Span) :
    (finding.report file span).node = span.node finding.nodeKind := by
  unfold Diagnostic.node
  rw [nodeKind_report]
  rfl

theorem reportedBy_report {finding : Finding} {stage : Stage} (h : finding.rule.stage = stage)
    (file : Path) (span : Span) : (finding.report file span).ReportedBy stage :=
  ⟨finding.isReport_report file span, h⟩

end Finding

/-! ## Imports -/

namespace ModuleTable

variable {t : ModuleTable} {importer : Path} {i : Spanned ImportDecl}

theorem reportedBy_of_mem_resolveImport {d : Diagnostic}
    (h : d ∈ (t.resolveImport importer i).diagnostics) : d.ReportedBy .linking := by
  unfold resolveImport at h
  split at h
  · rw [List.mem_singleton.mp h]
    exact Finding.reportedBy_report rfl _ _
  · dsimp only at h
    split at h
    · exact absurd h List.not_mem_nil
    · exact absurd h List.not_mem_nil
    · obtain ⟨item, -, rfl⟩ := List.mem_map.mp h
      exact Finding.reportedBy_report rfl _ _

theorem nodes_resolveImport (t : ModuleTable) (importer : Path) (i : Spanned ImportDecl) :
    ((t.resolveImport importer i).diagnostics.map (·.node)).Sublist (importNodes i) := by
  unfold resolveImport importNodes
  split
  · -- the target is reported at the directive
    rw [List.map_singleton, Finding.node_report]
    exact List.singleton_sublist.mpr List.mem_cons_self
  · dsimp only
    split
    · exact List.nil_sublist _
    · exact List.nil_sublist _
    · rename_i items hitems
      -- the directive itself is in order, and items that are not exported are reported
      refine List.Sublist.cons _ ?_
      rw [hitems]
      unfold importNames
      dsimp only
      rw [List.map_map]
      simp only [Function.comp_def, Finding.node_report]
      exact List.filter_sublist.map _

theorem nodes_resolveFile (t : ModuleTable) (f : SourceFile) :
    ((t.resolveFile f).2.map (·.node)).Sublist (f.unit.imports.flatMap importNodes) := by
  unfold resolveFile
  dsimp only
  rw [List.flatMap_map, List.map_flatMap]
  exact List.Sublist.flatMap_right _ fun i _ => nodes_resolveImport t f.path i

end ModuleTable

/-! ## Duplicate modules -/

namespace ModuleGraph

variable {policy : Policy} {m : String} {u : SourceUnit}

theorem nodes_claim (o : Ownership) (e : Spanned String) :
    ((o.claim policy m u e).conflicts.map (·.node)).Sublist
      (o.conflicts.map (·.node) ++ [e.span.node .exported]) := by
  unfold Ownership.claim
  split
  · exact List.sublist_append_left _ _
  · split
    · exact List.sublist_append_left _ _
    · split
      · exact List.sublist_append_left _ _
      · dsimp only
        rw [List.map_append, List.map_singleton, Finding.node_report]
        exact .refl _

theorem nodes_foldl_claim (exports : List (Spanned String)) (o : Ownership) :
    ((exports.foldl (Ownership.claim policy m u) o).conflicts.map (·.node)).Sublist
      (o.conflicts.map (·.node) ++ exports.map (·.span.node .exported)) := by
  induction exports generalizing o with
  | nil => exact List.sublist_append_left _ _
  | cons e rest ih =>
    refine (ih (o.claim policy m u e)).trans ?_
    rw [List.map_cons, List.append_cons]
    exact (nodes_claim o e).append_right _

theorem nodes_reportsBehind (before : List (FileKey × SourceUnit)) :
    ((reportsBehind policy m before u).map (·.node)).Sublist
      (u.exports.map (·.span.node .exported)) :=
  nodes_foldl_claim u.exports { owners := ownersAfter policy m before }

/-- Each file of a module has its conflicts once. -/
theorem keys_conflictsIn (policy : Policy) (m : String) (halted : List FileKey)
    (units : List (FileKey × SourceUnit)) :
    ((conflictsIn policy m halted units).map (·.1)).Sublist (units.map (·.1)) := by
  -- a file comes in behind those that are listed, if at all
  have hfold : ∀ (live : List (FileKey × SourceUnit))
      (acc : List (String × Path) × List (FileKey × List Diagnostic)),
      ((live.foldl (fun acc x =>
        let o := x.2.exports.foldl (Ownership.claim policy m x.2) { owners := acc.1 }
        (o.owners, if o.conflicts.isEmpty then acc.2 else acc.2 ++ [(x.1, o.conflicts)]))
        acc).2.map (·.1)).Sublist (acc.2.map (·.1) ++ live.map (·.1)) := by
    intro live
    induction live with
    | nil => exact fun acc => List.sublist_append_left _ _
    | cons x rest ih =>
      intro acc
      rw [List.foldl_cons, List.map_cons, List.append_cons]
      refine (ih _).trans (List.Sublist.append_right ?_ _)
      dsimp only
      split
      · exact List.sublist_append_left _ _
      · rw [List.map_append]
        exact .refl _
  exact (hfold _ ([], [])).trans (List.filter_sublist.map _)

variable {p : Program} {key : FileKey} {f : SourceFile}

theorem nodup_keys_conflictsOf (p : Program) (policy : Policy) (halted : List FileKey)
    (m : String) :
    ((conflictsOf p policy halted m).map (·.1)).Nodup := by
  unfold conflictsOf
  split
  · exact .nil
  · -- files that declare a module are listed by key
    refine (keys_conflictsIn _ _ _ _).nodup (List.pairwise_map.mpr ?_)
    exact (sorted_declaring p m).imp fun hlt heq => by simp [heq] at hlt

theorem reportsBehind_of_mem_conflictsOf (hf : p.get? key = some f) {halted : List FileKey}
    {e : FileKey × List Diagnostic} (he : e ∈ conflictsOf p policy halted m) (hkey : e.1 = key) :
    ∃ before, e.2 = reportsBehind policy m before f.unit := by
  unfold conflictsOf at he
  split at he
  · exact absurd he List.not_mem_nil
  · obtain ⟨before, u, after, hsplit, hreports, -⟩ := mem_conflictsIn_iff.mp he
    have hmem : (e.1, u) ∈ declaring p m :=
      List.mem_of_mem_filter (hsplit ▸ List.mem_append_right _ List.mem_cons_self)
    obtain ⟨f', hf', -, rfl⟩ := mem_declaring.mp hmem
    rw [hkey, hf] at hf'
    cases hf'
    exact ⟨before, hreports⟩

theorem nodes_moduleConflicts (hf : p.get? key = some f) (policy : Policy) :
    ((((moduleConflicts p policy).filter (·.1 == key)).flatMap (·.2)).map (·.node)).Sublist
      (f.unit.exports.map (·.span.node .exported)) := by
  unfold moduleConflicts
  rw [filter_conflicts hf]
  cases hm : f.unit.declaredModule? with
  | none => exact List.nil_sublist _
  | some m =>
    rw [Option.map_some, Option.getD_some]
    rcases filter_key_cases (nodup_keys_conflictsOf p policy _ m) key with
      hnone | ⟨e, he, hkey, hone⟩
    · rw [hnone]
      exact List.nil_sublist _
    · obtain ⟨before, hbefore⟩ := reportsBehind_of_mem_conflictsOf hf he hkey
      rw [hone, List.flatMap_singleton, hbefore]
      exact nodes_reportsBehind before

theorem reportedBy_of_mem_diagnosticsOf {d : Diagnostic}
    (h : d ∈ (build p policy).diagnosticsOf key) : d.ReportedBy .linking := by
  rw [diagnosticsOf_build] at h
  rcases List.mem_append.mp h with h | h
  · rcases List.mem_append.mp h with h | h
    · unfold resolvedFiles at h
      rw [OrderedMap.get?_map] at h
      cases hf : p.get? key with
      | none =>
        rw [hf] at h
        exact absurd h List.not_mem_nil
      | some f =>
        rw [hf] at h
        obtain ⟨o, ho, hd⟩ := List.mem_flatMap.mp h
        obtain ⟨i, -, rfl⟩ := List.mem_map.mp ho
        exact ModuleTable.reportedBy_of_mem_resolveImport hd
    · obtain ⟨c, -, rfl⟩ := List.mem_map.mp h
      exact Finding.reportedBy_report rfl _ _
  · obtain ⟨e, he, hd⟩ := List.mem_flatMap.mp h
    obtain ⟨m, before, u, after, -, -, hreports, -⟩ :=
      mem_moduleConflicts_iff.mp (List.mem_of_mem_filter he)
    rw [hreports] at hd
    obtain ⟨front, e, back, -, -, owner, -, -, rfl⟩ := mem_reportsBehind_iff.mp hd
    exact Finding.reportedBy_report rfl _ _

/-- **The diagnostics about modules are placed at imports and exports of the file**, in order, apart
from those about cycles. -/
theorem nodes_diagnosticsOf (hf : p.get? key = some f) (policy : Policy) :
    ((((build p policy).diagnosticsOf key).filter (·.rule ≠ .circularDependency)).map
        (·.node)).Sublist
      (f.unit.imports.flatMap importNodes ++ f.unit.exports.map (·.span.node .exported)) := by
  have hresolved : (((resolvedFiles p).get? key).map (·.2)).getD [] =
      ((ModuleTable.ofProgram p).resolveFile f).2 := by
    unfold resolvedFiles
    rw [OrderedMap.get?_map, hf]
    rfl
  have hcycles : (((openCycles p).filter fun c => c.getLastD [] == key).map fun c =>
      (cycleDiagnostic p (importEdges p) c).2).filter (·.rule ≠ .circularDependency) = [] := by
    refine List.filter_eq_nil_iff.mpr fun d hd => ?_
    obtain ⟨c, -, rfl⟩ := List.mem_map.mp hd
    simp [cycleDiagnostic, Finding.report, Finding.rule]
  rw [diagnosticsOf_build, List.filter_append, List.filter_append, hcycles, hresolved,
    List.append_nil, List.map_append]
  exact ((List.filter_sublist.map _).trans (ModuleTable.nodes_resolveFile _ f)).append
    ((List.filter_sublist.map _).trans (nodes_moduleConflicts hf policy))

end ModuleGraph

/-! ## Calls -/

namespace Scope

variable {s : Scope} {finding : Finding}

/-- A finding about a call that cannot be bound. -/
def IsComplaint (finding : Finding) : Prop :=
  finding.nodeKind = .call ∧ finding.rule.stage = .linking

theorem isComplaint_of_choose? {shown : String} {candidates : List Signature}
    (h : choose? shown candidates = some (.refused finding)) : IsComplaint finding := by
  unfold choose? at h
  split at h
  · cases h
  · cases h
  · cases h
    exact ⟨rfl, rfl⟩

theorem isComplaint_of_operationOr {shown : String} {otherwise : Finding}
    (ho : IsComplaint otherwise) (h : s.operationOr shown otherwise = .refused finding) :
    IsComplaint finding := by
  unfold operationOr at h
  split at h
  · cases h
  · cases h
    exact ho

theorem isComplaint_of_resolve {path : CallPath} (h : s.resolve path = .refused finding) :
    IsComplaint finding := by
  unfold resolve at h
  split at h
  · unfold resolveName at h
    dsimp only at h
    split at h
    · rename_i outcome hlevel
      obtain ⟨level, -, hlevel⟩ := List.exists_of_findSome?_eq_some hlevel
      exact isComplaint_of_choose? (h ▸ hlevel)
    · split at h
      · cases h
      · exact isComplaint_of_operationOr ⟨rfl, rfl⟩ h
  · unfold resolveQualified at h
    dsimp only at h
    split at h
    · split at h
      · rename_i hchoose
        exact isComplaint_of_choose? (h ▸ hchoose)
      · exact isComplaint_of_operationOr ⟨rfl, rfl⟩ h
    · split at h
      · unfold resolveExported at h
        split at h
        · rename_i hchoose
          exact isComplaint_of_choose? (h ▸ hchoose)
        · split at h
          · exact isComplaint_of_operationOr ⟨rfl, rfl⟩ h
          · cases h
            exact ⟨rfl, rfl⟩
      · split at h
        · cases h
        · exact isComplaint_of_operationOr ⟨rfl, rfl⟩ h

theorem complaint?_cases {path : Path} {call : Spanned CallPath} {d : Diagnostic}
    (h : s.complaint? path call = some d) :
    ∃ finding, IsComplaint finding ∧ d = finding.report path call.span := by
  unfold complaint? at h
  split at h
  · rename_i finding hr
    cases h
    exact ⟨finding, isComplaint_of_resolve hr, rfl⟩
  · cases h

theorem reportedBy_of_mem_bindDeclarations {path : Path} {names : List String}
    {ds : List (Spanned FunctionDecl)} {d : Diagnostic}
    (h : d ∈ (s.bindDeclarations path names ds).diagnostics) : d.ReportedBy .linking := by
  induction ds generalizing names with
  | nil => exact absurd h List.not_mem_nil
  | cons decl rest ih =>
    unfold bindDeclarations at h
    split at h
    · exact ih h
    · split at h
      · rcases List.mem_append.mp h with h | h
        · rw [List.mem_singleton.mp h]
          exact Finding.reportedBy_report rfl _ _
        · exact ih h
      · rcases List.mem_append.mp h with h | h
        · rcases List.mem_append.mp h with h | h
          · obtain ⟨t, -, rfl⟩ := List.mem_map.mp h
            exact Finding.reportedBy_report rfl _ _
          · obtain ⟨call, -, hcall⟩ := List.mem_filterMap.mp h
            obtain ⟨finding, hfinding, rfl⟩ := complaint?_cases hcall
            exact Finding.reportedBy_report hfinding.2 _ _
        · exact ih h

theorem nodes_bindFunction (s : Scope) (path : Path) (d : Spanned FunctionDecl) :
    ((s.bindFunction path d.node).diagnostics.map (·.node)).Sublist (functionNodes d) := by
  unfold bindFunction functionNodes
  dsimp only
  rw [List.map_append]
  refine (List.Sublist.append ?_ ?_).cons _
  · rw [List.map_map]
    simp only [Function.comp_def, Finding.node_report]
    exact List.filter_sublist.map _
  · unfold Stmt.calls
    rw [List.map_filterMap, List.filterMap_filterMap, List.filterMap_eq_flatMap_toList,
      List.filterMap_eq_flatMap_toList]
    refine List.Sublist.flatMap_right _ fun e _ => ?_
    -- a call that cannot be bound is reported at its own node
    unfold Expr.callPath? Expr.node?
    cases e.form with
    | call callee args =>
      simp only [Option.map_some, Option.bind_some, Option.toList_some]
      cases hcall : s.complaint? path ⟨callee, e.span⟩ with
      | none => exact List.nil_sublist _
      | some d =>
        obtain ⟨finding, hfinding, rfl⟩ := complaint?_cases hcall
        rw [Option.map_some, Option.toList_some, Finding.node_report, hfinding.1]
    | _ => exact List.nil_sublist _

/-- **The diagnostics about calls are placed at functions, tokens and calls**, in order. -/
theorem nodes_bindDeclarations (s : Scope) (path : Path) (names : List String)
    (ds : List (Spanned FunctionDecl)) :
    ((s.bindDeclarations path names ds).diagnostics.map (·.node)).Sublist
      (ds.flatMap functionNodes) := by
  induction ds generalizing names with
  | nil => exact List.nil_sublist _
  | cons d rest ih =>
    rw [List.flatMap_cons]
    unfold bindDeclarations
    split
    · exact (ih names).trans (List.sublist_append_right _ _)
    · split
      · -- a function that is declared again is reported as a whole
        rw [diagnostics_append, List.map_append]
        refine List.Sublist.append ?_ (ih names)
        rw [List.map_singleton, Finding.node_report]
        exact List.singleton_sublist.mpr List.mem_cons_self
      · rw [diagnostics_append, List.map_append]
        exact (nodes_bindFunction s path d).append (ih _)

end Scope

/-! ## Results -/

namespace LinkedProgram

variable {p : LinkedProgram} {binding : FileBinding} {u : SourceUnit}

theorem reportedBy_of_mem_fileDischarge {d : Diagnostic}
    (h : d ∈ (p.fileDischarge binding u).diagnostics) : d.ReportedBy .results := by
  obtain ⟨part, hpart, h⟩ := List.mem_flatMap.mp h
  obtain ⟨decl, -, rfl⟩ := List.mem_map.mp hpart
  rcases p.functionDischarge_cases binding u.path.key decl.node with
    hnone | ⟨signature, b, -, -, -, heq⟩
  · rw [hnone] at h
    exact absurd h List.not_mem_nil
  · rw [heq] at h
    obtain ⟨o, -, h⟩ := List.mem_flatMap.mp h
    obtain ⟨finding, hfinding, rfl⟩ := List.mem_map.mp h
    refine Finding.reportedBy_report ?_ _ _
    rcases List.mem_append.mp hfinding with hfinding | hfinding
    · rw [rule_of_resultFault? (Option.mem_toList.mp hfinding)]
      rfl
    · rw [rule_of_propagationFault? (Option.mem_toList.mp hfinding)]
      rfl

theorem nodeKind_of_unusedResult {finding : Finding} (h : finding.rule = .unusedResult) :
    finding.nodeKind = .call := by
  cases finding <;> first | rfl | cases h

theorem nodeKind_of_errorPropagationMisuse {finding : Finding}
    (h : finding.rule = .errorPropagationMisuse) : finding.nodeKind = .propagation := by
  cases finding <;> first | rfl | cases h

/-- An expression is reported as a call or as a `?`, whichever it is. -/
theorem nodes_occurrenceFaults (p : LinkedProgram) (signature : Signature) (b : BoundFunction)
    (o : Occurrence) :
    ((p.occurrenceFaults signature b o).map (·.node)).Sublist o.expr.node?.toList := by
  unfold occurrenceFaults
  rw [List.map_map, List.map_append]
  simp only [Function.comp_def, Finding.node_report]
  -- one check is for calls and the other for `?` expressions, so one at most reports
  cases hform : o.expr.form with
  | call callee args =>
    have hnode : o.expr.node? = some (o.expr.span.node .call) := by
      unfold Expr.node?
      rw [hform]
    have hnone : p.propagationFault? signature b o.expr = none := by
      unfold propagationFault?
      rw [hform]
    rw [hnone, hnode, Option.toList_none, List.map_nil, List.append_nil]
    cases hfault : p.resultFault? b o with
    | none => exact List.nil_sublist _
    | some finding =>
      rw [Option.toList_some, List.map_singleton,
        nodeKind_of_unusedResult (rule_of_resultFault? hfault)]
      exact .refl _
  | propagate operand =>
    have hnode : o.expr.node? = some (o.expr.span.node .propagation) := by
      unfold Expr.node?
      rw [hform]
    have hnone : p.resultFault? b o = none := by
      unfold resultFault? resultCallee? Expr.callPath?
      rw [hform]
      rfl
    rw [hnone, hnode, Option.toList_none, List.map_nil, List.nil_append]
    cases hfault : p.propagationFault? signature b o.expr with
    | none => exact List.nil_sublist _
    | some finding =>
      rw [Option.toList_some, List.map_singleton,
        nodeKind_of_errorPropagationMisuse (rule_of_propagationFault? hfault)]
      exact .refl _
  | _ =>
    have hcall : p.resultFault? b o = none := by
      unfold resultFault? resultCallee? Expr.callPath?
      rw [hform]
      rfl
    have hpropagate : p.propagationFault? signature b o.expr = none := by
      unfold propagationFault?
      rw [hform]
    rw [hcall, hpropagate]
    exact List.nil_sublist _

theorem nodes_functionDischarge (p : LinkedProgram) (binding : FileBinding) (file : FileKey)
    (d : Spanned FunctionDecl) :
    ((p.functionDischarge binding file d.node).diagnostics.map (·.node)).Sublist
      (functionNodes d) := by
  rcases p.functionDischarge_cases binding file d.node with hnone | ⟨signature, b, -, -, -, heq⟩
  · rw [hnone]
    exact List.nil_sublist _
  · have hexprs : (Stmt.exprs d.node.body).filterMap Expr.node? =
        (Stmt.blockOccurrences d.node.body).flatMap fun o => o.expr.node?.toList := by
      unfold Stmt.exprs
      rw [List.filterMap_map, List.filterMap_eq_flatMap_toList]
      rfl
    rw [heq]
    dsimp only
    rw [List.map_flatMap]
    refine (List.Sublist.flatMap_right _ fun o _ => nodes_occurrenceFaults p signature b o).trans ?_
    rw [← hexprs]
    exact (List.sublist_append_right _ _).cons _

/-- **The diagnostics about results are placed at calls and `?` expressions**, in order. -/
theorem nodes_fileDischarge (p : LinkedProgram) (binding : FileBinding) (u : SourceUnit) :
    ((p.fileDischarge binding u).diagnostics.map (·.node)).Sublist
      (u.functions.flatMap functionNodes) := by
  unfold fileDischarge
  dsimp only
  rw [List.flatMap_map, List.map_flatMap]
  -- functions that are declared again are not checked
  refine List.Sublist.trans ?_ ((firstDeclarations_sublist u.functions).flatMap functionNodes)
  exact List.Sublist.flatMap_right _ fun d _ => nodes_functionDischarge p binding _ d

end LinkedProgram

end EffectAudit
