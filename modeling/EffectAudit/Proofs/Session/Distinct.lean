import EffectAudit.Proofs.Session.Listing
import EffectAudit.Proofs.Session.Placement

/-!
# Diagnostics that are published once

In a file where no two nodes of one kind start at the same place, each stage of the analysis reports
what it finds once, and the stages have nothing in common. So no diagnostic of such a file is
published twice, and the metrics count each different finding once. Where nodes share a place this
may fail.

## Main results

* `Session.Verified.nodup_linked`, `Session.Verified.nodup_faults`,
  `Session.Verified.nodup_discharge`: what the stages find
* `Session.Verified.nodup_found`: what is found in a file, apart from cycles
* `Session.Loaded.eq_of_alike_cycles`: reports of cycles that compare alike are equal
* `Session.published_findings_distinct`: published lists are in order, and when they have no
  diagnostic twice
* `Session.shared_place_published_twice`: a diagnostic that is published twice
-/

namespace EffectAudit

namespace SourceUnit

variable {u : SourceUnit}

theorem Separate.functions (h : u.Separate) : (u.functions.flatMap functionNodes).Nodup :=
  (List.sublist_append_right _ _).nodup h

/-- Import directives that start at the same place are one. -/
theorem Separate.import_eq (h : u.Separate) {i i' : Spanned ImportDecl} (hi : i ∈ u.imports)
    (hi' : i' ∈ u.imports) (heq : i.span.node .directive = i'.span.node .directive) : i = i' := by
  have himports : (u.imports.flatMap importNodes).Nodup :=
    ((List.sublist_append_left _ _).trans (List.sublist_append_left _ _)).nodup h
  exact eq_of_mem_of_nodup_flatMap himports hi hi' List.mem_cons_self (heq ▸ List.mem_cons_self)

end SourceUnit

theorem mem_functionNodes_of_mem_calls {d : Spanned FunctionDecl} {call : Spanned CallPath}
    (h : call ∈ Stmt.calls d.node.body) : call.span.node .call ∈ functionNodes d := by
  obtain ⟨e, he, hcall⟩ := List.mem_filterMap.mp h
  obtain ⟨path, hpath, rfl⟩ := Option.map_eq_some_iff.mp hcall
  refine List.mem_cons_of_mem _ (List.mem_append_right _ (List.mem_filterMap.mpr ⟨e, he, ?_⟩))
  unfold Expr.callPath? at hpath
  unfold Expr.node?
  split at hpath
  · rename_i hform
    rw [hform]
  · cases hpath

theorem kind_of_mem_functionNodes {d : Spanned FunctionDecl} {n : Node} (h : n ∈ functionNodes d) :
    n.kind ≠ .directive := by
  rcases List.mem_cons.mp h with rfl | h
  · simp [Span.node]
  · rcases List.mem_append.mp h with h | h
    · obtain ⟨t, -, rfl⟩ := List.mem_map.mp h
      simp [Span.node]
    · obtain ⟨e, -, he⟩ := List.mem_filterMap.mp h
      unfold Expr.node? at he
      split at he <;> cases he <;> simp [Span.node]

namespace Session

variable {s : Session} {key : FileKey} {f : SourceFile}

/-! ## What the stages find -/

theorem Bound.nodes_binding (h : s.Bound) (hf : s.program.get? key = some f) :
    ((((s.binding? key).map (·.diagnostics)).getD []).map (·.node)).Sublist
      (f.unit.functions.flatMap functionNodes) := by
  unfold binding?
  rw [h.bindings]
  cases hb : s.freshBinding? key with
  | none => exact List.nil_sublist _
  | some b =>
    obtain ⟨f', hf', -, rfl⟩ := Loaded.freshBinding?_eq_some_iff.mp hb
    rw [hf] at hf'
    cases hf'
    exact Scope.nodes_bindDeclarations _ _ _ _

namespace Verified

variable (h : s.Verified) (hf : s.program.get? key = some f) (hsep : f.unit.Separate)

include h hf hsep

theorem nodup_linked :
    ((s.graph.diagnosticsOf key).filter (·.rule ≠ .circularDependency) ++
      ((s.binding? key).map (·.diagnostics)).getD []).Nodup := by
  refine List.Nodup.of_map (·.node) (List.Sublist.nodup ?_ hsep)
  rw [List.map_append, h.graph]
  exact (ModuleGraph.nodes_diagnosticsOf hf s.policy).append (h.nodes_binding hf)

theorem nodup_discharge : (((s.discharge.get? key).map (·.diagnostics)).getD []).Nodup := by
  rw [h.discharge, freshDischarge?, hf, Option.bind_some]
  split
  · exact .nil
  · cases s.binding? key with
    | none => exact .nil
    | some b =>
      exact List.Nodup.of_map (·.node)
        ((LinkedProgram.nodes_fileDischarge s.linked b f.unit).nodup hsep.functions)

omit hf hsep in
/-- The faults of a function that are known come from its declaration. -/
theorem exists_decl_of_mem_faults {g : FunctionRef} {d : Diagnostic}
    (hd : d ∈ (s.effectFaults.get? g).getD []) :
    ∃ signature body, s.symbols.lookup? g = some signature ∧ s.linked.body? g = some body ∧
      LinkedProgram.IsEffectFault signature body d := by
  rw [h.faults, getD_freshFaults?] at hd
  unfold faultsOf at hd
  split at hd
  · exact absurd hd List.not_mem_nil
  · split at hd
    · exact absurd hd List.not_mem_nil
    · exact LinkedProgram.isEffectFault_of_mem hd

theorem nodup_faults_of {g : FunctionRef} (hg : g.file = key) :
    ((s.effectFaults.get? g).getD []).Nodup := by
  rw [h.faults, getD_freshFaults?]
  unfold faultsOf
  split
  · exact .nil
  · rename_i signature hlookup
    split
    · exact .nil
    · refine LinkedProgram.nodup_effectFaults hlookup ?_
      obtain ⟨f', hf', d, hd, -, rfl⟩ := h.exists_decl_of_lookup? hlookup
      rw [hg, hf] at hf'
      cases hf'
      -- the tokens are among the nodes of the function
      have hnodes := (List.nodup_flatMap.mp hsep.functions).1 d (mem_of_mem_firstDeclarations hd)
      exact (List.sublist_append_left _ _).nodup (List.nodup_cons.mp hnodes).2

/-- Functions of a file have no faults in common. -/
theorem eq_of_mem_faults {g g' : FunctionRef} (hg : g.file = key) (hg' : g'.file = key)
    {d : Diagnostic} (hd : d ∈ (s.effectFaults.get? g).getD [])
    (hd' : d ∈ (s.effectFaults.get? g').getD []) : g = g' := by
  obtain ⟨signature, body, hsignature, hbody, hfault⟩ := h.exists_decl_of_mem_faults hd
  obtain ⟨signature', body', hsignature', hbody', hfault'⟩ := h.exists_decl_of_mem_faults hd'
  have hname : g.name = g'.name := by
    rcases hfault.same hfault' with hname | ⟨c, hc, c', hc', hspan⟩
    · have href := SymbolTable.ref_of_lookup? hsignature
      have href' := SymbolTable.ref_of_lookup? hsignature'
      rw [← href, ← href']
      exact hname
    · -- two calls at one place belong to one function
      obtain ⟨f₁, hf₁, -, d₁, hd₁, hname₁, rfl⟩ := h.exists_decl.mp hbody
      obtain ⟨f₂, hf₂, -, d₂, hd₂, hname₂, rfl⟩ := h.exists_decl.mp hbody'
      rw [hg, hf] at hf₁
      rw [hg', hf] at hf₂
      cases hf₁
      cases hf₂
      obtain ⟨call, hcall, -, hat⟩ := Scope.mem_calls_boundFunction.mp hc
      obtain ⟨call', hcall', -, hat'⟩ := Scope.mem_calls_boundFunction.mp hc'
      have hnode := mem_functionNodes_of_mem_calls hcall
      have hnode' := mem_functionNodes_of_mem_calls hcall'
      rw [hat, hspan] at hnode
      rw [hat'] at hnode'
      rw [← hname₁, ← hname₂, eq_of_mem_of_nodup_flatMap hsep.functions
        (mem_of_mem_firstDeclarations hd₁) (mem_of_mem_firstDeclarations hd₂) hnode hnode']
  exact congrArg₂ FunctionRef.mk (hg.trans hg'.symm) hname

theorem nodup_faults :
    ((s.symbols.functionsIn key).flatMap fun g => (s.effectFaults.get? g).getD []).Nodup := by
  have hfile : ∀ g ∈ s.symbols.functionsIn key, g.file = key := fun g hg =>
    (SymbolTable.mem_functionsIn_iff.mp hg).2
  refine List.nodup_flatMap.mpr ⟨fun g hg => h.nodup_faults_of hf hsep (hfile g hg), ?_⟩
  refine (s.symbols.nodup_functionsIn key).imp_of_mem fun hg hg' hne d hd hd' => ?_
  exact hne (h.eq_of_mem_faults hf hsep (hfile _ hg) (hfile _ hg') hd hd')

/-- **Apart from cycles nothing is found twice** in a file whose nodes stand apart. -/
theorem nodup_found : ((s.found key).filter (·.rule ≠ .circularDependency)).Nodup := by
  have hlinked : ∀ d ∈ s.graph.diagnosticsOf key ++ ((s.binding? key).map (·.diagnostics)).getD [],
      d.rule.stage = .linking := by
    intro d hd
    rcases List.mem_append.mp hd with hd | hd
    · rw [h.graph] at hd
      exact (ModuleGraph.reportedBy_of_mem_diagnosticsOf hd).2
    · exact (Scope.reportedBy_of_mem_bindDeclarations (h.mem_bindFile hf hd)).2
  have hfaults : ∀ d ∈ (s.symbols.functionsIn key).flatMap fun g => (s.effectFaults.get? g).getD [],
      d.rule.stage = .effects := by
    intro d hd
    obtain ⟨g, -, hd⟩ := List.mem_flatMap.mp hd
    obtain ⟨_, _, -, -, hfault⟩ := h.exists_decl_of_mem_faults hd
    exact hfault.reportedBy.2
  have hresults : ∀ d ∈ ((s.discharge.get? key).map (·.diagnostics)).getD [],
      d.rule.stage = .results := by
    intro d hd
    obtain ⟨b, hd⟩ := h.exists_mem_fileDischarge hf hd
    exact (LinkedProgram.reportedBy_of_mem_fileDischarge hd).2
  unfold found
  rw [List.filter_append, List.filter_append, List.nodup_append, List.nodup_append]
  -- diagnostics of different stages have different rules
  refine ⟨⟨?_, (h.nodup_faults hf hsep).filter _, ?_⟩, (h.nodup_discharge hf hsep).filter _, ?_⟩
  · rw [List.filter_append]
    exact ((List.Sublist.refl _).append List.filter_sublist).nodup (h.nodup_linked hf hsep)
  · rintro d hd e he rfl
    have hstage := hlinked d (List.mem_of_mem_filter hd)
    rw [hfaults d (List.mem_of_mem_filter he)] at hstage
    cases hstage
  · rintro d hd e he rfl
    have hstage := hresults d (List.mem_of_mem_filter he)
    rcases List.mem_append.mp hd with hd | hd
    · rw [hlinked d (List.mem_of_mem_filter hd)] at hstage
      cases hstage
    · rw [hfaults d (List.mem_of_mem_filter hd)] at hstage
      cases hstage

end Verified

/-! ## Cycles -/

/-- The report of a cycle is placed at an import of the file that closes it. -/
theorem Loaded.exists_import_of_cycle (h : s.Loaded) (hf : s.program.get? key = some f)
    {d : Diagnostic} (hd : d ∈ s.graph.diagnosticsOf key) (hrule : d.rule = .circularDependency) :
    ∃ paths, ∃ i ∈ f.unit.imports,
      d = (Finding.circularDependency paths).report f.path i.span := by
  rw [h.graph] at hd
  have hmem : d ∈ ((ModuleGraph.build s.program s.policy).diagnosticsOf key).filter
      (·.rule == .circularDependency) := List.mem_filter.mpr ⟨hd, beq_iff_eq.mpr hrule⟩
  rw [ModuleGraph.filter_diagnosticsOf] at hmem
  obtain ⟨c, hc, rfl⟩ := List.mem_map.mp hmem
  obtain ⟨hc, hlast⟩ := List.mem_filter.mp hc
  obtain ⟨u, v, span, ⟨front, rfl⟩, ⟨f', hf', i, hi, rfl, -⟩, hreport⟩ :=
    ModuleGraph.importsAt_of_mem_cycles hc
  have hu : u = key := by
    have hdrop : (front ++ [u, v]).dropLast = front ++ [u] := by
      rw [List.append_cons, List.dropLast_concat]
    rw [hdrop, List.getLast?_concat, beq_iff_eq] at hlast
    exact Option.some.inj hlast
  subst hu
  rw [hf] at hf'
  cases hf'
  have hpath : ModuleGraph.listedPath s.program u = f.path := by
    unfold ModuleGraph.listedPath
    rw [hf]
    rfl
  rw [hpath] at hreport
  exact ⟨_, i, hi, hreport⟩

/-- Reports of cycles that compare alike are equal. -/
theorem Loaded.eq_of_alike_cycles (h : s.Loaded) (hf : s.program.get? key = some f)
    (hsep : f.unit.Separate) {d e : Diagnostic} (hd : d ∈ s.graph.diagnosticsOf key)
    (he : e ∈ s.graph.diagnosticsOf key) (hrule : d.rule = .circularDependency)
    (horder : Diagnostic.order d e = .eq) : d = e := by
  obtain ⟨hline, hcolumn, hrules, hmessage⟩ := Diagnostic.order_eq_iff.mp horder
  obtain ⟨paths, i, hi, rfl⟩ := h.exists_import_of_cycle hf hd hrule
  obtain ⟨paths', i', hi', rfl⟩ := h.exists_import_of_cycle hf he (hrules ▸ hrule)
  have hstart : i.span.node .directive = i'.span.node .directive :=
    congrArg₂ (Node.mk .directive) hline hcolumn
  have htext : (Finding.circularDependency paths).message =
    (Finding.circularDependency paths').message := hmessage
  obtain rfl := hsep.import_eq hi hi' hstart
  unfold Finding.report
  rw [htext]
  rfl

namespace Verified

variable (h : s.Verified) (hf : s.program.get? key = some f)

include h hf

/-- Only the module graph reports cycles. -/
theorem mem_graph_of_cycle {d : Diagnostic} (hd : d ∈ s.found key)
    (hrule : d.rule = .circularDependency) : d ∈ s.graph.diagnosticsOf key := by
  rcases List.mem_append.mp hd with hd | hd
  · rcases List.mem_append.mp hd with hd | hd
    · rcases List.mem_append.mp hd with hd | hd
      · exact hd
      · -- functions, tokens and calls are no import directives
        have hnode := (h.nodes_binding hf).subset (List.mem_map_of_mem hd)
        obtain ⟨decl, -, hnode⟩ := List.mem_flatMap.mp hnode
        refine absurd ?_ (kind_of_mem_functionNodes hnode)
        show d.nodeKind = .directive
        unfold Diagnostic.nodeKind
        rw [hrule]
    · obtain ⟨g, -, hd⟩ := List.mem_flatMap.mp hd
      obtain ⟨_, _, -, -, hfault⟩ := h.exists_decl_of_mem_faults hd
      have hstage := hfault.reportedBy.2
      rw [hrule] at hstage
      cases hstage
  · obtain ⟨b, hd⟩ := h.exists_mem_fileDischarge hf hd
    have hstage := (LinkedProgram.reportedBy_of_mem_fileDischarge hd).2
    rw [hrule] at hstage
    cases hstage

/-- **Nothing is found before and after something else that compares like it** in a file whose nodes
stand apart. -/
theorem eq_of_interleaved (hsep : f.unit.Separate) {d e : Diagnostic}
    (horder : Diagnostic.order d e = .eq) (hsub : [d, e, d].Sublist (s.found key)) : d = e := by
  -- cycles may be reported at one import several times, and nothing else is found twice
  by_cases hrule : d.rule = .circularDependency
  · have hd : d ∈ s.found key := hsub.subset List.mem_cons_self
    have he : e ∈ s.found key := hsub.subset (List.mem_cons_of_mem _ List.mem_cons_self)
    have hrule' : e.rule = .circularDependency := (Diagnostic.order_eq_iff.mp horder).2.2.1 ▸ hrule
    exact h.eq_of_alike_cycles hf hsep (h.mem_graph_of_cycle hf hd hrule)
      (h.mem_graph_of_cycle hf he hrule') hrule horder
  · have htwice : [d, d].Sublist (s.found key) :=
      ((List.sublist_cons_self e [d]).cons_cons d).trans hsub
    have hfilter := htwice.filter (·.rule ≠ .circularDependency)
    rw [List.filter_eq_self.mpr (by simp [hrule])] at hfilter
    exact absurd hfilter (List.nodup_iff_sublist.mp (h.nodup_found hf hsep) d)

end Verified

/-! ## What is published -/

namespace Current

variable (h : s.Current)

include h

theorem diagnosticsOf_eq (hf : s.program.get? key = some f) :
    s.diagnosticsOf key =
      if s.policy.isExcluded f.path then [] else s.shownDiagnostics key f.unit := by
  unfold diagnosticsOf
  rw [h.published, freshShown?, hf]
  rfl

/-- What is published is what is shown of the files of the program. -/
theorem values_published : s.published.values = s.program.entries.map fun e =>
    if s.policy.isExcluded e.2.path then [] else s.shownDiagnostics e.1 e.2.unit := by
  have hmap : s.published = s.program.map fun key f =>
      if s.policy.isExcluded f.path then [] else s.shownDiagnostics key f.unit := by
    refine OrderedMap.ext_get? fun key => ?_
    rw [h.published, OrderedMap.get?_map]
    rfl
  rw [hmap]
  exact List.map_map

/-- If no diagnostic is published twice, the metrics count each different finding once. -/
theorem total_metrics_eq (hnodup : ∀ key, (s.diagnosticsOf key).Nodup) :
    s.metrics.total = (s.program.entries.flatMap fun e =>
      if s.policy.isExcluded e.2.path then [] else distinct (s.enabledFindings e.1)).length := by
  rw [total_metrics, diagnostics, h.values_published, ← List.flatMap_def, List.length_flatMap,
    List.length_flatMap]
  refine congrArg List.sum (List.map_congr_left fun e he => ?_)
  have hshown := hnodup e.1
  rw [h.diagnosticsOf_eq (OrderedMap.mem_entries_iff.mp he)] at hshown
  split
  · rfl
  · rename_i hexcluded
    rw [if_neg hexcluded] at hshown
    rw [(perm_shownDiagnostics _ hshown).length_eq, List.length_map]

end Current

/-- **Published lists are in order, and when they have no diagnostic twice.** Whatever steps a
session takes, the lists that it publishes are in order of line, column, rule and message, and no
neighbours in them are equal. After an analysis, a file that is not excluded has a diagnostic twice
if and only if a finding was made before and after another one that compares like it. This never
happens in a file where no two nodes of one kind start at the same place: such a file shows each
different finding once. If all files are such, the metrics count each different finding of each file
once. -/
theorem published_findings_distinct (registry : Registry) (policy : Policy) (steps : List Step) :
    let s := (start registry policy).run steps
    (∀ key, (s.diagnosticsOf key).Pairwise (fun a b => Diagnostic.atMost a b = true) ∧
      (s.diagnosticsOf key).IsChain (· ≠ ·)) ∧
    ∀ units, let t := s.analyze units
      (∀ key f, t.program.get? key = some f → t.policy.isExcluded f.path = false →
        ((t.diagnosticsOf key).Nodup ↔ ∀ d e, Diagnostic.order d e = .eq →
          [d, e, d].Sublist (t.enabledFindings key) → d = e) ∧
        (f.unit.Separate → (t.diagnosticsOf key).Perm
          ((distinct (t.enabledFindings key)).map (present t.policy f.unit)))) ∧
      (∀ key f, t.program.get? key = some f → f.unit.Separate → (t.diagnosticsOf key).Nodup) ∧
      ((∀ key f, t.program.get? key = some f → f.unit.Separate) →
        t.metrics.total = (t.program.entries.flatMap fun e =>
          if t.policy.isExcluded e.2.path then []
            else distinct (t.enabledFindings e.1)).length) := by
  intro s
  refine ⟨fun key => ?_, fun units => ?_⟩
  · have hlisted : Diagnostic.Listed (s.diagnosticsOf key) := by
      unfold diagnosticsOf
      cases hds : s.published.get? key with
      | none => exact Diagnostic.listed_nil
      | some ds => exact (reporting_run registry policy steps).published key ds hds
    exact ⟨hlisted.sorted, hlisted.apart⟩
  · intro t
    have ht : t.Current := current_analyze s units
    have hreports := (reporting_analyze s units).found
    have hshown : ∀ {key f}, t.program.get? key = some f → f.unit.Separate →
        (t.shownDiagnostics key f.unit).Nodup := by
      intro key f hf hsep
      refine (nodup_shownDiagnostics_iff (hreports key) f.unit).mpr fun d e horder hsub => ?_
      exact ht.eq_of_interleaved hf hsep horder (hsub.trans List.filter_sublist)
    have hnodup : ∀ key f, t.program.get? key = some f → f.unit.Separate →
        (t.diagnosticsOf key).Nodup := by
      intro key f hf hsep
      rw [ht.diagnosticsOf_eq hf]
      split
      · exact .nil
      · exact hshown hf hsep
    refine ⟨fun key f hf hexcluded => ?_, hnodup, fun hsep => ?_⟩
    · rw [ht.diagnosticsOf_eq hf, hexcluded, if_neg Bool.false_ne_true]
      exact ⟨nodup_shownDiagnostics_iff (hreports key) f.unit,
        fun hsep => perm_shownDiagnostics f.unit (hshown hf hsep)⟩
    · refine ht.total_metrics_eq fun key => ?_
      cases hf : t.program.get? key with
      | none =>
        unfold diagnosticsOf
        rw [ht.published, freshShown?, hf]
        exact .nil
      | some f => exact hnodup key f hf (hsep key f hf)

/-- A call of a function that returns a result, at the given line. -/
def loadCall (line : UInt32) : Expr := .node ⟨line, 5, 6⟩ none (.call { name := "load" } [])

/-- A file with three calls of which no result is handled, the second by half. -/
def jobUnit (first second third : UInt32) : SourceUnit where
  path := ⟨"job.cdz"⟩
  declarations :=
    [⟨.function { name := "load", returns := .result .unit (.named "IoError") }, ⟨1, 1, 8⟩⟩,
     ⟨.function { name := "run", returns := .unit
                  body := [.node ⟨first, 1, 9⟩ (.expr (loadCall first)),
                    .node ⟨second, 1, 9⟩ (.expr (.node ⟨second, 1, 9⟩ none
                      (.statusBranch (loadCall second) .isOk [] none))),
                    .node ⟨third, 1, 9⟩ (.expr (loadCall third))] }, ⟨2, 1, 8⟩⟩]

theorem job_findings_distinct :
    let t := (start .standard {}).analyze [jobUnit 3 4 5]
    let key := Path.key ⟨"job.cdz"⟩
    (jobUnit 3 4 5).Separate ∧ (t.diagnosticsOf key).length = 3 ∧ (t.diagnosticsOf key).Nodup ∧
    (t.diagnosticsOf key).Perm
      ((distinct (t.enabledFindings key)).map (present t.policy (jobUnit 3 4 5))) := by
  intro t key
  have hsep : (jobUnit 3 4 5).Separate := by decide +kernel
  have hf : t.program.get? key = some ⟨⟨"job.cdz"⟩, jobUnit 3 4 5⟩ := by rfl
  obtain ⟨-, hanalysis⟩ := published_findings_distinct .standard {} []
  obtain ⟨hfile, hnodup, -⟩ := hanalysis [jobUnit 3 4 5]
  exact ⟨hsep, by decide +kernel, hnodup key _ hf hsep, (hfile key _ hf rfl).2 hsep⟩

/-- Three calls stand at one place. The report on the first and the last of them is published twice,
since the report on the second one compares like it, and the metrics count it twice. -/
theorem shared_place_published_twice :
    let t := (start .standard {}).analyze [jobUnit 3 3 3]
    let report := present t.policy (jobUnit 3 3 3)
    let unused := report ((Finding.unusedResult "load").report ⟨"job.cdz"⟩ ⟨3, 5, 6⟩)
    let partly :=
      report ((Finding.partiallyHandledResult "load" "Err").report ⟨"job.cdz"⟩ ⟨3, 5, 6⟩)
    let shown := t.diagnosticsOf (Path.key ⟨"job.cdz"⟩)
    shown = [unused, partly, unused] ∧ ¬ shown.Nodup ∧ (distinct shown).length = 2 ∧
      t.metrics.total = 3 := by
  decide +kernel

end Session

end EffectAudit
