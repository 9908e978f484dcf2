import EffectAudit.Proofs.Effects.FaultNodes
import EffectAudit.Proofs.Session.Current

/-!
# Where diagnostics are placed

Every diagnostic that is found in a file is placed in that file, by the path by which the file is
listed. Only the verdict on declared effects warns of effects that are not used; the effects that a
policy ignores take away exactly the warnings about them.

## Main results

* `ModuleGraph.plainIn_of_mem_diagnosticsOf`, `Scope.plainIn_of_mem_bindDeclarations`,
  `LinkedProgram.plainIn_of_mem_fileDischarge`: diagnostics about modules, calls and results
* `LinkedProgram.file_of_mem_effectFaults`: diagnostics about effects
* `LinkedProgram.effectFaults_eq_filter`: what ignoring effects does to them
* `Session.Verified.file_of_mem_found`: all diagnostics of a file are placed in it
-/

namespace EffectAudit

/-! ## Modules -/

theorem ModuleGraph.plainIn_of_mem_diagnosticsOf {p : Program} (hp : p.WellListed) {policy : Policy}
    {key : FileKey} {f : SourceFile} (hf : p.get? key = some f) {d : Diagnostic}
    (hd : d ∈ (build p policy).diagnosticsOf key) : d.PlainIn f.path := by
  rw [diagnosticsOf_build] at hd
  rcases List.mem_append.mp hd with hd | hd
  · rcases List.mem_append.mp hd with hd | hd
    · -- an import that failed
      obtain ⟨f', hf', hrule, hfile⟩ := of_mem_resolvedFiles hd
      rw [hf] at hf'
      cases hf'
      exact ⟨hfile, by rw [hrule]; decide⟩
    · -- a cycle that the file closes
      obtain ⟨c, hc, rfl⟩ := List.mem_map.mp hd
      have hlast : c.getLastD [] = key := eq_of_beq (List.mem_filter.mp hc).2
      refine ⟨?_, nofun⟩
      show listedPath p (c.getLastD []) = f.path
      unfold listedPath
      rw [hlast, hf]
      rfl
  · -- a conflict with another file of the module
    obtain ⟨e, he, hd⟩ := List.mem_flatMap.mp hd
    obtain ⟨he, hkey⟩ := List.mem_filter.mp he
    obtain ⟨⟨f', hf', hreports⟩, -⟩ := of_mem_moduleConflicts he
    rw [eq_of_beq hkey, hf] at hf'
    cases hf'
    obtain ⟨hrule, hfile⟩ := hreports d hd
    exact ⟨hfile.trans (hp key f hf).2, by rw [hrule]; decide⟩

/-! ## Calls -/

namespace Scope

theorem rule_of_resolve {s : Scope} {path : CallPath} {finding : Finding}
    (h : s.resolve path = .refused finding) : finding.rule ≠ .effectMinimality := by
  intro hrule
  have hstage := (isComplaint_of_resolve h).2
  rw [hrule] at hstage
  cases hstage

theorem plainIn_of_mem_bindFunction {s : Scope} {path : Path} {decl : FunctionDecl}
    {d : Diagnostic} (hd : d ∈ (s.bindFunction path decl).diagnostics) : d.PlainIn path := by
  rcases List.mem_append.mp hd with hd | hd
  · obtain ⟨t, -, rfl⟩ := List.mem_map.mp hd
    exact ⟨rfl, nofun⟩
  · obtain ⟨call, -, hcall⟩ := List.mem_filterMap.mp hd
    unfold complaint? at hcall
    split at hcall
    · rename_i finding hr
      cases hcall
      exact ⟨rfl, rule_of_resolve hr⟩
    · cases hcall

theorem plainIn_of_mem_bindDeclarations {s : Scope} {path : Path} {names : List String}
    {ds : List (Spanned FunctionDecl)} {d : Diagnostic}
    (hd : d ∈ (s.bindDeclarations path names ds).diagnostics) : d.PlainIn path := by
  induction ds generalizing names with
  | nil => exact absurd hd List.not_mem_nil
  | cons decl rest ih =>
    unfold bindDeclarations at hd
    split at hd
    · exact ih hd
    · split at hd
      · rcases List.mem_append.mp hd with hd | hd
        · rw [List.mem_singleton.mp hd]
          exact ⟨rfl, nofun⟩
        · exact ih hd
      · rcases List.mem_append.mp hd with hd | hd
        · exact plainIn_of_mem_bindFunction hd
        · exact ih hd

end Scope

/-! ## Results -/

namespace LinkedProgram

variable {p : LinkedProgram}

theorem plainIn_of_mem_functionDischarge {binding : FileBinding} {file : FileKey}
    {decl : FunctionDecl} {d : Diagnostic}
    (hd : d ∈ (p.functionDischarge binding file decl).diagnostics) :
    ∃ s, p.signature? ⟨file, decl.name⟩ = some s ∧ d.PlainIn s.path := by
  unfold functionDischarge at hd
  split at hd
  · rename_i s body hs hb
    split at hd
    · exact absurd hd List.not_mem_nil
    · obtain ⟨o, -, hd⟩ := List.mem_flatMap.mp hd
      obtain ⟨finding, hfinding, rfl⟩ := List.mem_map.mp hd
      refine ⟨s, hs, rfl, ?_⟩
      rcases List.mem_append.mp hfinding with hfinding | hfinding
      · have hrule := rule_of_resultFault? (Option.mem_toList.mp hfinding)
        show finding.rule ≠ .effectMinimality
        rw [hrule]
        decide
      · have hrule := rule_of_propagationFault? (Option.mem_toList.mp hfinding)
        show finding.rule ≠ .effectMinimality
        rw [hrule]
        decide
  · exact absurd hd List.not_mem_nil

theorem plainIn_of_mem_fileDischarge {binding : FileBinding} {u : SourceUnit} {d : Diagnostic}
    (hd : d ∈ (p.fileDischarge binding u).diagnostics) :
    ∃ name s, p.signature? ⟨u.path.key, name⟩ = some s ∧ d.PlainIn s.path := by
  obtain ⟨part, hpart, hd⟩ := List.mem_flatMap.mp hd
  obtain ⟨decl, -, rfl⟩ := List.mem_map.mp hpart
  exact ⟨decl.node.name, plainIn_of_mem_functionDischarge hd⟩

/-! ## Effects -/

section Effects

variable {summaries : Summaries} {s : Signature} {summary : EffectSummary}

theorem plainIn_of_mem_impurity? {body : BoundFunction} {d : Diagnostic}
    (hd : d ∈ (p.impurity? summaries s body summary).toList) : d.PlainIn s.path := by
  have h := Option.mem_toList.mp hd
  unfold impurity? at h
  dsimp only at h
  split at h
  · cases h
    exact ⟨rfl, nofun⟩
  · split at h
    · cases h
    · cases h
      exact ⟨rfl, nofun⟩

theorem plainIn_of_mem_missingEffects {d : Diagnostic}
    (hd : d ∈ missingEffects summaries s summary) : d.PlainIn s.path := by
  obtain ⟨e, -, rfl⟩ := List.mem_map.mp hd
  exact ⟨rfl, nofun⟩

theorem file_of_mem_effectFaults {ignored : EffectSet} {f : FunctionRef} {d : Diagnostic}
    (hd : d ∈ p.effectFaults summaries ignored f) :
    ∃ s, p.signature? f = some s ∧ d.location.file = s.path := by
  obtain ⟨s, body, hs, -, hfault⟩ := isEffectFault_of_mem hd
  refine ⟨s, hs, ?_⟩
  rcases hfault with ⟨_, -, _, _, rfl⟩ | ⟨_, _, rfl⟩ | ⟨_, _, _, _, rfl⟩ | ⟨_, -, _, rfl⟩ <;> rfl

open Classical in
theorem unusedEffects_eq_filter (ignored : EffectSet) :
    p.unusedEffects ignored s summary =
      (p.unusedEffects ∅ s summary).filter fun d => ¬ d.WarnsOfAny ignored := by
  unfold unusedEffects
  split
  · rw [List.filter_filterMap]
    refine List.filterMap_congr fun t _ => ?_
    cases p.registry.effect? t.node with
    | none => rfl
    | some e =>
      have hempty : EffectSet.contains ∅ e = false :=
        Bool.eq_false_iff.mpr (EffectSet.not_mem_empty e)
      dsimp only
      rw [hempty, Bool.or_false]
      cases summary.required.contains e with
      | true => rfl
      | false =>
        -- an effect that is not used is reported, unless it is ignored
        rw [Bool.false_or, if_neg Bool.false_ne_true, Option.filter_some]
        have hwarns : ((Finding.unusedEffect s.name e).report s.path t.span).WarnsOfAny ignored ↔
            ignored.contains e = true := Diagnostic.warnsOfAny_report
        cases hi : ignored.contains e with
        | true => simp [hwarns, hi]
        | false => simp [hwarns, hi]
  · rfl

open Classical in
/-- **Ignoring effects takes away the warnings about them** and nothing else. -/
theorem effectFaults_eq_filter (ignored : EffectSet) (f : FunctionRef) :
    p.effectFaults summaries ignored f =
      (p.effectFaults summaries ∅ f).filter fun d => ¬ d.WarnsOfAny ignored := by
  have hplain : ∀ {path : Path} {l : List Diagnostic}, (∀ d ∈ l, d.PlainIn path) →
      l.filter (fun d => ¬ d.WarnsOfAny ignored) = l := fun h =>
    List.filter_eq_self.mpr fun d hd => decide_eq_true ((h d hd).not_warnsOfAny ignored)
  unfold effectFaults
  split
  · split
    · rfl
    · split
      · exact (hplain fun d hd => plainIn_of_mem_impurity? hd).symm
      · rw [List.filter_append, hplain fun d hd => plainIn_of_mem_missingEffects hd,
          unusedEffects_eq_filter]
  · rfl

end Effects

end LinkedProgram

/-! ## Files -/

namespace Session

variable {s : Session} {key : FileKey} {f : SourceFile} {d : Diagnostic}

theorem getD_freshFaults? (s : Session) (g : FunctionRef) :
    (s.freshFaults? g).getD [] = s.faultsOf s.linked s.summaries g := by
  unfold freshFaults?
  cases hfaults : s.faultsOf s.linked s.summaries g with
  | nil => rfl
  | cons d rest => rfl

theorem Loaded.path_of_lookup? (h : s.Loaded) {g : FunctionRef} {sig : Signature}
    (hf : s.program.get? g.file = some f) (hg : s.symbols.lookup? g = some sig) :
    sig.path = f.path := by
  obtain ⟨f', hf', decl, -, -, rfl⟩ := h.exists_decl_of_lookup? hg
  rw [hf] at hf'
  cases hf'
  exact (h.listed g.file f hf).2

theorem Loaded.plainIn_of_mem_graph (h : s.Loaded) (hf : s.program.get? key = some f)
    (hd : d ∈ s.graph.diagnosticsOf key) : d.PlainIn f.path := by
  rw [h.graph] at hd
  exact ModuleGraph.plainIn_of_mem_diagnosticsOf h.listed hf hd

theorem Bound.mem_bindFile (h : s.Bound) (hf : s.program.get? key = some f)
    (hd : d ∈ ((s.binding? key).map (·.diagnostics)).getD []) :
    d ∈ (Scope.bindFile s.registry s.symbols s.graph f.unit).diagnostics := by
  unfold binding? at hd
  rw [h.bindings] at hd
  cases hb : s.freshBinding? key with
  | none =>
    rw [hb] at hd
    exact absurd hd List.not_mem_nil
  | some b =>
    rw [hb] at hd
    obtain ⟨f', hf', -, rfl⟩ := Loaded.freshBinding?_eq_some_iff.mp hb
    rw [hf] at hf'
    cases hf'
    exact hd

theorem Bound.plainIn_of_mem_binding (h : s.Bound) (hf : s.program.get? key = some f)
    (hd : d ∈ ((s.binding? key).map (·.diagnostics)).getD []) : d.PlainIn f.path := by
  rw [← (h.listed key f hf).2]
  exact Scope.plainIn_of_mem_bindDeclarations (h.mem_bindFile hf hd)

theorem Verified.file_of_mem_effectFaults (h : s.Verified) {g : FunctionRef}
    (hf : s.program.get? g.file = some f) (hd : d ∈ (s.effectFaults.get? g).getD []) :
    d.location.file = f.path := by
  rw [h.faults, getD_freshFaults?] at hd
  unfold faultsOf at hd
  split at hd
  · exact absurd hd List.not_mem_nil
  · split at hd
    · exact absurd hd List.not_mem_nil
    · obtain ⟨sig, hsig, hfile⟩ := LinkedProgram.file_of_mem_effectFaults hd
      exact hfile.trans (h.path_of_lookup? hf hsig)

theorem Verified.exists_mem_fileDischarge (h : s.Verified) (hf : s.program.get? key = some f)
    (hd : d ∈ ((s.discharge.get? key).map (·.diagnostics)).getD []) :
    ∃ b, d ∈ (s.linked.fileDischarge b f.unit).diagnostics := by
  rw [h.discharge, freshDischarge?, hf, Option.bind_some] at hd
  split at hd
  · exact absurd hd List.not_mem_nil
  · cases hb : s.binding? key with
    | none =>
      rw [hb] at hd
      exact absurd hd List.not_mem_nil
    | some b =>
      rw [hb] at hd
      exact ⟨b, hd⟩

theorem Verified.plainIn_of_mem_discharge (h : s.Verified) (hf : s.program.get? key = some f)
    (hd : d ∈ ((s.discharge.get? key).map (·.diagnostics)).getD []) : d.PlainIn f.path := by
  obtain ⟨b, hd⟩ := h.exists_mem_fileDischarge hf hd
  obtain ⟨name, sig, hsig, hplain⟩ := LinkedProgram.plainIn_of_mem_fileDischarge hd
  rw [h.listed.unit_key hf] at hsig
  have hpath : sig.path = f.path := h.path_of_lookup? hf hsig
  rw [← hpath]
  exact hplain

/-- **All diagnostics of a file are placed in it**, by the path by which it is listed. -/
theorem Verified.file_of_mem_found (h : s.Verified) (hf : s.program.get? key = some f)
    (hd : d ∈ s.found key) : d.location.file = f.path := by
  rcases List.mem_append.mp hd with hd | hd
  · rcases List.mem_append.mp hd with hd | hd
    · rcases List.mem_append.mp hd with hd | hd
      · exact (h.plainIn_of_mem_graph hf hd).file
      · exact (h.plainIn_of_mem_binding hf hd).file
    · obtain ⟨g, hg, hfault⟩ := List.mem_flatMap.mp hd
      obtain ⟨-, rfl⟩ := SymbolTable.mem_functionsIn_iff.mp hg
      exact h.file_of_mem_effectFaults hf hfault
  · exact (h.plainIn_of_mem_discharge hf hd).file

theorem Verified.file_of_mem_shown (h : s.Verified) (hf : s.program.get? key = some f)
    (hd : d ∈ s.shownDiagnostics key f.unit) : d.location.file = f.path := by
  obtain ⟨d', hd', rfl⟩ := List.mem_map.mp hd
  have hfound := mem_sortBy.mp (mem_dropRepeats.mp (List.mem_filter.mp hd').1)
  show d'.location.file = f.path
  exact h.file_of_mem_found hf hfound

theorem Current.file_of_mem_diagnosticsOf (h : s.Current) (hf : s.program.get? key = some f)
    (hd : d ∈ s.diagnosticsOf key) : d.location.file = f.path := by
  unfold diagnosticsOf at hd
  rw [h.published, freshShown?, hf] at hd
  dsimp only [Option.map_some, Option.getD_some] at hd
  split at hd
  · exact absurd hd List.not_mem_nil
  · exact h.file_of_mem_shown hf hd

end Session

end EffectAudit
