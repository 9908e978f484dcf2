import EffectAudit.Proofs.Effects.FaultNodes
import EffectAudit.Proofs.Session.Incremental

/-!
# Published lists

What is found in a file is sorted, equal neighbours are cut down to one, and what the policy enables
is shown. So whatever steps a session takes, the published lists are in order and have no equal
neighbours. They may have equal diagnostics with others between them, since the order does not tell
all diagnostics apart: exactly where a finding was made before and after another one that compares
like it.

## Main definitions

* `Diagnostic.Listed`: a list in order and without equal neighbours
* `Session.enabledFindings`: what is found in a file under rules that are enabled
* `Session.Reporting`: what a session knows consists of reports, and what it publishes is listed

## Main results

* `Session.Reporting.bind`, `Session.Reporting.verify`, `Session.Reporting.publish`: stages keep
  this
* `Session.reporting_run`: so do all steps of a session
* `Session.nodup_shownDiagnostics_iff`: when a list has no diagnostic twice
* `Session.perm_shownDiagnostics`: such a list has each different finding once
* `Session.total_metrics`: the metrics count what is published
-/

namespace EffectAudit

/-- A list of diagnostics in order and without equal neighbours. -/
structure Diagnostic.Listed (ds : List Diagnostic) : Prop where
  sorted : ds.Pairwise fun a b => atMost a b = true
  apart : ds.IsChain (· ≠ ·)

theorem Diagnostic.listed_nil : Listed [] := ⟨.nil, .nil⟩

namespace Session

/-! ## What is shown of a file -/

/-- What is found in a file under rules that are enabled. -/
def enabledFindings (s : Session) (key : FileKey) : List Diagnostic :=
  (s.found key).filter fun d => s.policy.isEnabled d.rule

/-- Reports that are shown alike are equal: the policy gives a severity to each rule, and the text
of a line depends on its number. -/
theorem present_inj {policy : Policy} {u : SourceUnit} {d e : Diagnostic} (hd : d.IsReport)
    (he : e.IsReport) (h : present policy u d = present policy u e) : d = e := by
  obtain ⟨a, file, span, rfl⟩ := hd
  obtain ⟨b, file', span', rfl⟩ := he
  have hrule : a.rule = b.rule := congrArg Diagnostic.rule h
  have hmessage : a.message = b.message := congrArg Diagnostic.message h
  have hfile : file = file' := congrArg (·.location.file) h
  have hspan : span = span' := congrArg (·.location.span) h
  have hfix : a.fix? = b.fix? := congrArg Diagnostic.fix? h
  have hnotes : a.notes = b.notes := congrArg Diagnostic.notes h
  unfold Finding.report
  rw [hrule, hmessage, hfile, hspan, hfix, hnotes]

/-- Findings under rules that are not enabled may be left out from the start. -/
theorem shownDiagnostics_eq (s : Session) (key : FileKey) (u : SourceUnit) :
    s.shownDiagnostics key u =
      (dropRepeats (sortBy Diagnostic.atMost (s.enabledFindings key))).map
        (present s.policy u) := by
  unfold shownDiagnostics enabledFindings
  dsimp only
  -- diagnostics that compare alike are of one rule, so both or none of them are shown
  have hkeep : ∀ a b, Diagnostic.atMost a b = true → Diagnostic.atMost b a = true →
      s.policy.isEnabled a.rule = s.policy.isEnabled b.rule := fun a b hab hba => by
    rw [(Diagnostic.alike_of_atMost hab hba).1]
  rw [filter_dropRepeats hkeep
      (pairwise_sortBy _ Diagnostic.atMost_total Diagnostic.atMost_trans _),
    filter_sortBy Diagnostic.atMost_total Diagnostic.atMost_trans]

section Shown

variable {s : Session} {key : FileKey} (hfound : ∀ d ∈ s.found key, d.IsReport) (u : SourceUnit)

include hfound

theorem isReport_of_mem_sorted {d : Diagnostic}
    (hd : d ∈ dropRepeats (sortBy Diagnostic.atMost (s.enabledFindings key))) : d.IsReport :=
  hfound d (List.mem_of_mem_filter (mem_sortBy.mp (mem_dropRepeats.mp hd)))

theorem listed_shownDiagnostics : Diagnostic.Listed (s.shownDiagnostics key u) := by
  rw [shownDiagnostics_eq]
  constructor
  · -- presentation leaves alone what the order looks at
    have hsorted := pairwise_sortBy _ Diagnostic.atMost_total Diagnostic.atMost_trans
      (s.enabledFindings key)
    exact List.pairwise_map.mpr (hsorted.sublist (dropRepeats_sublist _))
  · refine (List.isChain_map _).mpr ((isChain_dropRepeats _).imp_of_mem_imp ?_)
    intro d e hd he hne heq
    exact hne (present_inj (isReport_of_mem_sorted hfound hd)
      (isReport_of_mem_sorted hfound he) heq)

/-- **When a diagnostic is shown twice**: if it was found before and after another one with which it
compares alike. -/
theorem nodup_shownDiagnostics_iff :
    (s.shownDiagnostics key u).Nodup ↔ ∀ d e, Diagnostic.order d e = .eq →
      [d, e, d].Sublist (s.enabledFindings key) → d = e := by
  have hinj : (s.shownDiagnostics key u).Nodup ↔
      (dropRepeats (sortBy Diagnostic.atMost (s.enabledFindings key))).Nodup := by
    rw [shownDiagnostics_eq]
    refine ⟨fun h => h.of_map _, fun h => h.map_on fun d hd e he heq => ?_⟩
    exact present_inj (isReport_of_mem_sorted hfound hd) (isReport_of_mem_sorted hfound he) heq
  rw [hinj, nodup_dropRepeats_sortBy_iff Diagnostic.atMost_total Diagnostic.atMost_trans]
  refine forall_congr' fun d => forall_congr' fun e => ⟨fun h horder => ?_, fun h hde hed => ?_⟩
  · obtain ⟨hde, hed⟩ := Diagnostic.atMost_of_order_eq horder
    exact h hde hed
  · exact h (Std.OrientedCmp.isLE_antisymm hde hed)

omit hfound in
/-- A list without repetition shows each different finding once. -/
theorem perm_shownDiagnostics (hnodup : (s.shownDiagnostics key u).Nodup) :
    (s.shownDiagnostics key u).Perm
      ((distinct (s.enabledFindings key)).map (present s.policy u)) := by
  rw [shownDiagnostics_eq] at hnodup ⊢
  refine List.Perm.map _ ((List.perm_ext_iff_of_nodup (hnodup.of_map _) (nodup_distinct _)).mpr ?_)
  intro d
  rw [mem_dropRepeats, mem_sortBy, mem_distinct]

end Shown

/-! ## What a session knows -/

/-- What a session knows consists of reports as they were made, and what it publishes is listed. -/
structure Reporting (s : Session) : Prop where
  graph : ∀ key, ∀ d ∈ s.graph.diagnosticsOf key, d.IsReport
  bindings : s.bindings.AllValues fun b => ∀ d ∈ b.2.diagnostics, d.IsReport
  faults : s.effectFaults.AllValues fun ds => ∀ d ∈ ds, d.IsReport
  discharge : s.discharge.AllValues fun r => ∀ d ∈ r.diagnostics, d.IsReport
  published : s.published.AllValues Diagnostic.Listed

namespace Reporting

variable {s : Session} (h : s.Reporting)

include h

theorem found (key : FileKey) : ∀ d ∈ s.found key, d.IsReport := by
  intro d hd
  -- modules, then calls, effects and results
  rcases List.mem_append.mp hd with hd | hd
  · rcases List.mem_append.mp hd with hd | hd
    · rcases List.mem_append.mp hd with hd | hd
      · exact h.graph key d hd
      · unfold binding? at hd
        cases hb : s.bindings.get? key with
        | none =>
          rw [hb] at hd
          exact absurd hd List.not_mem_nil
        | some b =>
          rw [hb] at hd
          exact h.bindings key b hb d hd
    · obtain ⟨g, -, hd⟩ := List.mem_flatMap.mp hd
      cases hfaults : s.effectFaults.get? g with
      | none =>
        rw [hfaults] at hd
        exact absurd hd List.not_mem_nil
      | some ds =>
        rw [hfaults] at hd
        exact h.faults g ds hfaults d hd
  · cases hr : s.discharge.get? key with
    | none =>
      rw [hr] at hd
      exact absurd hd List.not_mem_nil
    | some r =>
      rw [hr] at hd
      exact h.discharge key r hr d hd

theorem bind (files : FileSet) : (s.bind files).Reporting := by
  rw [bind_eq]
  refine ⟨h.graph, .foldl (fun m e hm => ?_) _ h.bindings, h.faults,
    .foldl (fun m e hm => ?_) _ h.discharge, h.published⟩
  -- a file is bound anew or forgotten
  · unfold rebind
    split
    · exact hm.erase _
    · split
      · exact hm.erase _
      · exact hm.insert fun d hd => (Scope.reportedBy_of_mem_bindDeclarations hd).1
  · unfold dropUnbound
    split
    · exact hm.erase _
    · exact hm

omit h in
theorem isReport_of_mem_faultsOf {p : LinkedProgram} {m : LinkedProgram.Summaries}
    {g : FunctionRef} {d : Diagnostic} (hd : d ∈ s.faultsOf p m g) : d.IsReport := by
  unfold faultsOf at hd
  split at hd
  · exact absurd hd List.not_mem_nil
  · split at hd
    · exact absurd hd List.not_mem_nil
    · obtain ⟨_, _, -, -, hfault⟩ := LinkedProgram.isEffectFault_of_mem hd
      exact hfault.reportedBy.1

theorem verify (fs : List FunctionRef) (files : FileSet) : (s.verify fs files).Reporting := by
  have hsame := sameProgram_verify s fs files
  have hpublished : (s.verify fs files).published = s.published := by dsimp only [Session.verify]
  refine ⟨?_, ?_, fun g ds hds => ?_, ?_, ?_⟩
  · rw [hsame.graph]
    exact h.graph
  · rw [hsame.bindings]
    exact h.bindings
  · -- the functions that are checked get new faults, and the others keep theirs
    rw [effectFaults_verify, get?_refreshFaults] at hds
    split at hds
    · split at hds
      · cases hds
      · cases hds
        exact fun d hd => isReport_of_mem_faultsOf hd
    · exact h.faults g ds hds
  · rw [discharge_verify]
    refine .foldl (fun m e hm => ?_) _ h.discharge
    unfold dischargeFile
    split
    · exact hm
    · split
      · exact hm.insert fun d hd => (LinkedProgram.reportedBy_of_mem_fileDischarge hd).1
      · exact hm
  · rw [hpublished]
    exact h.published

theorem publish (files : FileSet) : (s.publish files).Reporting := by
  rw [publish_eq]
  refine ⟨h.graph, h.bindings, h.faults, h.discharge, .foldl (fun m e hm => ?_) _ h.published⟩
  unfold republish
  split
  · exact hm.erase _
  · refine hm.insert ?_
    split
    · exact Diagnostic.listed_nil
    · exact listed_shownDiagnostics (h.found e.1) _

theorem replaceFile (path : Path) (unit : SourceUnit) : (s.replaceFile path unit).Reporting where
  graph _ _ hd := (ModuleGraph.reportedBy_of_mem_diagnosticsOf hd).1
  bindings := h.bindings
  faults := h.faults.filter _
  discharge := h.discharge
  published := h.published

theorem change (path : Path) (unit : SourceUnit) : (s.change path unit).1.Reporting := by
  rw [change_fst]
  exact (((h.replaceFile path unit).bind _).verify _ _).publish _

omit h in
/-- A session of which nothing is known but modules and symbols. -/
theorem of_empty (hgraph : ∃ p policy, s.graph = .build p policy) (hbindings : s.bindings = ∅)
    (hfaults : s.effectFaults = ∅) (hdischarge : s.discharge = ∅) (hpublished : s.published = ∅) :
    s.Reporting where
  graph key d hd := by
    obtain ⟨p, policy, hgraph⟩ := hgraph
    rw [hgraph] at hd
    exact (ModuleGraph.reportedBy_of_mem_diagnosticsOf hd).1
  bindings key b hb := by
    rw [hbindings] at hb
    cases hb
  faults g ds hds := by
    rw [hfaults] at hds
    cases hds
  discharge key r hr := by
    rw [hdischarge] at hr
    cases hr
  published key ds hds := by
    rw [hpublished] at hds
    cases hds

end Reporting

theorem reporting_analyze (s : Session) (units : List SourceUnit) :
    (s.analyze units).Reporting := by
  have hload : (s.load units).Reporting := .of_empty ⟨_, _, rfl⟩ rfl rfl rfl rfl
  exact ((hload.bind _).verify _ _).publish _

/-- **What a session publishes is listed, whatever steps it takes.** -/
theorem reporting_run (registry : Registry) (policy : Policy) (steps : List Step) :
    ((start registry policy).run steps).Reporting := by
  induction steps using List.reverseRecOn with
  | nil => exact .of_empty ⟨_, _, rfl⟩ rfl rfl rfl rfl
  | append_singleton before a ih =>
    rw [run_append]
    generalize (start registry policy).run before = s at ih
    cases a with
    | analyze units => exact reporting_analyze s units
    | change path unit => exact ih.change path unit

/-! ## Metrics -/

theorem count_severities (ds : List Diagnostic) :
    ds.countP (·.severity == .error) + ds.countP (·.severity == .warning) +
      ds.countP (·.severity == .info) = ds.length := by
  induction ds with
  | nil => rfl
  | cons d rest ih =>
    simp only [List.countP_cons, List.length_cons]
    cases d.severity <;> simp <;> omega

/-- The metrics count what is published. -/
theorem total_metrics (s : Session) : s.metrics.total = s.diagnostics.length :=
  count_severities s.diagnostics

end Session

end EffectAudit
