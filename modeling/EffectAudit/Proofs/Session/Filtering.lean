import EffectAudit.Proofs.Config
import EffectAudit.Proofs.Session.Clean
import EffectAudit.Proofs.Session.Placement

/-!
# Configurations filter what is shown

Under a configuration an analysis finds what it finds without one. Excluded files are still bound
and linked, and rules that are disabled still find what they find; the configuration decides only
which of the findings are shown, and under which severity. What it hides can be hidden as well after
the findings of a file were put in order and freed of repetitions, so a configuration amounts to a
filter on the diagnostics of an analysis without one.

## Main definitions

* `Config.Passes`: a diagnostic is not hidden
* `Config.filtered`: the diagnostics that are not hidden, with the severities that are asked for

## Main results

* `Session.FilteredBy.found_eq`: what is found in a file that is not excluded
* `Session.FilteredBy.published_eq`: what is shown of any file
* `Session.config_filters`: the same of the analysis of a list of files
-/

namespace EffectAudit

/-! ## What a configuration hides -/

namespace Config

/-- A configuration does not hide a diagnostic: its file is not excluded, it warns of no effect that
is to be ignored, and its rule is enabled. -/
def Passes (c : Config) (registry : Registry) (d : Diagnostic) : Prop :=
  ¬ c.Excludes d.location.file ∧ ¬ (∃ e, c.Ignores registry e ∧ d.WarnsOf e) ∧
    (c.settingsOf d.rule).enabled = true

/-- The diagnostic with the severity that is asked for its rule, if one is. -/
def relevel (c : Config) (d : Diagnostic) : Diagnostic :=
  { d with severity := (c.settingsOf d.rule).level.getD d.severity }

open Classical in
/-- The diagnostics that are not hidden, with the severities that are asked for. -/
noncomputable def filtered (c : Config) (registry : Registry) (ds : List Diagnostic) :
    List Diagnostic :=
  (ds.filter fun d => c.Passes registry d).map c.relevel

theorem filtered_flatten (c : Config) (registry : Registry) (l : List (List Diagnostic)) :
    c.filtered registry l.flatten = (l.map (c.filtered registry)).flatten := by
  unfold filtered
  rw [List.filter_flatten, List.map_flatten, List.map_map]
  rfl

theorem filtered_eq_nil {c : Config} {registry : Registry} {ds : List Diagnostic}
    (h : ∀ d ∈ ds, ¬ c.Passes registry d) : c.filtered registry ds = [] := by
  unfold filtered
  rw [List.map_eq_nil_iff, List.filter_eq_nil_iff]
  intro d hd hpasses
  exact h d hd (by simpa using hpasses)

end Config

/-- Of a policy the module graph depends on fragments only. -/
theorem ModuleGraph.build_congr {policy policy' : Policy}
    (h : policy.fragments = policy'.fragments) (p : Program) :
    build p policy = build p policy' := by
  have hfragments : policy.areFragments = policy'.areFragments := by
    unfold Policy.areFragments
    rw [h]
  have hclaim : Ownership.claim policy = Ownership.claim policy' := by
    unfold Ownership.claim
    rw [hfragments]
  have hconflicts : conflicts p policy = conflicts p policy' := by
    unfold conflicts conflictsIn
    rw [hclaim]
  unfold build
  rw [hconflicts]

namespace Session

/-- A session under the policy of a configuration, and one that shows everything, hold one program
with the same modules. -/
structure FilteredBy (c : Config) (s t : Session) : Prop where
  current : s.Current
  whole : t.Current
  modules : s.SameModules t
  resolved : c.Resolved s.registry s.policy
  strict : t.policy.Strict
  severity : ∀ r, t.policy.severityFor r = r.defaultSeverity

namespace FilteredBy

variable {c : Config} {s t : Session} (h : s.FilteredBy c t) {key : FileKey} {f : SourceFile}

include h

theorem files_eq : s.symbols.files = t.symbols.files :=
  h.modules.files_eq h.current.toLoaded h.whole.toLoaded

theorem functionsIn_eq (key : FileKey) : s.symbols.functionsIn key = t.symbols.functionsIn key :=
  SymbolTable.functionsIn_congr (congrArg (·.get? key) h.files_eq)

theorem binding?_eq (key : FileKey) : s.binding? key = t.binding? key := by
  unfold binding?
  rw [h.modules.bindings_eq h.current.toBound h.whole.toBound]

/-! ## Files that are not excluded -/

section Found

variable (hf : t.program.get? key = some f) (hex : s.policy.isExcluded f.path = false)

include hf hex

open Classical in
/-- Of the faults in effects those about effects that are to be ignored are left out. -/
theorem effectFaults_eq {g : FunctionRef} (hg : g.file = key) :
    (s.effectFaults.get? g).getD [] =
      ((t.effectFaults.get? g).getD []).filter fun d => ¬ d.WarnsOfAny s.policy.ignored := by
  subst hg
  have hlookup := lookup?_eq_of_files h.files_eq g
  rw [h.current.faults, h.whole.faults, getD_freshFaults?, getD_freshFaults?]
  unfold faultsOf
  rw [hlookup]
  cases hsig : t.symbols.lookup? g with
  | none => rfl
  | some sig =>
    have hpath : sig.path = f.path := h.whole.path_of_lookup? hf hsig
    dsimp only
    rw [hpath, hex, h.strict.excluded, if_neg Bool.false_ne_true, if_neg Bool.false_ne_true,
      h.strict.ignored, ← LinkedProgram.effectFaults_eq_filter]
    refine LinkedProgram.effectFaults_congr h.modules.registry (fun g' _ => ?_) (fun g' _ => ?_)
      h.current.summaries _
    · exact h.modules.sameAt h.current.toBound h.whole.toBound g'
    · rw [h.modules.summaries_eq h.current.toVerified h.whole.toVerified]

theorem discharge_eq : s.discharge.get? key = t.discharge.get? key := by
  have heq : ∀ b u, s.linked.fileDischarge b u = t.linked.fileDischarge b u := fun b u =>
    LinkedProgram.fileDischarge_congr (converts_eq_of_files h.files_eq)
      (fun name => lookup?_eq_of_files h.files_eq _) fun _ _ g _ => lookup?_eq_of_files h.files_eq g
  rw [h.current.discharge, h.whole.discharge]
  unfold freshDischarge?
  rw [h.modules.program, hf, Option.bind_some, Option.bind_some, hex, h.strict.excluded,
    h.binding?_eq]
  simp only [heq]

open Classical in
/-- **In a file that is not excluded the same is found**, but for warnings about effects that are to
be ignored. -/
theorem found_eq :
    s.found key = (t.found key).filter fun d => ¬ d.WarnsOfAny s.policy.ignored := by
  have hplain : ∀ {l : List Diagnostic}, (∀ d ∈ l, d.PlainIn f.path) →
      l.filter (fun d => ¬ d.WarnsOfAny s.policy.ignored) = l := fun hl =>
    List.filter_eq_self.mpr fun d hd => decide_eq_true ((hl d hd).not_warnsOfAny _)
  have hfaults : ((t.symbols.functionsIn key).flatMap fun g => (s.effectFaults.get? g).getD []) =
      ((t.symbols.functionsIn key).flatMap fun g => (t.effectFaults.get? g).getD []).filter
        fun d => ¬ d.WarnsOfAny s.policy.ignored := by
    rw [List.filter_flatMap]
    refine congrArg List.flatten (List.map_congr_left fun g hg => ?_)
    exact h.effectFaults_eq hf hex (SymbolTable.mem_functionsIn_iff.mp hg).2
  unfold found
  rw [h.modules.graph, h.binding?_eq, h.functionsIn_eq, h.discharge_eq hf hex, hfaults,
    List.filter_append, List.filter_append, List.filter_append,
    hplain fun d hd => h.whole.plainIn_of_mem_graph hf hd,
    hplain fun d hd => h.whole.plainIn_of_mem_binding hf hd,
    hplain fun d hd => h.whole.plainIn_of_mem_discharge hf hd]

end Found

/-! ## What is shown -/

theorem not_passes_of_excluded {d : Diagnostic} (hfile : d.location.file = f.path)
    (hex : s.policy.isExcluded f.path = true) : ¬ c.Passes s.registry d := by
  rintro ⟨hnot, -⟩
  rw [hfile] at hnot
  exact hnot ((h.resolved.excluded f.path).mp hex)

/-- In a file that is not excluded a diagnostic is hidden for its rule or as a warning. -/
theorem passes_iff {d : Diagnostic} (hfile : d.location.file = f.path)
    (hex : s.policy.isExcluded f.path = false) :
    c.Passes s.registry d ↔
      s.policy.isEnabled d.rule = true ∧ ¬ d.WarnsOfAny s.policy.ignored := by
  have hnot : ¬ c.Excludes d.location.file := by
    rw [hfile, ← h.resolved.excluded, hex]
    exact Bool.false_ne_true
  unfold Config.Passes Diagnostic.WarnsOfAny
  simp only [h.resolved.isEnabled_eq, h.resolved.ignored]
  tauto

/-- Severities may be replaced where they stand in what is shown. -/
theorem relevel_present (u : SourceUnit) (d : Diagnostic) :
    c.relevel (present t.policy u d) = present s.policy u d := by
  unfold Config.relevel present Diagnostic.withSnippet
  rw [h.resolved.severityFor_eq, h.severity]

open Classical in
/-- Hiding diagnostics may be left to the end. -/
theorem shownDiagnostics_eq (hf : t.program.get? key = some f)
    (hex : s.policy.isExcluded f.path = false) :
    s.shownDiagnostics key f.unit =
      c.filtered s.registry (t.shownDiagnostics key f.unit) := by
  have hlisted : dropRepeats (sortBy Diagnostic.atMost (s.found key)) =
      (dropRepeats (sortBy Diagnostic.atMost (t.found key))).filter
        fun d => ¬ d.WarnsOfAny s.policy.ignored := by
    have hsorted := pairwise_sortBy _ Diagnostic.atMost_total Diagnostic.atMost_trans (t.found key)
    rw [h.found_eq hf hex, filter_dropRepeats (fun a b hab hba => ?_) hsorted,
      filter_sortBy Diagnostic.atMost_total Diagnostic.atMost_trans]
    exact decide_eq_decide.mpr (not_congr (Diagnostic.warnsOfAny_congr hab hba _))
  have hall : ∀ l : List Diagnostic, l.filter (fun d => t.policy.isEnabled d.rule) = l := fun l =>
    List.filter_eq_self.mpr fun d _ => h.strict.enabled d.rule
  unfold shownDiagnostics Config.filtered
  dsimp only
  rw [hlisted, hall, List.filter_map, List.map_map, List.filter_filter]
  refine Eq.trans ?_ (List.map_congr_left fun d _ => (h.relevel_present f.unit d).symm)
  refine congrArg _ (List.filter_congr fun d hd => ?_)
  have hfile : (present t.policy f.unit d).location.file = f.path := by
    show d.location.file = f.path
    exact h.whole.file_of_mem_found hf (mem_sortBy.mp (mem_dropRepeats.mp hd))
  rw [Function.comp_apply, ← Bool.decide_eq_true (b := s.policy.isEnabled d.rule),
    ← Bool.decide_and]
  exact decide_eq_decide.mpr (h.passes_iff hfile hex).symm

/-- **What is shown of a file is what passes the configuration.** -/
theorem published_eq (key : FileKey) :
    s.published.get? key = (t.published.get? key).map (c.filtered s.registry) := by
  rw [h.current.published, h.whole.published]
  unfold freshShown?
  rw [h.modules.program, Option.map_map]
  cases hf : t.program.get? key with
  | none => rfl
  | some f =>
    refine congrArg some ?_
    dsimp only [Function.comp_apply]
    rw [h.strict.excluded, if_neg Bool.false_ne_true]
    cases hex : s.policy.isExcluded f.path with
    | false => exact h.shownDiagnostics_eq hf hex
    | true =>
      -- all that would be shown of an excluded file is placed in it
      symm
      refine Config.filtered_eq_nil fun d hd => ?_
      exact h.not_passes_of_excluded (h.whole.file_of_mem_shown hf hd) hex

theorem diagnosticsOf_eq (key : FileKey) :
    s.diagnosticsOf key = c.filtered s.registry (t.diagnosticsOf key) := by
  unfold diagnosticsOf
  rw [h.published_eq]
  cases t.published.get? key with
  | none => rfl
  | some ds => rfl

theorem diagnostics_eq : s.diagnostics = c.filtered s.registry t.diagnostics := by
  have hmap : s.published = t.published.map fun _ ds => c.filtered s.registry ds := by
    refine OrderedMap.ext_get? fun key => ?_
    rw [h.published_eq, OrderedMap.get?_map]
  have hvalues : s.published.values = t.published.values.map (c.filtered s.registry) := by
    rw [hmap]
    unfold OrderedMap.values OrderedMap.map
    rw [List.map_map, List.map_map]
    rfl
  unfold diagnostics
  rw [hvalues, Config.filtered_flatten]

end FilteredBy

/-- The analysis under a configuration, and the one without rules and patterns. -/
theorem filteredBy_analyze {c : Config} {registry : Registry} {policy : Policy}
    (h : c.resolve registry = .ok policy) (units : List SourceUnit) :
    ((start registry policy).analyze units).FilteredBy c
      ((start registry { threshold := c.threshold, fragments := c.fragments }).analyze units) := by
  have hresolved := Config.resolved_of_resolve h
  have hs := holds_analyze (start registry policy) units
  have ht := holds_analyze
    (start registry { threshold := c.threshold, fragments := c.fragments }) units
  have hcs := current_analyze (start registry policy) units
  have hct := current_analyze
    (start registry { threshold := c.threshold, fragments := c.fragments }) units
  refine ⟨hcs, hct, ⟨hs.registry.trans ht.registry.symm, hs.program.trans ht.program.symm, ?_⟩,
    ?_, ?_, ?_⟩
  · rw [hcs.graph, hct.graph, hs.program, ht.program, hs.policy, ht.policy]
    exact ModuleGraph.build_congr hresolved.fragments _
  · rw [hs.registry, hs.policy]
    exact hresolved
  · rw [ht.policy]
    exact ⟨fun _ => rfl, fun _ => rfl, rfl⟩
  · rw [ht.policy]
    exact fun _ => rfl

/-- **Configurations only filter what is shown.** Under a configuration the diagnostics of an
analysis are those without its rules and patterns, in the same order, except that the hidden ones
are left out and severities are replaced; this holds of each file as well. The compilation order and
the effects of functions are the same. In particular patterns change nothing for files that they do
not match. -/
theorem config_filters (registry : Registry) (c : Config) (policy : Policy)
    (h : c.resolve registry = .ok policy) (units : List SourceUnit) :
    ∃ base, { c with rules := ∅, exclude := [] }.resolve registry = .ok base ∧
      let s := (start registry policy).analyze units
      let t := (start registry base).analyze units
      s.diagnostics = c.filtered registry t.diagnostics ∧
      (∀ key, s.diagnosticsOf key = c.filtered registry (t.diagnosticsOf key)) ∧
      s.order = t.order ∧ (∀ f, s.summary? f = t.summary? f) ∧
      ∀ patterns policy', { c with exclude := patterns }.resolve registry = .ok policy' →
        ∀ key f, (Program.ofUnits units).get? key = some f →
          ¬ c.Excludes f.path → ¬ { c with exclude := patterns }.Excludes f.path →
          ((start registry policy').analyze units).diagnosticsOf key = s.diagnosticsOf key := by
  refine ⟨_, c.resolve_withoutRules registry, ?_⟩
  intro s t
  have hfilter : s.FilteredBy c t := filteredBy_analyze h units
  have hregistry : s.registry = registry := (holds_analyze _ units).registry
  have hprogram : t.program = .ofUnits units := (holds_analyze _ units).program
  refine ⟨hregistry ▸ hfilter.diagnostics_eq, fun key => hregistry ▸ hfilter.diagnosticsOf_eq key,
    hfilter.modules.order_eq, hfilter.modules.summary?_eq hfilter.current.toVerified
      hfilter.whole.toVerified, fun patterns policy' h' key f hf hex hex' => ?_⟩
  have hother := filteredBy_analyze h' units
  rw [hother.diagnosticsOf_eq key, hfilter.diagnosticsOf_eq key, hregistry,
    (holds_analyze (start registry policy') units).registry]
  refine congrArg _ (List.filter_congr fun d hd => decide_eq_decide.mpr ?_)
  have hfile := hfilter.whole.file_of_mem_diagnosticsOf (hprogram ▸ hf) hd
  unfold Config.Passes
  rw [hfile]
  exact and_congr_left fun _ => iff_of_true hex' hex

/-! ## A configuration -/

/-- A function without a body that declares effects. -/
def idleFunction (name : String) (effects : List String) : Spanned Declaration :=
  ⟨.function { name, returns := .named "Unit", effects := effects.map (⟨·, ⟨0, 1, 1⟩⟩) }, ⟨0, 1, 1⟩⟩

/-- Two files with effects that are declared and not used. -/
def idleUnits : List SourceUnit :=
  [{ path := ⟨"lib.cdz"⟩, declarations := [idleFunction "helper" ["Network"]] },
    { path := ⟨"main.cdz"⟩, declarations := [idleFunction "main" ["Logging", "Database"]] }]

/-- One of the files is excluded, one of the effects is ignored, and warnings are only hints. -/
def quietConfig : Config where
  rules := .ofList [("EffectMinimalityWarning",
    { level := some .info, params := [("ignore", .array [.string "Logging"])] })]
  exclude := ["lib*"]

theorem quietConfig_filters :
    ∃ policy base, quietConfig.resolve .standard = .ok policy ∧
      { quietConfig with rules := ∅, exclude := [] }.resolve .standard = .ok base ∧
      let s := (start .standard policy).analyze idleUnits
      let t := (start .standard base).analyze idleUnits
      s.diagnostics = quietConfig.filtered .standard t.diagnostics ∧
      s.diagnostics.map (fun d => (d.message, d.severity)) =
        [("function `main` declares effect `Database` but never uses it", .info)] ∧
      t.diagnostics.map (·.severity) = [.warning, .warning, .warning] := by
  have hresolve : quietConfig.resolve .standard = .ok
      { rules := [(.effectMinimality,
          { level := some .info, params := [("ignore", .array [.string "Logging"])] })]
        exclude := [fun path =>
          (⟨[.char 'l', .char 'i', .char 'b', .anySequence]⟩ : Glob).matches path.text]
        ignored := .ofList [.logging] } := by rfl
  obtain ⟨base, hbase, hfilter, -⟩ := config_filters .standard quietConfig _ hresolve idleUnits
  cases (quietConfig.resolve_withoutRules .standard).symm.trans hbase
  exact ⟨_, _, hresolve, hbase, hfilter, by decide +kernel, by decide +kernel⟩

end Session

end EffectAudit
