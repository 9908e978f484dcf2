import EffectAudit.Proofs.Effects.Faults
import EffectAudit.Proofs.Modules.Graph
import EffectAudit.Proofs.Results.Discharge
import EffectAudit.Proofs.Session.Incremental

/-!
# Clean reports

Under a policy that lets every finding through, a report without diagnostics says that each stage of
the analysis found nothing. No file is then halted, so all files are bound; all calls are bound, so
no function is poisoned and the effect summaries are complete; and the checks of declared effects
and of results, which find all faults of complete functions, vouch for every function.

## Main definitions

* `Policy.Strict`: every finding is shown
* `Program.Converts`: errors of one type are declared to convert to another
* `Session.SoundAt`: what a clean report promises of a function

## Main results

* `Session.found_eq_nil`: nothing is found in a file of which nothing is shown
* `Session.Current.soundAt`: functions of a program without diagnostics
* `Session.clean_report_sound`: the same of the report on a list of files
-/

namespace EffectAudit

/-- A policy under which every finding is shown. -/
structure Policy.Strict (p : Policy) : Prop where
  excluded : ∀ path, p.isExcluded path = false
  enabled : ∀ rule, p.isEnabled rule = true
  ignored : p.ignored = ∅

/-- The default configuration lets every finding through. -/
theorem Config.strict_of_resolve {registry : Registry} {policy : Policy}
    (h : ({} : Config).resolve registry = .ok policy) : policy.Strict := by
  have hdefault : ({} : Config).resolve registry = .ok {} := rfl
  cases hdefault.symm.trans h
  exact ⟨fun _ => rfl, fun _ => rfl, rfl⟩

/-- Errors of one type may stand for another: both types are equal, or some file declares the other
one to convert from the first. -/
def Program.Converts (p : Program) (source target : Ty) : Prop :=
  source = target ∨ ∃ key f, p.get? key = some f ∧
    ∃ t ∈ f.unit.types, target = .named t.name ∧ source ∈ t.convertsFrom

namespace Session

variable {s : Session}

theorem Loaded.converts_iff (h : s.Loaded) {source target : Ty} :
    s.symbols.converts source target = true ↔ s.program.Converts source target := by
  have hconversions : ∀ key c, c ∈ s.symbols.conversionsIn key ↔
      ∃ f, s.program.get? key = some f ∧ c ∈ f.unit.types ∧ c.convertsFrom ≠ [] := by
    intro key c
    rw [SymbolTable.conversionsIn_eq, h.symbols key]
    cases s.program.get? key with
    | none => simp
    | some f => simp [FileSymbols.ofUnit, SourceUnit.conversions]
  rw [SymbolTable.converts_eq_true_iff]
  refine or_congr_right ?_
  constructor
  · rintro ⟨_, rfl, key, c, hc, rfl, hsource⟩
    obtain ⟨f, hf, ht, -⟩ := (hconversions key c).mp hc
    exact ⟨key, f, hf, c, ht, rfl, List.contains_iff_mem.mp hsource⟩
  · rintro ⟨key, f, hf, t, ht, rfl, hsource⟩
    refine ⟨t.name, rfl, key, t, (hconversions key t).mpr ⟨f, hf, ht, ?_⟩, rfl,
      List.contains_iff_mem.mpr hsource⟩
    exact List.ne_nil_of_mem hsource

/-! ## Stages that found nothing -/

/-- Nothing is found in a file of which nothing is shown. -/
theorem found_eq_nil (hp : s.policy.Strict) {key : FileKey} {u : SourceUnit}
    (h : s.shownDiagnostics key u = []) : s.found key = [] := by
  unfold shownDiagnostics at h
  rw [List.map_eq_nil_iff, List.filter_eq_nil_iff] at h
  refine List.eq_nil_iff_forall_not_mem.mpr fun d hd => ?_
  exact h d (mem_dropRepeats.mpr (mem_sortBy.mpr hd)) (hp.enabled d.rule)

section Clean

variable (hs : s.Current) (hp : s.policy.Strict) (hclean : s.diagnostics = [])

include hs hp hclean

theorem Current.found_eq_nil {key : FileKey} {f : SourceFile}
    (hf : s.program.get? key = some f) : s.found key = [] := by
  have hpublished : s.published.get? key = some (s.shownDiagnostics key f.unit) := by
    rw [hs.published, freshShown?, hf, Option.map_some, if_neg (by simp [hp.excluded])]
  have hnil : s.shownDiagnostics key f.unit = [] :=
    List.flatten_eq_nil_iff.mp hclean _ (OrderedMap.mem_values.mpr ⟨key, hpublished⟩)
  exact Session.found_eq_nil hp hnil

/-- The stages of an analysis found nothing in any file. -/
theorem Current.stages_eq_nil {key : FileKey} {f : SourceFile}
    (hf : s.program.get? key = some f) :
    s.graph.diagnosticsOf key = [] ∧ ((s.binding? key).map (·.diagnostics)).getD [] = [] ∧
      (∀ g ∈ s.symbols.functionsIn key, (s.effectFaults.get? g).getD [] = []) ∧
      ((s.discharge.get? key).map (·.diagnostics)).getD [] = [] := by
  have hfound := hs.found_eq_nil hp hclean hf
  unfold found at hfound
  rw [List.append_eq_nil_iff, List.append_eq_nil_iff, List.append_eq_nil_iff,
    List.flatMap_eq_nil_iff] at hfound
  obtain ⟨⟨⟨hgraph, hbinding⟩, hfaults⟩, hdischarge⟩ := hfound
  exact ⟨hgraph, hbinding, hfaults, hdischarge⟩

theorem Current.isHalted_eq_false (key : FileKey) : s.graph.isHalted key = false := by
  have hgraph : ∀ key f, s.program.get? key = some f →
      (ModuleGraph.build s.program s.policy).diagnosticsOf key = [] := by
    intro key f hf
    rw [← hs.graph]
    exact (hs.stages_eq_nil hp hclean hf).1
  rw [hs.graph]
  exact ModuleGraph.isHalted_of_clean hgraph key

theorem Current.bindings_eq {key : FileKey} {f : SourceFile} (hf : s.program.get? key = some f) :
    s.bindings.get? key = some (f.path, Scope.bindFile s.registry s.symbols s.graph f.unit) := by
  rw [hs.bindings, Loaded.freshBinding?_eq_some_iff]
  exact ⟨f, hf, hs.isHalted_eq_false hp hclean key, rfl⟩

/-! ## Functions that are bound -/

/-- No function is declared twice, and all functions are bound completely. -/
theorem Current.of_bindings {key : FileKey} {f : SourceFile} (hf : s.program.get? key = some f) :
    (f.unit.functions.map (·.node.name)).Nodup ∧ ∀ d ∈ f.unit.functions,
      ((s.scope key).boundFunction d.node).isPoisoned = false ∧
        ∀ call ∈ Stmt.calls d.node.body, ∃ callee,
          (s.scope key).resolve call.node = .bound callee := by
  obtain ⟨hgraph, hbinding, -, -⟩ := hs.stages_eq_nil hp hclean hf
  have hfile : ((s.scope key).bindDeclarations f.unit.path [] f.unit.functions).diagnostics =
      [] := by
    rw [binding?, hs.bindings_eq hp hclean hf, Scope.bindFile,
      hs.listed.unit_key hf] at hbinding
    exact hbinding
  -- the table has each name, since it has the first declaration of the name
  have hown : ∀ d ∈ f.unit.functions, ((s.scope key).own? d.node.name).isSome := by
    intro d hd
    obtain ⟨first, hfirst, hname⟩ := exists_firstDeclaration hd
    have hlookup := hs.lookup?_eq hf hfirst
    rw [hname] at hlookup
    exact Option.isSome_of_eq_some hlookup
  -- no import failed, and so no call was passed over
  have hfailed : (s.scope key).resolution.failed = [] := by
    show ((s.graph.resolution? key).getD {}).failed = []
    rw [hs.graph] at hgraph ⊢
    exact ModuleGraph.failed_of_clean hgraph
  obtain ⟨hnodup, -, hfunctions⟩ := Scope.of_bindDeclarations_clean hown hfile
  refine ⟨hnodup, fun d hd => ?_⟩
  obtain ⟨hclear, -, hcalls⟩ := Scope.of_bindFunction_clean hfailed (hfunctions d hd)
  exact ⟨hclear, hcalls⟩

theorem Current.mem_firstDeclarations {key : FileKey} {f : SourceFile}
    (hf : s.program.get? key = some f) {d : Spanned FunctionDecl} (hd : d ∈ f.unit.functions) :
    d ∈ firstDeclarations f.unit.functions := by
  rwa [firstDeclarations_eq_self (hs.of_bindings hp hclean hf).1]

theorem Current.body?_eq {key : FileKey} {f : SourceFile} (hf : s.program.get? key = some f)
    {d : Spanned FunctionDecl} (hd : d ∈ f.unit.functions) :
    s.linked.body? ⟨key, d.node.name⟩ = some ((s.scope key).boundFunction d.node) :=
  hs.exists_decl.mpr ⟨f, hf, hs.isHalted_eq_false hp hclean key, d,
    hs.mem_firstDeclarations hp hclean hf hd, rfl, rfl⟩

/-- Every function of the table has a body that is bound completely. -/
theorem Current.exists_body {g : FunctionRef} (hg : g ∈ s.symbols.functions) :
    ∃ b, s.linked.body? g = some b :=
  hs.toBound.exists_body hg fun _ _ => hs.isHalted_eq_false hp hclean g.file

theorem Current.fullyBound (g : FunctionRef) : s.linked.FullyBound g := by
  intro k _ b hb
  obtain ⟨f, hf, -, d, hd, -, rfl⟩ := hs.exists_decl.mp hb
  exact ((hs.of_bindings hp hclean hf).2 d (mem_of_mem_firstDeclarations hd)).1

/-! ## Functions that are verified -/

theorem Current.effectFaults_eq_nil {key : FileKey} {f : SourceFile}
    (hf : s.program.get? key = some f) {g : FunctionRef} (hg : g ∈ s.symbols.functionsIn key) :
    s.linked.effectFaults s.summaries ∅ g = [] := by
  obtain ⟨-, -, hfaults, -⟩ := hs.stages_eq_nil hp hclean hf
  have hnil := hfaults g hg
  obtain ⟨signature, hsignature⟩ := SymbolTable.mem_functions_iff.mp
    (SymbolTable.mem_functionsIn_iff.mp hg).1
  have hof : s.faultsOf s.linked s.summaries g = s.linked.effectFaults s.summaries ∅ g := by
    unfold faultsOf
    rw [hsignature, hp.ignored]
    exact if_neg (by simp [hp.excluded])
  rw [hs.faults, freshFaults?, hof] at hnil
  split at hnil
  · rename_i hempty
    exact List.isEmpty_iff.mp hempty
  · exact hnil

theorem Current.occurrenceFaults_eq_nil {key : FileKey} {f : SourceFile}
    (hf : s.program.get? key = some f) {d : Spanned FunctionDecl} (hd : d ∈ f.unit.functions) :
    ∀ o ∈ Stmt.blockOccurrences d.node.body,
      s.linked.occurrenceFaults (Signature.ofDecl s.registry f.moduleName f.unit d)
        ((s.scope key).boundFunction d.node) o = [] := by
  have hbindings := hs.bindings_eq hp hclean hf
  have hfirst := hs.mem_firstDeclarations hp hclean hf hd
  have hsignature : s.linked.signature? ⟨key, d.node.name⟩ = some _ := hs.lookup?_eq hf hfirst
  have hbody := hs.body?_eq hp hclean hf hd
  rw [hs.body?_linked, hbindings, Option.bind_some] at hbody
  obtain ⟨-, -, -, hdischarge⟩ := hs.stages_eq_nil hp hclean hf
  rw [hs.discharge, freshDischarge?, hf, Option.bind_some, if_neg (by simp [hp.excluded]), binding?,
    hbindings] at hdischarge
  -- the faults of the file are those of its functions, and these are those of their expressions
  have hfunction := List.flatMap_eq_nil_iff.mp hdischarge _ (List.mem_map.mpr ⟨d, hfirst, rfl⟩)
  rw [hs.listed.unit_key hf, LinkedProgram.functionDischarge, hsignature, hbody] at hfunction
  dsimp only at hfunction
  rw [((hs.of_bindings hp hclean hf).2 d hd).1, if_neg Bool.false_ne_true] at hfunction
  exact List.flatMap_eq_nil_iff.mp hfunction

end Clean

/-! ## What clean reports promise -/

/-- What a clean report promises of a function of a file. -/
structure SoundAt (s : Session) (key : FileKey) (d : FunctionDecl) : Prop where
  /-- The function is not poisoned. -/
  clear : ∃ body, s.linked.body? ⟨key, d.name⟩ = some body ∧ body.isPoisoned = false
  /-- What is bound are the call expressions, as they resolve in the file. -/
  sites : ∀ c, c ∈ s.linked.sites ⟨key, d.name⟩ ↔ ∃ use type? path args,
    Placed d.body (.expr use (.node c.span type? (.call path args))) ∧
      (s.scope key).resolve path = .bound c.callee
  /-- Every call expression is bound to one callee. -/
  bound : ∀ use span type? path args,
    Placed d.body (.expr use (.node span type? (.call path args))) →
      ∃! callee, ⟨callee, span⟩ ∈ s.linked.sites ⟨key, d.name⟩
  /-- Functions that are called are functions of the program, with bodies of their own. -/
  known : ∀ g, s.linked.Calls ⟨key, d.name⟩ g → ∃ f, s.program.get? g.file = some f ∧
    ∃ callee ∈ f.unit.functions, callee.node.name = g.name
  /-- The effects that are named are those of the operations that the function comes to call. -/
  effects : ∀ e, (∃ t ∈ d.effects, s.registry.effect? t.node = some e) ↔
    ∃ op, s.linked.ReachesOperation ⟨key, d.name⟩ op ∧ s.registry.effectOf op = e
  /-- A pure function names no effects and comes to call no operation. -/
  pure : d.isPure = true →
    d.effects = [] ∧ ∀ op, ¬ s.linked.ReachesOperation ⟨key, d.name⟩ op
  /-- Every call that returns a result is handled. -/
  handled : ∀ use span type? path args ok error,
    Placed d.body (.expr use (.node span type? (.call path args))) →
      (s.scope key).HasType (.node span type? (.call path args)) (.result ok error) →
      (s.scope key).Handled s.program.Converts d.returns d.body (.node span type? (.call path args))

section Sound

variable (hs : s.Current) (hp : s.policy.Strict) (hclean : s.diagnostics = []) {key : FileKey}
  {f : SourceFile} (hf : s.program.get? key = some f) {d : Spanned FunctionDecl}
  (hd : d ∈ f.unit.functions)

include hs hp hclean hf hd

theorem Current.mem_sites_iff {c : CallSite} :
    c ∈ s.linked.sites ⟨key, d.node.name⟩ ↔ ∃ use type? path args,
      Placed d.node.body (.expr use (.node c.span type? (.call path args))) ∧
        (s.scope key).resolve path = .bound c.callee := by
  rw [LinkedProgram.sites_of_body (hs.body?_eq hp hclean hf hd), Scope.mem_calls_boundFunction]
  constructor
  · rintro ⟨call, hcall, hr, hspan⟩
    obtain ⟨use, type?, args, hplaced⟩ := mem_calls_iff.mp hcall
    exact ⟨use, type?, call.node, args, hspan ▸ hplaced, hr⟩
  · rintro ⟨use, type?, path, args, hplaced, hr⟩
    exact ⟨⟨path, c.span⟩, mem_calls_iff.mpr ⟨use, type?, args, hplaced⟩, hr, rfl⟩

/-- If no two calls stand at one place, each call is bound to one callee. -/
theorem Current.existsUnique_callee (hspans : ((Stmt.calls d.node.body).map (·.span)).Nodup)
    {use : Use} {span : Span} {type? : Option Ty} {path : CallPath} {args : List Expr}
    (he : Placed d.node.body (.expr use (.node span type? (.call path args)))) :
    ∃! callee, ⟨callee, span⟩ ∈ s.linked.sites ⟨key, d.node.name⟩ := by
  have hcall : ⟨path, span⟩ ∈ Stmt.calls d.node.body := mem_calls_iff.mpr ⟨use, type?, args, he⟩
  obtain ⟨callee, hr⟩ := ((hs.of_bindings hp hclean hf).2 d hd).2 _ hcall
  refine ⟨callee, (hs.mem_sites_iff hp hclean hf hd).mpr ⟨use, type?, path, args, he, hr⟩, ?_⟩
  intro other hother
  obtain ⟨use', type?', path', args', he', hr'⟩ := (hs.mem_sites_iff hp hclean hf hd).mp hother
  have hcall' : ⟨path', span⟩ ∈ Stmt.calls d.node.body :=
    mem_calls_iff.mpr ⟨use', type?', args', he'⟩
  -- another call at this place would be the same call
  cases List.inj_on_of_nodup_map hspans hcall hcall' rfl
  cases hr.symm.trans hr'
  rfl

theorem Current.requires_iff {e : Effect} :
    s.linked.Requires ⟨key, d.node.name⟩ e ↔
      ∃ op, s.linked.ReachesOperation ⟨key, d.node.name⟩ op ∧ s.registry.effectOf op = e := by
  -- every function has a body, so effects come from operations only, not from declarations
  refine LinkedProgram.requires_iff_reachesOperation fun g hg hnone => ?_
  have hmem := hs.closed_linked.body _ _ (hs.body?_eq hp hclean hf hd)
  obtain ⟨b, hb⟩ := hs.exists_body hp hclean (hs.closed_linked.mem_functions_of_reaches hg hmem)
  rw [hnone] at hb
  cases hb

/-- The declared effects of a function are those that it requires. -/
theorem Current.declared_iff :
    (∀ e, (∃ t ∈ d.node.effects, s.registry.effect? t.node = some e) ↔
      s.linked.Requires ⟨key, d.node.name⟩ e) ∧
    (d.node.isPure = true →
      d.node.effects = [] ∧ ∀ e, ¬ s.linked.Requires ⟨key, d.node.name⟩ e) := by
  have hbody := hs.body?_eq hp hclean hf hd
  have hfull := hs.fullyBound hp hclean ⟨key, d.node.name⟩
  have hsignature : s.linked.signature? ⟨key, d.node.name⟩ = some _ :=
    hs.lookup?_eq hf (hs.mem_firstDeclarations hp hclean hf hd)
  have hmem : ⟨key, d.node.name⟩ ∈ s.symbols.functionsIn key :=
    SymbolTable.mem_functionsIn_iff.mpr ⟨hs.closed_linked.body _ _ hbody, rfl⟩
  have hnil := hs.effectFaults_eq_nil hp hclean hf hmem
  cases hpure : d.node.isPure with
  | true =>
    obtain ⟨htokens, hnone⟩ := LinkedProgram.of_effectFaults_pure hs.closed_linked hs.summaries
      hsignature hbody hfull hpure hnil
    have htokens : d.node.effects = [] := htokens
    refine ⟨fun e => ?_, fun _ => ⟨htokens, hnone⟩⟩
    rw [htokens]
    exact iff_of_false (fun ⟨_, ht, _⟩ => List.not_mem_nil ht) (hnone e)
  | false =>
    obtain ⟨hrequired, hused⟩ :=
      LinkedProgram.of_effectFaults_declared hs.closed_linked hs.summaries
      hsignature hbody hfull hpure hnil
    refine ⟨fun e => ⟨fun ⟨t, ht, he⟩ => hused t ht e he, fun he => ?_⟩, fun h => nomatch h⟩
    exact Signature.mem_declared_ofDecl.mp (hrequired e he)

/-- Every function of a program without diagnostics keeps what it promises. -/
theorem Current.soundAt (hspans : ((Stmt.calls d.node.body).map (·.span)).Nodup) :
    s.SoundAt key d.node where
  clear := ⟨_, hs.body?_eq hp hclean hf hd, ((hs.of_bindings hp hclean hf).2 d hd).1⟩
  sites _ := hs.mem_sites_iff hp hclean hf hd
  bound _ _ _ _ _ he := hs.existsUnique_callee hp hclean hf hd hspans he
  known g hg := by
    obtain ⟨signature, hsignature⟩ :=
      SymbolTable.mem_functions_iff.mp (hs.closed_linked.callee _ g hg)
    obtain ⟨f', hf', d', hd', hname, -⟩ := hs.exists_decl_of_lookup? hsignature
    exact ⟨f', hf', d', mem_of_mem_firstDeclarations hd', hname⟩
  effects e := ((hs.declared_iff hp hclean hf hd).1 e).trans (hs.requires_iff hp hclean hf hd)
  pure hpure := by
    obtain ⟨htokens, hnone⟩ := (hs.declared_iff hp hclean hf hd).2 hpure
    refine ⟨htokens, fun op hop => ?_⟩
    exact hnone _ ((hs.requires_iff hp hclean hf hd).mpr ⟨op, hop, rfl⟩)
  handled _ _ _ _ _ _ _ he ht :=
    (LinkedProgram.handled_of_occurrenceFaults rfl hspans
      (hs.occurrenceFaults_eq_nil hp hclean hf hd) he ht).mono fun _ _ => hs.converts_iff.mp

end Sound

/-- **A clean report is sound.** If the analysis of a list of files under the default configuration
reports nothing, no file is halted, and every function keeps what `SoundAt` says: it is bound
completely, it names exactly the effects of the operations that it comes to call, and it handles all
results. Calls in one body are taken to stand at different places. -/
theorem clean_report_sound (policy : Policy)
    (hpolicy : ({} : Config).resolve .standard = .ok policy)
    (units : List SourceUnit)
    (hspans : ∀ u ∈ units, ∀ d ∈ u.functions, ((Stmt.calls d.node.body).map (·.span)).Nodup)
    (hclean : (Report.ofProgram policy units).diagnostics = []) :
    let s := (start .standard policy).analyze units
    (∀ key, s.graph.isHalted key = false) ∧
    ∀ key f, (Program.ofUnits units).get? key = some f →
      ∀ d ∈ f.unit.functions, s.SoundAt key d.node := by
  intro s
  have hs : s.Current := current_analyze _ units
  have hholds := holds_analyze (start .standard policy) units
  have hp : s.policy.Strict := hholds.policy ▸ Config.strict_of_resolve hpolicy
  refine ⟨hs.isHalted_eq_false hp hclean, fun key f hf d hd => ?_⟩
  have hunit := Program.mem_of_get?_ofUnits hf
  rw [← hholds.program] at hf
  exact hs.soundAt hp hclean hf hd (hspans f.unit hunit d hd)

/-- A file with a function that writes to a ledger, which may fail. -/
def ledgerUnit : SourceUnit where
  path := ⟨"ledger.cdz"⟩
  moduleDecl := some ⟨"ledger", ⟨0, 1, 1⟩⟩
  declarations :=
    [⟨.type { name := "LedgerError" }, ⟨0, 1, 1⟩⟩,
      ⟨.function { name := "post", returns := .result (.named "Unit") (.named "LedgerError"),
                   effects := [⟨"Database", ⟨2, 3, 1⟩⟩],
                   body := [.node ⟨3, 4, 1⟩ (.expr (.node ⟨3, 4, 1⟩ none
                     (.call { qualifier := some "db", name := "query" } [])))] }, ⟨2, 4, 1⟩⟩]
  exports := [⟨"post", ⟨5, 6, 1⟩⟩]

/-- A function that hands an error of the ledger on. -/
def transferDecl : FunctionDecl where
  name := "transfer"
  returns := .result (.named "Unit") (.named "BankError")
  effects := [⟨"Database", ⟨2, 3, 1⟩⟩]
  body := [.node ⟨3, 4, 1⟩ (.expr (.node ⟨3, 4, 1⟩ none (.propagate
    (.node ⟨3, 4, 1⟩ none (.paren (.node ⟨3, 4, 1⟩ none (.call { name := "post" } [])))))))]

/-- A file with this function, and with one that is pure. -/
def bankUnit : SourceUnit where
  path := ⟨"bank.cdz"⟩
  moduleDecl := some ⟨"bank", ⟨0, 1, 1⟩⟩
  imports := [⟨{ target := .module "ledger", items := .wildcard }, ⟨1, 2, 1⟩⟩]
  declarations :=
    [⟨.type { name := "BankError", convertsFrom := [.named "LedgerError"] }, ⟨0, 1, 1⟩⟩,
      ⟨.function transferDecl, ⟨2, 4, 1⟩⟩,
      ⟨.function { name := "fee", returns := .named "Int", isPure := true }, ⟨5, 6, 1⟩⟩]

theorem bank_report_sound :
    ({} : Config).resolve .standard = .ok {} ∧
    (∀ u ∈ [ledgerUnit, bankUnit], ∀ d ∈ u.functions,
      ((Stmt.calls d.node.body).map (·.span)).Nodup) ∧
    (Report.ofProgram {} [ledgerUnit, bankUnit]).diagnostics = [] ∧
    ((start .standard {}).analyze [ledgerUnit, bankUnit]).SoundAt bankUnit.path.key
      transferDecl := by
  have hspans : ∀ u ∈ [ledgerUnit, bankUnit], ∀ d ∈ u.functions,
      ((Stmt.calls d.node.body).map (·.span)).Nodup := by decide
  have hclean : (Report.ofProgram {} [ledgerUnit, bankUnit]).diagnostics = [] := by decide +kernel
  obtain ⟨-, hsound⟩ := clean_report_sound {} rfl [ledgerUnit, bankUnit] hspans hclean
  exact ⟨rfl, hspans, hclean, hsound _ ⟨bankUnit.path, bankUnit⟩ rfl ⟨transferDecl, ⟨2, 4, 1⟩⟩
    List.mem_cons_self⟩

end Session

end EffectAudit
