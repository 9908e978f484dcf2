import EffectAudit.Proofs.Modules.Interface
import EffectAudit.Proofs.Session.Incremental

/-!
# The order of declarations

The order in which a file declares its functions and types has no bearing on what is found out about
them, as long as no function is declared twice: of two functions with one name the first would
count. From outside a file looks the same, in whatever order it stands. Inside, each function is
bound, summarized and checked by itself; what is reported of a file then stands in another order,
and it is put in order before it is shown.

## Main definitions

* `SourceUnit.Reorders`, `Program.Reorders`: the same declarations in another order
* `Session.Reorders`: current sessions with such programs

## Main results

* `Session.Reorders.sameAt`: the same is known of every function
* `Session.Reorders.perm_found`: the same is reported of every file
* `Session.declaration_order_irrelevant`: the order of declarations does not matter
-/

namespace EffectAudit

/-! ## Source files -/

/-- The same file with its declarations in another order. -/
def SourceUnit.Reorders (u v : SourceUnit) : Prop :=
  ∃ ds, u.declarations.Perm ds ∧ v = { u with declarations := ds }

/-- No function is declared twice. -/
def SourceUnit.NamesOnce (u : SourceUnit) : Prop := (u.functions.map (·.node.name)).Nodup

namespace SourceUnit.Reorders

variable {u v : SourceUnit} (h : u.Reorders v)

include h

theorem perm_functions : u.functions.Perm v.functions := by
  obtain ⟨ds, hds, rfl⟩ := h
  exact hds.filterMap _

theorem perm_types : u.types.Perm v.types := by
  obtain ⟨ds, hds, rfl⟩ := h
  exact hds.filterMap _

theorem defines_eq (name : String) : u.defines name = v.defines name := by
  unfold defines
  rw [h.perm_functions.any_eq, h.perm_types.any_eq]

theorem namesOnce (hu : u.NamesOnce) : v.NamesOnce := (h.perm_functions.map _).nodup hu

theorem ofDecl_eq (registry : Registry) (m : String) (d : Spanned FunctionDecl) :
    Signature.ofDecl registry m u d = Signature.ofDecl registry m v d := by
  obtain ⟨ds, -, rfl⟩ := h
  rfl

theorem present_eq (policy : Policy) (d : Diagnostic) :
    Session.present policy u d = Session.present policy v d := by
  obtain ⟨ds, -, rfl⟩ := h
  rfl

end SourceUnit.Reorders

/-- The same file with its declarations in another order, listed by the same path. -/
structure SourceFile.Reorders (f g : SourceFile) : Prop where
  path : f.path = g.path
  unit : f.unit.Reorders g.unit

theorem SourceFile.Reorders.sameInterface {f g : SourceFile} (h : f.Reorders g) :
    f.SameInterface g := by
  have hdefines := h.unit.defines_eq
  obtain ⟨hpath, ds, -, hunit⟩ := h
  refine ⟨hpath, ?_, ?_, ?_, hdefines⟩ <;> rw [hunit]
  rfl

/-! ## Programs -/

namespace Program

open ModuleGraph

/-- The same files with their declarations in another order. -/
def Reorders (p q : Program) : Prop := OrderedMap.Rel SourceFile.Reorders p q

theorem reorders_ofUnits {us vs : List SourceUnit} (h : List.Forall₂ SourceUnit.Reorders us vs) :
    (ofUnits us).Reorders (ofUnits vs) := by
  refine OrderedMap.Rel.ofList (List.rel_map (R := SourceUnit.Reorders) ?_ h)
  rintro u v huv
  have hpath : u.path = v.path := by
    obtain ⟨ds, -, rfl⟩ := huv
    rfl
  exact ⟨congrArg Path.key hpath, hpath, huv⟩

namespace Reorders

variable {p q : Program} (h : p.Reorders q)

include h

theorem sameInterfaces : p.SameInterfaces q := h.mono fun _ _ hfg => hfg.sameInterface

/-- Imports resolve alike, wherever the declarations of files stand. -/
theorem resolvedFiles_eq : resolvedFiles p = resolvedFiles q := by
  refine h.map_eq fun _ f g hfg => ?_
  have hunit : (ModuleTable.ofProgram q).resolveFile f =
      (ModuleTable.ofProgram q).resolveFile g := by
    obtain ⟨hpath, ds, -, hunit⟩ := hfg
    unfold ModuleTable.resolveFile
    rw [hpath, hunit]
  rw [← hunit]
  exact ModuleTable.resolveFile_congr fun d _ => h.sameInterfaces.resolveImport_eq f.path d

theorem sameShape : p.SameShape q := by
  refine ⟨h.sameInterfaces, ?_⟩
  unfold importEdges
  rw [h.resolvedFiles_eq, h.sameInterfaces.edgesOf_eq]

end Reorders

end Program

/-! ## Sessions -/

namespace Session

/-- Two current sessions with the same files, in which declarations stand in another order. -/
structure Reorders (s t : Session) : Prop where
  current_left : s.Current
  current_right : t.Current
  registry : s.registry = t.registry
  policy : s.policy = t.policy
  program : s.program.Reorders t.program
  names : ∀ key f, s.program.get? key = some f → f.unit.NamesOnce

namespace Reorders

variable {s t : Session} (h : s.Reorders t)

include h

/-! ## Modules -/

theorem graph_right : t.graph = .build t.program s.policy := by
  rw [h.current_right.graph, h.policy]

theorem moduleOf?_eq (key : FileKey) : s.graph.moduleOf? key = t.graph.moduleOf? key := by
  rw [h.current_left.graph, h.graph_right]
  exact h.program.sameInterfaces.moduleOf?_eq key

theorem filesOf_eq (m : String) : s.graph.filesOf m = t.graph.filesOf m := by
  rw [h.current_left.filesOf_eq, h.current_right.filesOf_eq, h.program.sameInterfaces.filesOf_eq]

theorem resolution?_eq (key : FileKey) : s.graph.resolution? key = t.graph.resolution? key := by
  rw [h.current_left.graph, h.graph_right, ModuleGraph.resolution?_build,
    ModuleGraph.resolution?_build, h.program.resolvedFiles_eq]

theorem halted_eq : s.graph.halted = t.graph.halted := by
  rw [h.current_left.graph, h.graph_right, h.program.sameShape.halted_eq]

theorem isHalted_eq (key : FileKey) : s.graph.isHalted key = t.graph.isHalted key := by
  unfold ModuleGraph.isHalted
  rw [h.halted_eq]

theorem order_eq : s.order = t.order := by
  unfold order
  rw [h.program.sameInterfaces.listedPath_eq, h.current_left.graph, h.graph_right,
    h.program.sameShape.order_eq]

theorem diagnosticsOf_graph_eq (key : FileKey) :
    s.graph.diagnosticsOf key = t.graph.diagnosticsOf key := by
  obtain ⟨rest, hs, ht⟩ := h.program.sameShape.exists_rest s.policy key
  rw [h.current_left.graph, h.graph_right, hs, ht, h.program.resolvedFiles_eq]

/-! ## Symbols -/

/-- All declarations are first ones, so they are the same ones. -/
theorem perm_firstDeclarations {key : FileKey} {f g : SourceFile}
    (hf : s.program.get? key = some f) (hfg : f.Reorders g) :
    (firstDeclarations f.unit.functions).Perm (firstDeclarations g.unit.functions) := by
  have hnames := h.names key f hf
  rw [firstDeclarations_eq_self hnames, firstDeclarations_eq_self (hfg.unit.namesOnce hnames)]
  exact hfg.unit.perm_functions

theorem rel_symbols : OrderedMap.Rel
    (fun a b => a.signatures.Perm b.signatures ∧ a.conversions.Perm b.conversions)
    s.symbols.files t.symbols.files := fun key => by
  rw [h.current_left.symbols, h.current_right.symbols, ← h.registry]
  obtain ⟨hf, hg⟩ | ⟨f, g, hf, hg, hfg⟩ := h.program.get?_cases key
  · rw [hf, hg]
    exact .none
  · rw [hf, hg, Option.map_some, Option.map_some]
    refine .some ⟨?_, hfg.unit.perm_types.filter _⟩
    have hdecl : Signature.ofDecl s.registry f.moduleName f.unit =
        Signature.ofDecl s.registry g.moduleName g.unit := by
      funext d
      rw [hfg.sameInterface.moduleName_eq, hfg.unit.ofDecl_eq]
    unfold FileSymbols.ofUnit
    rw [hdecl]
    exact (h.perm_firstDeclarations hf hfg).map _

theorem perm_signaturesIn (key : FileKey) :
    (s.symbols.signaturesIn key).Perm (t.symbols.signaturesIn key) := by
  rw [SymbolTable.signaturesIn_eq, SymbolTable.signaturesIn_eq]
  obtain ⟨ha, hb⟩ | ⟨a, b, ha, hb, hab⟩ := h.rel_symbols.get?_cases key
  · rw [ha, hb]
  · rw [ha, hb]
    exact hab.1

theorem lookup?_eq (f : FunctionRef) : s.symbols.lookup? f = t.symbols.lookup? f := by
  refine Option.ext fun sig => ?_
  rw [SymbolTable.lookup?_eq_some_iff, SymbolTable.lookup?_eq_some_iff,
    SymbolTable.mem_signatures, SymbolTable.mem_signatures]
  simp only [(h.perm_signaturesIn _).mem_iff]

theorem converts_eq : s.symbols.converts = t.symbols.converts := by
  refine SymbolTable.converts_congr fun key c => ?_
  rw [SymbolTable.conversionsIn_eq, SymbolTable.conversionsIn_eq]
  obtain ⟨ha, hb⟩ | ⟨a, b, ha, hb, hab⟩ := h.rel_symbols.get?_cases key
  · rw [ha, hb]
  · rw [ha, hb]
    exact hab.2.mem_iff

/-! ## Bindings -/

theorem agrees (key : FileKey) : (s.scope key).Agrees (t.scope key) := by
  have hresolution : (s.scope key).resolution = (t.scope key).resolution :=
    congrArg (·.getD {}) (h.resolution?_eq key)
  exact (seesAlike_of_lookup? h.registry (h.moduleOf?_eq key) (congrArg (·.imports) hresolution)
    h.filesOf_eq h.lookup?_eq).agrees hresolution

/-- A file has the same bound functions and the same reports on calls, in another order. -/
theorem rel_bindings : OrderedMap.Rel
    (fun a b => a.1 = b.1 ∧ a.2.functions.Perm b.2.functions ∧ a.2.diagnostics.Perm b.2.diagnostics)
    s.bindings t.bindings := fun key => by
  rw [h.current_left.bindings, h.current_right.bindings]
  unfold freshBinding?
  rw [h.isHalted_eq]
  obtain ⟨hf, hg⟩ | ⟨f, g, hf, hg, hfg⟩ := h.program.get?_cases key
  · rw [hf, hg]
    exact .none
  · rw [hf, hg, Option.bind_some, Option.bind_some]
    split
    · exact .none
    · have hnames := h.names key f hf
      refine .some ⟨hfg.path, ?_, ?_⟩
      · rw [h.current_left.functions_bindFile hf, h.current_right.functions_bindFile hg]
        simp only [(h.agrees key).boundFunction_eq]
        exact (h.perm_firstDeclarations hf hfg).map _
      · -- without repeated names what is reported comes function by function
        rw [h.current_left.diagnostics_bindFile hf hnames,
          h.current_right.diagnostics_bindFile hg (hfg.unit.namesOnce hnames),
          hfg.sameInterface.unitPath]
        simp only [(h.agrees key).bindFunction_eq]
        exact hfg.unit.perm_functions.flatMap_right _

theorem body?_eq (f : FunctionRef) : s.linked.body? f = t.linked.body? f := by
  have hperm : (s.bindings.values.flatMap fun e => e.2.functions).Perm
      (t.bindings.values.flatMap fun e => e.2.functions) :=
    perm_flatMap_of_forall₂ (fun _ _ hab => hab.2.1) h.rel_bindings.forall₂_values
  refine Option.ext fun b => ?_
  unfold linked
  rw [LinkedProgram.body?_ofBodies h.current_left.inj_ref,
    LinkedProgram.body?_ofBodies h.current_right.inj_ref, hperm.mem_iff]

/-- **The same is known of every function.** -/
theorem sameAt (f : FunctionRef) : s.linked.SameAt t.linked f := ⟨h.body?_eq f, h.lookup?_eq f⟩

/-! ## Effects and results -/

theorem summary?_eq (f : FunctionRef) : s.summary? f = t.summary? f := by
  unfold summary?
  rw [h.lookup?_eq, h.current_left.toVerified.get?_summaries_congr h.current_right.toVerified
    h.registry fun g _ => h.sameAt g]

theorem get?_effectFaults (f : FunctionRef) : s.effectFaults.get? f = t.effectFaults.get? f :=
  h.current_left.toVerified.get?_effectFaults_congr h.current_right.toVerified h.registry
    (fun g _ => h.sameAt g) h.policy

theorem perm_fileDischarge {key : FileKey} {f g : SourceFile} {a b : Path × FileBinding}
    (hf : s.program.get? key = some f) (hfg : f.Reorders g) (ha : s.bindings.get? key = some a)
    (hb : t.bindings.get? key = some b) :
    (s.linked.fileDischarge a.2 f.unit).diagnostics.Perm
      (t.linked.fileDischarge b.2 g.unit).diagnostics := by
  have hkey : f.unit.path.key = key := h.current_left.listed.unit_key hf
  have hpart : ∀ d : FunctionDecl, s.linked.functionDischarge a.2 f.unit.path.key d =
      t.linked.functionDischarge b.2 g.unit.path.key d := by
    intro d
    rw [← hfg.sameInterface.unitPath, hkey]
    refine LinkedProgram.functionDischarge_congr h.converts_eq (h.lookup?_eq _) ?_
      fun _ _ k _ => h.lookup?_eq k
    -- in the binding of its file a function has its body
    have hbody := h.body?_eq ⟨key, d.name⟩
    rw [h.current_left.body?_linked, h.current_right.body?_linked] at hbody
    dsimp only at hbody
    rwa [ha, hb] at hbody
  unfold LinkedProgram.fileDischarge
  dsimp only
  simp only [hpart]
  exact ((h.perm_firstDeclarations hf hfg).map _).flatMap_right _

theorem rel_discharge : OrderedMap.Rel (fun a b => a.diagnostics.Perm b.diagnostics)
    s.discharge t.discharge := fun key => by
  rw [h.current_left.discharge, h.current_right.discharge]
  unfold freshDischarge? binding?
  rw [h.policy]
  obtain ⟨hf, hg⟩ | ⟨f, g, hf, hg, hfg⟩ := h.program.get?_cases key
  · rw [hf, hg]
    exact .none
  · rw [hf, hg, Option.bind_some, Option.bind_some, hfg.path]
    split
    · exact .none
    · obtain ⟨ha, hb⟩ | ⟨a, b, ha, hb, -⟩ := h.rel_bindings.get?_cases key
      · rw [ha, hb]
        exact .none
      · rw [ha, hb]
        exact .some (h.perm_fileDischarge hf hfg ha hb)

/-! ## Diagnostics -/

/-- **The same is reported of every file.** -/
theorem perm_found (key : FileKey) : (s.found key).Perm (t.found key) := by
  unfold found binding?
  refine ((List.Perm.append (.of_eq (h.diagnosticsOf_graph_eq key)) ?_).append ?_).append ?_
  · obtain ⟨ha, hb⟩ | ⟨a, b, ha, hb, hab⟩ := h.rel_bindings.get?_cases key
    · rw [ha, hb]
    · rw [ha, hb]
      exact hab.2.2
  · simp only [h.get?_effectFaults]
    exact ((h.perm_signaturesIn key).map _).flatMap_right _
  · obtain ⟨ha, hb⟩ | ⟨a, b, ha, hb, hab⟩ := h.rel_discharge.get?_cases key
    · rw [ha, hb]
    · rw [ha, hb]
      exact hab

theorem mem_shownDiagnostics {key : FileKey} {u v : SourceUnit} (huv : u.Reorders v)
    (d : Diagnostic) : d ∈ s.shownDiagnostics key u ↔ d ∈ t.shownDiagnostics key v := by
  have hpresent : present s.policy u = present t.policy v := by
    funext d
    rw [h.policy, huv.present_eq]
  unfold shownDiagnostics
  dsimp only
  rw [hpresent, h.policy]
  simp only [List.mem_map, List.mem_filter, mem_dropRepeats, mem_sortBy, (h.perm_found key).mem_iff]

/-- The same is shown of every file, though perhaps not in the same order. -/
theorem rel_published : OrderedMap.Rel (fun a b => ∀ d, d ∈ a ↔ d ∈ b) s.published t.published :=
  fun key => by
    rw [h.current_left.published, h.current_right.published]
    unfold freshShown?
    rw [← h.policy]
    obtain ⟨hf, hg⟩ | ⟨f, g, hf, hg, hfg⟩ := h.program.get?_cases key
    · rw [hf, hg]
      exact .none
    · rw [hf, hg, Option.map_some, Option.map_some, hfg.path]
      refine .some fun d => ?_
      split
      · exact Iff.rfl
      · exact h.mem_shownDiagnostics hfg.unit d

theorem mem_diagnosticsOf (key : FileKey) (d : Diagnostic) :
    d ∈ s.diagnosticsOf key ↔ d ∈ t.diagnosticsOf key := by
  unfold diagnosticsOf
  obtain ⟨ha, hb⟩ | ⟨a, b, ha, hb, hab⟩ := h.rel_published.get?_cases key
  · rw [ha, hb]
  · rw [ha, hb]
    exact hab d

/-! ## Numbers -/

theorem perm_analyzedFunctions : s.analyzedFunctions.Perm t.analyzedFunctions := by
  unfold analyzedFunctions
  rw [h.policy]
  refine perm_flatMap_of_forall₂ (fun a b hab => hab.2.1.map _)
    (List.rel_filter ?_ h.rel_bindings.forall₂_values)
  rintro a b ⟨hpath, -⟩
  dsimp only
  rw [hpath]

theorem functions_metrics : s.metrics.functions = t.metrics.functions :=
  h.perm_analyzedFunctions.length_eq

theorem pureFunctions_metrics : s.metrics.pureFunctions = t.metrics.pureFunctions := by
  unfold metrics
  dsimp only
  simp only [h.lookup?_eq]
  exact h.perm_analyzedFunctions.countP_eq _

end Reorders

theorem reorders_analyze (registry : Registry) (policy : Policy) {us vs : List SourceUnit}
    (h : (Program.ofUnits us).Reorders (.ofUnits vs))
    (hnames : ∀ key f, (Program.ofUnits us).get? key = some f → f.unit.NamesOnce) :
    ((start registry policy).analyze us).Reorders ((start registry policy).analyze vs) := by
  have hs := holds_analyze (start registry policy) us
  have ht := holds_analyze (start registry policy) vs
  refine ⟨current_analyze _ _, current_analyze _ _, ?_, ?_, ?_, ?_⟩
  · rw [hs.registry, ht.registry]
  · rw [hs.policy, ht.policy]
  · rw [hs.program, ht.program]
    exact h
  · rw [hs.program]
    exact hnames

/-- **The order of declarations does not matter.** If two programs differ only in the order in which
files declare what they declare, and no file declares a function twice, then the same diagnostics
are published of every file, as many functions are analyzed and are pure, the compilation order and
the halted files are the same, and every function has the same effect summary. -/
theorem declaration_order_irrelevant (registry : Registry) (policy : Policy)
    (us vs : List SourceUnit) (h : (Program.ofUnits us).Reorders (.ofUnits vs))
    (hnames : ∀ key f, (Program.ofUnits us).get? key = some f → f.unit.NamesOnce) :
    let s := (start registry policy).analyze us
    let t := (start registry policy).analyze vs
    s.published.keys = t.published.keys ∧
    (∀ key d, d ∈ s.diagnosticsOf key ↔ d ∈ t.diagnosticsOf key) ∧
    s.metrics.functions = t.metrics.functions ∧
    s.metrics.pureFunctions = t.metrics.pureFunctions ∧
    s.order = t.order ∧ s.graph.halted = t.graph.halted ∧ ∀ f, s.summary? f = t.summary? f := by
  intro s t
  have hst : s.Reorders t := reorders_analyze registry policy h hnames
  exact ⟨hst.rel_published.keys_eq, hst.mem_diagnosticsOf, hst.functions_metrics,
    hst.pureFunctions_metrics, hst.order_eq, hst.halted_eq, hst.summary?_eq⟩

/-! ## Functions that call each other -/

/-- A function that calls others. -/
def callerFunction (name : String) (callees : List CallPath) (line : UInt32) :
    Spanned Declaration :=
  ⟨.function { name, returns := .named "Unit", body := callees.flatMap callBody }, ⟨line, 1, 1⟩⟩

/-- Two functions that call each other, one of which reads from the database. -/
def rallyDeclarations : List (Spanned Declaration) :=
  [callerFunction "ping" [{ name := "pong" }] 1, ⟨.type { name := "Score" }, ⟨5, 1, 1⟩⟩,
    callerFunction "pong" [{ name := "ping" }, { qualifier := some "db", name := "query" }] 7]

/-- The file of the functions. -/
def rallyUnit (declarations : List (Spanned Declaration)) : SourceUnit :=
  { path := ⟨"rally.cdz"⟩, declarations }

theorem rally_order_irrelevant :
    let s := (start .standard {}).analyze [rallyUnit rallyDeclarations]
    let t := (start .standard {}).analyze [rallyUnit rallyDeclarations.reverse]
    s.symbols.functions ≠ t.symbols.functions ∧
    (s.diagnosticsOf (Path.key ⟨"rally.cdz"⟩)).map (·.rule) =
      [.effectCompleteness, .effectCompleteness] ∧
    (∀ key d, d ∈ s.diagnosticsOf key ↔ d ∈ t.diagnosticsOf key) ∧
    ∀ f, s.summary? f = t.summary? f := by
  intro s t
  have hunits : List.Forall₂ SourceUnit.Reorders [rallyUnit rallyDeclarations]
      [rallyUnit rallyDeclarations.reverse] :=
    .cons ⟨_, (List.reverse_perm _).symm, rfl⟩ .nil
  have hnames : ∀ key f, (Program.ofUnits [rallyUnit rallyDeclarations]).get? key = some f →
      f.unit.NamesOnce := by
    intro key f hf
    rw [List.mem_singleton.mp (Program.mem_of_get?_ofUnits hf)]
    show (_ : List String).Nodup
    decide
  obtain ⟨-, hdiagnostics, -, -, -, -, hsummary⟩ := declaration_order_irrelevant .standard {} _ _
    (Program.reorders_ofUnits hunits) hnames
  exact ⟨by decide +kernel, by decide +kernel, hdiagnostics, hsummary⟩

end Session

end EffectAudit
