import EffectAudit.Proofs.Modules.Separation
import EffectAudit.Proofs.Session.Agreement
import EffectAudit.Proofs.Session.Incremental

/-!
# Unrelated files

Files that are set apart from the others have no influence on what an analysis says about these. The
functions of the other files see and reach only functions of such files, so all that an analysis
finds out about them is found out without the files that are set apart, too.

## Main definitions

* `Session.PartOf`: a session with a program from which files that were set apart are gone

## Main results

* `Session.PartOf.agreesAt`: sessions agree on the files that are left
* `Session.analyze_without`: unrelated files do not interfere
-/

namespace EffectAudit.Session

/-- Two current sessions, of which the second has the program of the first without files that are
set apart there. -/
structure PartOf (part whole : Session) (apart : FileKey → Bool) : Prop where
  current : part.Current
  current_whole : whole.Current
  registry : whole.registry = part.registry
  policy : whole.policy = part.policy
  program : part.program = whole.program.without apart
  setApart : whole.program.SetApart apart

namespace PartOf

variable {part whole : Session} {apart : FileKey → Bool} (h : part.PartOf whole apart)

include h

/-! ## Modules -/

theorem graph_eq :
    part.graph = .build (whole.program.without apart) whole.policy := by
  rw [h.current.graph, h.program, h.policy]

section File

variable {key : FileKey} (hkey : apart key = false)

include hkey

theorem get?_program : whole.program.get? key = part.program.get? key := by
  rw [h.program, Program.get?_without hkey]

theorem get?_symbols : whole.symbols.files.get? key = part.symbols.files.get? key :=
  h.current_whole.get?_symbols_congr h.current.toLoaded h.registry (h.get?_program hkey)

theorem isHalted_eq : whole.graph.isHalted key = part.graph.isHalted key := by
  rw [h.graph_eq, h.current_whole.graph, ModuleGraph.isHalted_without h.setApart hkey]

theorem resolution?_eq : whole.graph.resolution? key = part.graph.resolution? key := by
  rw [h.graph_eq, h.current_whole.graph, ModuleGraph.resolution?_without h.setApart hkey]

theorem diagnosticsOf_eq {f : SourceFile} (hf : whole.program.get? key = some f) :
    whole.graph.diagnosticsOf key = part.graph.diagnosticsOf key := by
  rw [h.graph_eq, h.current_whole.graph, ModuleGraph.diagnosticsOf_without h.setApart hkey hf]

end File

theorem filesOf_eq {m : String} (hm : whole.program.Leaves apart m) :
    whole.graph.filesOf m = part.graph.filesOf m := by
  rw [h.current_whole.filesOf_eq, h.current.filesOf_eq, h.program,
    ModuleTable.filesOf_without hm]

theorem apart_of_mem_filesOf {m : String} (hm : whole.program.Leaves apart m) {key : FileKey}
    (hkey : key ∈ whole.graph.filesOf m) : apart key = false := by
  rw [h.current_whole.filesOf_eq] at hkey
  obtain ⟨f, hf, hname⟩ := ModuleTable.mem_of_mem_filesOf hkey
  exact hm key f hf hname

/-! ## Scopes -/

section Scopes

variable {key : FileKey} {f : SourceFile} (hf : whole.program.get? key = some f)
  (hkey : apart key = false)

include hf hkey

/-- Files that are left see only modules that are left. -/
theorem leaves_of_sees {m : String} (hm : (whole.scope key).Sees m) :
    whole.program.Leaves apart m := by
  rcases hm with rfl | ⟨i, hi, rfl⟩
  · have hmodule : (whole.scope key).moduleName = f.moduleName := by
      unfold Scope.moduleName scope
      rw [h.current_whole.moduleOf?_eq, hf]
      rfl
    rw [hmodule]
    exact h.setApart.modules key f hf hkey
  · have hresolution : (whole.scope key).resolution =
        ((ModuleTable.ofProgram whole.program).resolveFile f).1 := by
      unfold Scope.resolution scope
      rw [h.current_whole.graph, ModuleGraph.resolution?_build, ModuleGraph.resolvedFiles,
        OrderedMap.get?_map, hf]
      rfl
    rw [hresolution] at hi
    exact h.setApart.imports key f hf hkey i hi

/-- The scopes of files that are left agree. -/
theorem agrees : (whole.scope key).Agrees (part.scope key) where
  registry := h.registry
  file := rfl
  moduleName := by
    unfold Scope.moduleName scope
    rw [h.current_whole.moduleOf?_eq, h.current.moduleOf?_eq, h.get?_program hkey]
  resolution := by
    unfold Scope.resolution scope
    rw [h.resolution?_eq hkey]
  own name := SymbolTable.lookup?_congr (h.get?_symbols hkey)
  defined m name hm := by
    have hleaves := h.leaves_of_sees hf hkey hm
    unfold Scope.defined SymbolTable.lookupIn scope
    rw [← h.filesOf_eq hleaves]
    exact List.filterMap_congr fun k hk =>
      SymbolTable.lookup?_congr (h.get?_symbols (h.apart_of_mem_filesOf hleaves hk))

end Scopes

theorem get?_bindings {key : FileKey} (hkey : apart key = false) :
    whole.bindings.get? key = part.bindings.get? key := by
  rw [h.current_whole.bindings, h.current.bindings]
  refine h.current.freshBinding?_congr (h.get?_program hkey) fun f hf => ?_
  exact ⟨h.isHalted_eq hkey, h.agrees ((h.get?_program hkey).trans hf) hkey⟩

/-! ## Calls -/

/-- Functions of files that are left call only functions of such files. -/
theorem apart_of_calls {f g : FunctionRef} (hf : apart f.file = false)
    (hcall : whole.linked.Calls f g) : apart g.file = false := by
  obtain ⟨b, hb, -⟩ := hcall.exists_body
  obtain ⟨file, hfile, -⟩ := h.current_whole.exists_decl.mp hb
  rcases (h.current_whole.visible_of_calls hcall).2 with hown | ⟨m, hm, hmem⟩
  · rw [hown]
    exact hf
  · exact h.apart_of_mem_filesOf (h.leaves_of_sees hfile hf hm) hmem

theorem apart_of_reaches {f g : FunctionRef} (hf : apart f.file = false)
    (hr : whole.linked.Reaches f g) : apart g.file = false := by
  induction hr with
  | refl => exact hf
  | tail _ hcall ih => exact h.apart_of_calls ih hcall

/-! ## Conversions -/

/-- Files that are set apart declare no conversions. -/
theorem converts_eq : whole.symbols.converts = part.symbols.converts := by
  refine SymbolTable.converts_congr fun key c => ?_
  rw [SymbolTable.conversionsIn_eq, SymbolTable.conversionsIn_eq]
  cases hkey : apart key with
  | false => rw [h.get?_symbols hkey]
  | true =>
    rw [h.current_whole.symbols, h.current.symbols, h.program, Program.get?_without_of_apart hkey]
    cases hf : whole.program.get? key with
    | none => rfl
    | some f =>
      refine iff_of_false (fun hc => ?_) List.not_mem_nil
      obtain ⟨hc, hconverts⟩ := List.mem_filter.mp hc
      rw [h.setApart.conversions key f hf hkey c hc] at hconverts
      cases hconverts

/-- **Sessions agree on the files that are left.** -/
theorem agreesAt {key : FileKey} {f : SourceFile} (hf : whole.program.get? key = some f)
    (hkey : apart key = false) : whole.AgreesAt part key where
  registry := h.registry
  policy := h.policy
  file := h.get?_program hkey
  diagnostics := h.diagnosticsOf_eq hkey hf
  bindings := h.get?_bindings hkey
  converts := h.converts_eq
  reached g hg k hr := by
    obtain ⟨-, rfl⟩ := SymbolTable.mem_functionsIn_iff.mp hg
    have hk := h.apart_of_reaches hkey hr
    exact h.current_whole.sameAt h.current.toBound (h.get?_symbols hk) (h.get?_bindings hk)

theorem get?_published {key : FileKey} (hkey : apart key = false) :
    whole.published.get? key = part.published.get? key := by
  cases hf : whole.program.get? key with
  | some f => exact (h.agreesAt hf hkey).published_eq h.current_whole h.current
  | none =>
    rw [h.current_whole.published, h.current.published]
    unfold freshShown?
    rw [← h.get?_program hkey, hf, Option.map_none, Option.map_none]

end PartOf

theorem partOf_analyze (s : Session) {units : List SourceUnit} {apart : FileKey → Bool}
    (h : (Program.ofUnits units).SetApart apart) :
    (s.analyze (units.filter fun u => !apart u.path.key)).PartOf (s.analyze units) apart := by
  have hwhole := holds_analyze s units
  have hpart := holds_analyze s (units.filter fun u => !apart u.path.key)
  refine ⟨current_analyze _ _, current_analyze _ _, ?_, ?_, ?_, ?_⟩
  · rw [hwhole.registry, hpart.registry]
  · rw [hwhole.policy, hpart.policy]
  · rw [hwhole.program, hpart.program, Program.ofUnits_filter]
  · rw [hwhole.program]
    exact h

/-- **Unrelated files do not interfere.** If some files share no module with the others, are not
imported by them and declare no conversions of errors, then an analysis without them publishes the
same diagnostics of the others, halts the same of them and resolves their imports alike. -/
theorem analyze_without (s : Session) (units : List SourceUnit) (apart : FileKey → Bool)
    (h : (Program.ofUnits units).SetApart apart) :
    let whole := s.analyze units
    let part := s.analyze (units.filter fun u => !apart u.path.key)
    ∀ key, apart key = false →
      whole.published.get? key = part.published.get? key ∧
      whole.graph.isHalted key = part.graph.isHalted key ∧
      whole.graph.resolution? key = part.graph.resolution? key := by
  intro whole part key hkey
  have hpart : part.PartOf whole apart := partOf_analyze s h
  exact ⟨hpart.get?_published hkey, hpart.isHalted_eq hkey, hpart.resolution?_eq hkey⟩

/-! ## Two cycles -/

/-- A file that imports a module, and has a function with an unknown effect. -/
def linkUnit (name target : String) : SourceUnit where
  path := ⟨name⟩
  imports := [⟨{ target := .module target, items := .wildcard }, ⟨1, 2, 1⟩⟩]
  declarations :=
    [⟨.function { name := "pull", returns := .named "Unit", effects := [⟨"Magic", ⟨2, 3, 1⟩⟩] },
      ⟨0, 1, 1⟩⟩]

/-- Two pairs of files that import each other, and two files beside them. -/
def tangledUnits : List SourceUnit :=
  [storeUnit [], shopUnit, linkUnit "ring" "rope", linkUnit "rope" "ring", linkUnit "knot" "tie",
    linkUnit "tie" "knot"]

/-- The files of the second pair. -/
def isKnotted (key : FileKey) : Bool := key ∈ [Path.key ⟨"knot"⟩, Path.key ⟨"tie"⟩]

theorem tangledUnits_without :
    let whole := (start .standard {}).analyze tangledUnits
    let part := (start .standard {}).analyze (tangledUnits.filter fun u => !isKnotted u.path.key)
    whole.graph.isHalted (Path.key ⟨"knot"⟩) = true ∧
    part.graph.isHalted (Path.key ⟨"ring"⟩) = true ∧
    (part.diagnosticsOf (Path.key ⟨"shop.cdz"⟩)).length = 1 ∧
    ∀ key, isKnotted key = false →
      whole.published.get? key = part.published.get? key ∧
      whole.graph.isHalted key = part.graph.isHalted key ∧
      whole.graph.resolution? key = part.graph.resolution? key := by
  intro whole part
  have h : (Program.ofUnits tangledUnits).SetApart isKnotted := by decide +kernel
  exact ⟨by decide +kernel, by decide +kernel, by decide +kernel, analyze_without _ _ _ h⟩

end EffectAudit.Session
