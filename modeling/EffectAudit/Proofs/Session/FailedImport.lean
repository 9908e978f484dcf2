import EffectAudit.Proofs.Modules.FailedImport
import EffectAudit.Proofs.Session.Agreement
import EffectAudit.Proofs.Session.Incremental

/-!
# The reach of a failed import

An import that fails may hide names: calls of its file that were operations or errors before are
then passed over. It never takes a function from a call. So the call graph is the same as without
it, and only functions that reach its file can be found to be different.

## Main definitions

* `Session.AddsFailing`: sessions of which one has one more import, which fails

## Main results

* `Session.AddsFailing.calls_iff`: the same functions are called
* `Session.failed_import_contained`: the failure of an import is contained
-/

namespace EffectAudit

theorem Program.addsFailing_ofUnits {pre post : List SourceUnit} {u : SourceUnit}
    {before after : List (Spanned ImportDecl)} {d : Spanned ImportDecl}
    (hlast : ∀ v ∈ post, v.path.key ≠ u.path.key)
    (hnone : ∀ key, ¬ (ofUnits (pre ++ { u with imports := before ++ after } :: post)).Names
      u.path.key d.node.target key) :
    (ofUnits (pre ++ { u with imports := before ++ after } :: post)).AddsFailing
      (ofUnits (pre ++ { u with imports := before ++ d :: after } :: post)) ⟨u.path, u⟩ before d
      after where
  old := get?_ofUnits_append_cons (u := { u with imports := before ++ after }) hlast
  new := get?_ofUnits_append_cons (u := { u with imports := before ++ d :: after }) hlast
  others key hkey := by
    -- without the file both lists are the same
    have hfilter : ∀ imports, (ofUnits (pre ++ { u with imports } :: post)).get? key =
        (ofUnits ((pre ++ post).filter fun v => v.path.key ≠ u.path.key)).get? key := by
      intro imports
      have hdrop : (pre ++ { u with imports } :: post).filter (fun v => v.path.key ≠ u.path.key) =
          (pre ++ post).filter fun v => v.path.key ≠ u.path.key := by
        rw [List.filter_append, List.filter_cons_of_neg (by simp), ← List.filter_append]
      rw [← hdrop]
      exact (get?_ofUnits_filter (fun k => k ≠ u.path.key) (decide_eq_true hkey)).symm
    rw [hfilter, hfilter]
  fails := hnone

namespace Session

/-- Two current sessions, of which the second has one more import in a file, which fails. -/
structure AddsFailing (old new : Session) (f : SourceFile) (before : List (Spanned ImportDecl))
    (d : Spanned ImportDecl) (after : List (Spanned ImportDecl)) : Prop where
  current_old : old.Current
  current_new : new.Current
  registry : old.registry = new.registry
  policy : old.policy = new.policy
  program : old.program.AddsFailing new.program f before d after

namespace AddsFailing

variable {old new : Session} {f : SourceFile} {before after : List (Spanned ImportDecl)}
  {d : Spanned ImportDecl} (h : old.AddsFailing new f before d after)

include h

/-! ## Symbols and modules -/

theorem graph_new : new.graph = .build new.program old.policy := by
  rw [h.current_new.graph, h.policy]

/-- Files declare the same, whatever they import. -/
theorem get?_symbols (key : FileKey) :
    old.symbols.files.get? key = new.symbols.files.get? key := by
  rw [h.current_old.symbols, h.current_new.symbols, ← h.registry]
  exact (h.program.map_get? _ (fun _ => rfl) key).symm

theorem moduleOf?_eq (key : FileKey) : old.graph.moduleOf? key = new.graph.moduleOf? key := by
  rw [h.current_old.moduleOf?_eq, h.current_new.moduleOf?_eq]
  exact (h.program.map_get? _ (fun _ => rfl) key).symm

theorem filesOf_eq (m : String) : old.graph.filesOf m = new.graph.filesOf m := by
  rw [h.current_old.filesOf_eq, h.current_new.filesOf_eq, h.program.filesOf_eq]

theorem isHalted_eq (key : FileKey) : old.graph.isHalted key = new.graph.isHalted key := by
  rw [h.current_old.graph, h.graph_new, h.program.isHalted_eq]

theorem converts_eq : old.symbols.converts = new.symbols.converts := by
  refine SymbolTable.converts_congr fun key c => ?_
  rw [SymbolTable.conversionsIn_congr (h.get?_symbols key)]

/-! ## Calls -/

theorem imports_eq (key : FileKey) :
    (old.scope key).resolution.imports = (new.scope key).resolution.imports := by
  have himports : ∀ p : Program,
      (((ModuleGraph.build p old.policy).resolution? key).getD {}).imports =
        (((ModuleGraph.resolvedFiles p).get? key).map (·.1.imports)).getD [] := by
    intro p
    rw [ModuleGraph.resolution?_build]
    cases (ModuleGraph.resolvedFiles p).get? key <;> rfl
  show ((old.graph.resolution? key).getD {}).imports = ((new.graph.resolution? key).getD {}).imports
  rw [h.current_old.graph, h.graph_new, himports, himports, h.program.imports_eq]

/-- In every file the same functions are visible. -/
theorem seesAlike (key : FileKey) : (old.scope key).SeesAlike (new.scope key) :=
  seesAlike_of_lookup? h.registry (h.moduleOf?_eq key) (h.imports_eq key) h.filesOf_eq
    fun f => SymbolTable.lookup?_congr (h.get?_symbols f.file)

/-- **A failed import takes no function from a call**, and gives none to it. -/
theorem calls_iff {g k : FunctionRef} : new.linked.Calls g k ↔ old.linked.Calls g k := by
  -- a call is decided by a declaration of its file and by the scope, neither of which has changed
  have hfunctions := h.program.map_get? (·.unit.functions) (fun _ => rfl) g.file
  rw [h.current_old.calls_iff, h.current_new.calls_iff, hfunctions, ← h.isHalted_eq]
  simp only [(h.seesAlike g.file).resolve_function_iff]

/-! ## Other files -/

section Others

variable {key : FileKey} (hkey : key ≠ f.path.key)

include hkey

theorem agrees : (old.scope key).Agrees (new.scope key) := by
  refine (h.seesAlike key).agrees ?_
  show (old.graph.resolution? key).getD {} = (new.graph.resolution? key).getD {}
  rw [h.current_old.graph, h.graph_new, h.program.resolution?_eq _ hkey]

theorem get?_bindings : old.bindings.get? key = new.bindings.get? key := by
  rw [h.current_old.bindings, h.current_new.bindings]
  refine h.current_new.freshBinding?_congr (h.program.others key hkey).symm fun _ _ => ?_
  exact ⟨h.isHalted_eq key, h.agrees hkey⟩

/-- Sessions agree on a file whose functions do not reach the file with the import. -/
theorem agreesAt (hreach : ∀ g ∈ old.symbols.functionsIn key, ∀ k, old.linked.Reaches g k →
    k.file ≠ f.path.key) : old.AgreesAt new key where
  registry := h.registry
  policy := h.policy
  file := (h.program.others key hkey).symm
  diagnostics := by
    rw [h.current_old.graph, h.graph_new, h.program.diagnosticsOf_eq _ hkey]
  bindings := h.get?_bindings hkey
  converts := h.converts_eq
  reached g hg k hr := h.current_old.sameAt h.current_new.toBound (h.get?_symbols k.file)
    (h.get?_bindings (hreach g hg k hr))

end Others

end AddsFailing

theorem addsFailing_analyze (s : Session) {pre post : List SourceUnit} {u : SourceUnit}
    {before after : List (Spanned ImportDecl)} {d : Spanned ImportDecl}
    (hlast : ∀ v ∈ post, v.path.key ≠ u.path.key)
    (hnone : ∀ key, ¬ (Program.ofUnits (pre ++ { u with imports := before ++ after } :: post)).Names
      u.path.key d.node.target key) :
    (s.analyze (pre ++ { u with imports := before ++ after } :: post)).AddsFailing
      (s.analyze (pre ++ { u with imports := before ++ d :: after } :: post)) ⟨u.path, u⟩ before d
      after := by
  have hold := holds_analyze s (pre ++ { u with imports := before ++ after } :: post)
  have hnew := holds_analyze s (pre ++ { u with imports := before ++ d :: after } :: post)
  refine ⟨current_analyze _ _, current_analyze _ _, ?_, ?_, ?_⟩
  · rw [hold.registry, hnew.registry]
  · rw [hold.policy, hnew.policy]
  · rw [hold.program, hnew.program]
    exact Program.addsFailing_ofUnits hlast hnone

/-- **The failure of an import is contained.** If an import that names no module and no file is
added to a file, the edges, cycles, halted files and compilation order of the graph are the same,
and so is all that the graph says about other files. The diagnostics of the file get one more, which
reports the failure at the place of the import. The same functions call each other, and what is
published of any other file is the same unless some function of it reaches one of the file. -/
theorem failed_import_contained (s : Session) (pre post : List SourceUnit) (u : SourceUnit)
    (before after : List (Spanned ImportDecl)) (d : Spanned ImportDecl)
    (hlast : ∀ v ∈ post, v.path.key ≠ u.path.key)
    (hnone : ∀ key, ¬ (Program.ofUnits (pre ++ { u with imports := before ++ after } :: post)).Names
      u.path.key d.node.target key) :
    let old := s.analyze (pre ++ { u with imports := before ++ after } :: post)
    let new := s.analyze (pre ++ { u with imports := before ++ d :: after } :: post)
    let report := (Finding.unresolvedModule d.node.target.text).report u.path d.span
    (new.graph.edges = old.graph.edges ∧ new.graph.cycles = old.graph.cycles ∧
      new.graph.halted = old.graph.halted ∧ new.graph.order = old.graph.order) ∧
    (∀ key, key ≠ u.path.key → new.graph.resolution? key = old.graph.resolution? key ∧
      new.graph.diagnosticsOf key = old.graph.diagnosticsOf key) ∧
    (report.rule = .unresolvedImport ∧ report.location.span = d.span ∧ ∃ front back,
      old.graph.diagnosticsOf u.path.key = front ++ back ∧
      new.graph.diagnosticsOf u.path.key = front ++ report :: back) ∧
    (∀ f g, new.linked.Calls f g ↔ old.linked.Calls f g) ∧
    ∀ key, key ≠ u.path.key →
      (∀ f ∈ old.symbols.functionsIn key, ∀ g, old.linked.Reaches f g → g.file ≠ u.path.key) →
      new.published.get? key = old.published.get? key := by
  intro old new report
  have h : old.AddsFailing new ⟨u.path, u⟩ before d after := addsFailing_analyze s hlast hnone
  have hgraph : old.graph = .build old.program old.policy := h.current_old.graph
  refine ⟨?_, fun key hkey => ?_, ⟨rfl, rfl, ?_⟩, fun f g => h.calls_iff, fun key hkey hreach => ?_⟩
  · rw [hgraph, h.graph_new]
    exact ⟨h.program.edges_eq _, h.program.cycles_eq _, h.program.halted_eq _, h.program.order_eq _⟩
  · rw [hgraph, h.graph_new]
    exact ⟨h.program.resolution?_eq _ hkey, h.program.diagnosticsOf_eq _ hkey⟩
  · rw [hgraph, h.graph_new]
    exact h.program.exists_diagnosticsOf _
  · exact ((h.agreesAt hkey hreach).published_eq h.current_old h.current_new).symm

/-! ## An import that hides an operation -/

/-- An import of everything in a module. -/
def importAll (m : String) (line : UInt32) : Spanned ImportDecl :=
  ⟨{ target := .module m, items := .wildcard }, ⟨line, 1, 1⟩⟩

/-- A file with a function that saves something and prints, where it may not print. -/
def deskUnit (imports : List (Spanned ImportDecl)) : SourceUnit where
  path := ⟨"desk.cdz"⟩
  moduleDecl := some ⟨"desk", ⟨0, 1, 1⟩⟩
  imports
  declarations :=
    [⟨.function { name := "serve", returns := .named "Unit", effects := [⟨"Database", ⟨4, 3, 1⟩⟩],
                  body := callBody { name := "save" } ++ callBody { name := "print" } },
      ⟨0, 1, 1⟩⟩]

/-- Three files, of which one has the given imports. -/
def deskUnits (imports : List (Spanned ImportDecl)) : List SourceUnit :=
  [storeUnit (callBody { qualifier := some "db", name := "query" }), deskUnit imports, noteUnit]

theorem ghost_import_contained :
    let old := (start .standard {}).analyze (deskUnits [importAll "store" 1, importAll "note" 3])
    let new := (start .standard {}).analyze
      (deskUnits [importAll "store" 1, importAll "ghost" 2, importAll "note" 3])
    (old.diagnosticsOf (Path.key ⟨"desk.cdz"⟩)).map (·.rule) = [.effectCompleteness] ∧
    (new.diagnosticsOf (Path.key ⟨"desk.cdz"⟩)).map (·.rule) = [.unresolvedImport] ∧
    new.graph.order = old.graph.order ∧
    new.published.get? (Path.key ⟨"note.cdz"⟩) = old.published.get? (Path.key ⟨"note.cdz"⟩) := by
  intro old new
  have hnone : ∀ key, ¬ (Program.ofUnits
      (deskUnits [importAll "store" 1, importAll "note" 3])).Names (Path.key ⟨"desk.cdz"⟩)
        (.module "ghost") key :=
    (ModuleTable.findTarget?_eq_none_iff (d := (importAll "ghost" 2).node)).mp (by decide +kernel)
  obtain ⟨⟨-, -, -, horder⟩, -, -, -, hpublished⟩ := failed_import_contained (start .standard {})
    [storeUnit (callBody { qualifier := some "db", name := "query" })] [noteUnit] (deskUnit [])
    [importAll "store" 1] [importAll "note" 3] (importAll "ghost" 2) (by decide) hnone
  have hreach : ∀ f ∈ old.symbols.functionsIn (Path.key ⟨"note.cdz"⟩), ∀ g,
      old.linked.Reaches f g → g.file ≠ Path.key ⟨"desk.cdz"⟩ := by
    intro f hf g hr
    -- the file has one function, which calls nothing
    have honly : old.symbols.functionsIn (Path.key ⟨"note.cdz"⟩) =
        [⟨Path.key ⟨"note.cdz"⟩, "note"⟩] := by decide +kernel
    have hsites : old.linked.sites ⟨Path.key ⟨"note.cdz"⟩, "note"⟩ = [] := by decide +kernel
    obtain rfl := List.mem_singleton.mp (honly ▸ hf)
    rcases Relation.ReflTransGen.cases_head hr with rfl | ⟨k, ⟨c, hc, -⟩, -⟩
    · decide
    · rw [hsites] at hc
      exact absurd hc List.not_mem_nil
  exact ⟨by decide +kernel, by decide +kernel, horder, hpublished _ (by decide) hreach⟩

end Session

end EffectAudit
