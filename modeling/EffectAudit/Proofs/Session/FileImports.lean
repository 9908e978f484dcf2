import EffectAudit.Proofs.Session.Visibility

/-!
# Imports of files

An import may name a file by its path. It counts as an import of the module of this file, and what
the importing file depends on and may call are the files of this module. So the file that was named
is among them unless it is hidden, that is, unless it declares no module and another file declares
the module name that it implies. No file depends on a hidden one, and no import makes its functions
known.

## Main results

* `ModuleTable.findTarget?_of_findFile?`: the module that a path stands for
* `ModuleGraph.mem_dependencies_build`: what a file depends on
* `Session.Loaded.findsFunction_of_exposes`, `Session.Loaded.resolve_behind_qualifier`: calls
  through an import
* `Session.file_import_depends_on_file`: what an import of a file makes of the file
* `Session.hidden_file_not_imported`: a file that is imported and not depended on
-/

namespace EffectAudit

open ModuleTable

/-! ## Dependencies -/

/-- A path stands for the module of the file that it names. -/
theorem ModuleTable.findTarget?_of_findFile? {p : Program} {importer file : FileKey}
    {d : ImportDecl} {target : String} (htarget : d.target = .file target)
    (hfile : (ofProgram p).findFile? importer target = some file) {f : SourceFile}
    (hf : p.get? file = some f) :
    (ofProgram p).findTarget? importer d =
      some (f.moduleName, d.rename <|> FileKey.stem? file) := by
  unfold findTarget?
  rw [htarget]
  simp [hfile, moduleOf?_ofProgram hf]

namespace ModuleGraph

variable {p : Program} {policy : Policy}

theorem mem_dependencies_build {u v : FileKey} :
    v ∈ (build p policy).dependencies u ↔ p.Imports u v := by
  unfold dependencies
  rw [mem_dependenciesIn, edges_build]
  constructor
  · rintro ⟨e, he, rfl, rfl⟩
    exact ⟨e.span, mem_importEdges.mp he⟩
  · rintro ⟨span, h⟩
    exact ⟨⟨u, v, span⟩, mem_importEdges.mpr h, rfl, rfl⟩

/-- No file depends on a hidden one. -/
theorem not_imports_of_hidden {u v : FileKey} (hv : p.Hidden v) : ¬ p.Imports u v := by
  rintro ⟨-, -, -, -, -, -, target, -, hmem, -⟩
  obtain ⟨f, hf, hm⟩ := mem_of_mem_filesOf hmem
  rw [← hm] at hmem
  exact (mem_filesOf_own_iff hf).mp hmem hv

/-- A file comes behind the files that it depends on. -/
theorem sublist_order_of_imports {u v : FileKey} (himports : p.Imports u v)
    (hu : (build p policy).isHalted u = false) (hv : (build p policy).isHalted v = false) :
    List.Sublist [v, u] (build p policy).order := by
  obtain ⟨_, f, hf, -⟩ := id himports
  obtain ⟨before, after, horder⟩ := List.append_of_mem (mem_order_iff.mpr ⟨⟨f, hf⟩, hu⟩)
  obtain ⟨⟨-, -, -, hdeps⟩, -⟩ := ready_of_order horder
  rw [horder]
  exact (List.singleton_sublist.mpr (hdeps v himports hv)).append
    (List.singleton_sublist.mpr List.mem_cons_self)

end ModuleGraph

/-! ## Calls -/

/-- A function that a module exports alone by its name is called behind the qualifiers of the
module. -/
theorem Scope.resolveQualified_of_unique {s : Scope}
    (hfiles : ∀ m, (s.graph.filesOf m).Nodup) {qualifier m name : String}
    (hown : qualifier ≠ s.moduleName) (hm : s.moduleFor? qualifier = some m) {signature : Signature}
    (hmem : signature ∈ s.exported m name)
    (hall : ∀ other ∈ s.exported m name, other.ref = signature.ref) :
    s.resolveQualified qualifier name = .bound (.function signature.ref) := by
  have hnodup : ((s.exported m name).map (·.ref)).Nodup := by
    refine ((nodup_defined hfiles m name).filter _).map_on fun a ha b hb hr => ?_
    -- in a table a function has one signature
    have hlookup := (mem_exported.mp ha).1.1
    rw [hr, (mem_exported.mp hb).1.1] at hlookup
    exact (Option.some.inj hlookup).symm
  unfold moduleFor? at hm
  rw [if_neg hown] at hm
  unfold resolveQualified resolveExported
  dsimp only
  rw [if_neg hown, hm]
  dsimp only
  rw [choose?_of_unique hnodup hmem hall]

namespace Session

namespace Loaded

variable {s : Session} (h : s.Loaded) {key : FileKey} {f : SourceFile}
  (hf : s.program.get? key = some f) {m : String} {file : FileKey} {name : String}
  (hfile : file ∈ (ofProgram s.program).filesOf m) (hexports : s.program.Exports ⟨file, name⟩)

include h hf hfile hexports

/-- A call by which an import exposes an exported function finds a function, if its qualifier stands
for the imported module. -/
theorem findsFunction_of_exposes {d : Spanned ImportDecl} (hd : d ∈ f.unit.imports)
    {qualifier : Option String}
    (htarget : (ofProgram s.program).findTarget? f.path.key d.node = some (m, qualifier))
    {path : CallPath} (hexposes : d.node.Exposes (ofProgram s.program) f.path.key m path name)
    (hqualifier : ∀ q, path.qualifier = some q → (s.scope key).moduleFor? q = some m) :
    ((s.scope key).resolve path).FindsFunction := by
  have hcandidate : s.program.Candidate f path .imports ⟨file, name⟩ :=
    ⟨d, hd, m, qualifier, htarget, hexposes, hexports, hfile⟩
  obtain ⟨q, called⟩ := path
  cases q with
  | none =>
    obtain ⟨signature, hmem, -⟩ := List.mem_map.mp ((h.candidate_iff hf).mp hcandidate)
    exact Scope.findsFunction_resolveName (List.ne_nil_of_mem hmem)
  | some q =>
    -- behind a qualifier a function goes by its own name
    have hname : called = name := by cases hexposes <;> rfl
    subst hname
    obtain ⟨signature, hmem, -⟩ := h.exported_iff.mpr ⟨hexports, hfile, rfl⟩
    exact Scope.findsFunction_resolveQualified (hqualifier q rfl) (List.ne_nil_of_mem hmem)

/-- A call behind a qualifier of an imported module is bound to the only function of the name that
the module exports. -/
theorem resolve_behind_qualifier {q : String} (hq : (s.scope key).moduleFor? q = some m)
    (hown : q ≠ f.moduleName)
    (honly : ∀ g, s.program.Exports g → g.file ∈ (ofProgram s.program).filesOf m →
      g.name = name → g.file = file) :
    (s.scope key).resolve ⟨some q, name⟩ = .bound (.function ⟨file, name⟩) := by
  obtain ⟨signature, hmem, hr⟩ := h.exported_iff.mpr ⟨hexports, hfile, rfl⟩
  rw [← hr]
  refine Scope.resolveQualified_of_unique
    (fun m => h.filesOf_eq m ▸ nodup_filesOf s.program m) ?_ hq hmem fun other hother => ?_
  · rw [h.moduleName_scope hf]
    exact hown
  · obtain ⟨hexports', hfile', hname'⟩ := h.exported_iff.mp ⟨other, hother, rfl⟩
    have hplace := honly other.ref hexports' hfile' hname'
    rw [hr]
    exact congrArg₂ FunctionRef.mk hplace hname'

end Loaded

/-- **An import of a file by its path.** After every analysis and after all edits, let a file import
another one by its path. The module of that file is recorded for the import. The file is among the
files of this module, and the importing file depends on it, if and only if it is not hidden. In this
case it comes before the importing file if both are verified; and the functions that it exports are
candidates of every call by which the import exposes them. Such a call finds a function where its
qualifier stands for the module, and it is bound to the function of the file if no other file of the
module exports one of the name. The functions of a hidden file are never candidates through
imports. -/
theorem file_import_depends_on_file {s : Session} (h : s.Reachable) {key : FileKey}
    {f : SourceFile} (hf : s.program.get? key = some f) {d : Spanned ImportDecl}
    (hd : d ∈ f.unit.imports) {target : String} (htarget : d.node.target = .file target)
    {file : FileKey} (hfile : (ofProgram s.program).findFile? f.path.key target = some file)
    (hne : file ≠ key) :
    ∃ f', s.program.get? file = some f' ∧
      let m := f'.moduleName
      let scope := s.scope key
      (∃ i ∈ scope.resolution.imports, i.moduleName = m ∧ i.span = d.span) ∧
      (file ∈ s.graph.filesOf m ↔ ¬ s.program.Hidden file) ∧
      (file ∈ s.graph.dependencies key ↔ ¬ s.program.Hidden file) ∧
      (¬ s.program.Hidden file →
        (s.graph.isHalted key = false → s.graph.isHalted file = false →
          List.Sublist [file, key] s.graph.order) ∧
        ∀ name, s.program.Exports ⟨file, name⟩ →
          (∀ path, d.node.Exposes (ofProgram s.program) f.path.key m path name →
            s.program.Candidate f path .imports ⟨file, name⟩ ∧
            ((∀ q, path.qualifier = some q → scope.moduleFor? q = some m) →
              (scope.resolve path).FindsFunction)) ∧
          ∀ q, scope.moduleFor? q = some m → q ≠ f.moduleName →
            (∀ g, s.program.Exports g → g.file ∈ s.graph.filesOf m → g.name = name →
              g.file = file) →
            scope.resolve ⟨some q, name⟩ = .bound (.function ⟨file, name⟩)) ∧
      (s.program.Hidden file → ∀ path name,
        ¬ s.program.Candidate f path .imports ⟨file, name⟩) := by
  have hs := h.loaded
  obtain ⟨f', hf'⟩ := OrderedMap.mem_keys.mp (mem_keys_of_findFile? hfile)
  have hf' : s.program.get? file = some f' := hf'
  have hfind := findTarget?_of_findFile? htarget hfile hf'
  have hvisible := mem_filesOf_own_iff hf'
  have himports : s.program.Imports key file ↔ ¬ s.program.Hidden file :=
    ⟨fun himports hhidden => ModuleGraph.not_imports_of_hidden hhidden himports,
      fun hnot => ⟨d.span, f, hf, d, hd, rfl, _, hfind, hvisible.mpr hnot, hne⟩⟩
  refine ⟨f', hf', ?_, ?_, ?_, fun hnot => ⟨?_, fun name hexports => ⟨fun path hexposes => ?_, ?_⟩⟩,
    ?_⟩
  · exact ⟨_, (hs.mem_imports_iff hf).mpr ⟨d, hd, _, _, hfind, rfl⟩, rfl, rfl⟩
  · rw [hs.filesOf_eq]
    exact hvisible
  · rw [hs.graph, ModuleGraph.mem_dependencies_build]
    exact himports
  · rw [hs.graph]
    exact ModuleGraph.sublist_order_of_imports (himports.mpr hnot)
  · exact ⟨⟨d, hd, _, _, hfind, hexposes, hexports, hvisible.mpr hnot⟩,
      hs.findsFunction_of_exposes hf (hvisible.mpr hnot) hexports hd hfind hexposes⟩
  · intro q hq hown honly
    refine hs.resolve_behind_qualifier hf (hvisible.mpr hnot) hexports hq hown fun g hg hfile' => ?_
    exact honly g hg (hs.filesOf_eq _ ▸ hfile')
  · rintro hhidden path name ⟨d', hd', m, qualifier, htarget', -, -, hmem⟩
    obtain ⟨f'', hf'', rfl⟩ := mem_of_mem_filesOf hmem
    exact (mem_filesOf_own_iff hf'').mp hmem hhidden

/-- A file with a declaration of its module and nothing else. -/
def arkUnit (moduleName : String) : SourceUnit where
  path := ⟨"ark.cdz"⟩
  moduleDecl := some ⟨moduleName, ⟨0, 1, 1⟩⟩

/-- A file that declares no module and exports its only function. -/
def zooUnit : SourceUnit where
  path := ⟨"zoo.cdz"⟩
  declarations := [⟨.function { name := "feed", returns := .unit }, ⟨1, 1, 1⟩⟩]
  exports := [⟨"feed", ⟨0, 1, 1⟩⟩]

/-- The import of a file by its path. -/
def zooImport : Spanned ImportDecl := ⟨{ target := .file "./zoo" }, ⟨0, 1, 1⟩⟩

/-- A file that calls a function of the file that it imports. -/
def keeperUnit : SourceUnit where
  path := ⟨"keeper.cdz"⟩
  imports := [zooImport]
  declarations :=
    [⟨.function { name := "run", returns := .unit
                  body := callBody { qualifier := some "zoo", name := "feed" } }, ⟨1, 1, 1⟩⟩]

theorem keeper_depends_on_zoo :
    let s := (start .standard {}).analyze ([arkUnit "ark", zooUnit] ++ [keeperUnit])
    let zoo := zooUnit.path.key
    let keeper := keeperUnit.path.key
    s.Reachable ∧ (ofProgram s.program).findFile? keeper "./zoo" = some zoo ∧ zoo ≠ keeper ∧
    ¬ s.program.Hidden zoo ∧ zoo ∈ s.graph.dependencies keeper ∧
    List.Sublist [zoo, keeper] s.graph.order ∧
    (s.scope keeper).resolve ⟨some "zoo", "feed"⟩ = .bound (.function ⟨zoo, "feed"⟩) := by
  intro s zoo keeper
  have hs : s.Reachable := .analyze (start .standard {}) _
  have hf := get?_analyze_concat (start .standard {}) [arkUnit "ark", zooUnit] keeperUnit
  have hfile : (ofProgram s.program).findFile? keeper "./zoo" = some zoo := by decide +kernel
  have hne : zoo ≠ keeper := by decide
  obtain ⟨f', hf', -, -, hdeps, hvisible, -⟩ := file_import_depends_on_file hs hf
    (List.mem_singleton_self zooImport) rfl hfile hne
  have hmem : zoo ∈ s.graph.dependencies keeper := by decide +kernel
  have hexports : s.program.Exports ⟨zoo, "feed"⟩ :=
    ⟨⟨zooUnit.path, zooUnit⟩, by rfl, ⟨_, List.mem_singleton_self _, rfl⟩, by decide⟩
  obtain rfl : ⟨zooUnit.path, zooUnit⟩ = f' := Option.some.inj hf'
  have honly : ∀ g, s.program.Exports g → g.file ∈ s.graph.filesOf "zoo" → g.name = "feed" →
      g.file = zoo := fun g _ hg _ => by
    have hfiles : s.graph.filesOf "zoo" = [zoo] := by decide +kernel
    exact List.mem_singleton.mp (hfiles ▸ hg)
  obtain ⟨horder, hcalls⟩ := hvisible (hdeps.mp hmem)
  exact ⟨hs, hfile, hne, hdeps.mp hmem, hmem, horder (by decide +kernel) (by decide +kernel),
    (hcalls "feed" hexports).2 "zoo" (by decide +kernel) (by decide +kernel) honly⟩

/-- Another file declares the module name that an imported file implies. The importing file does not
depend on the imported one and comes before it, and its call of the exported function is refused. -/
theorem hidden_file_not_imported :
    let s := (start .standard {}).analyze ([arkUnit "zoo", zooUnit] ++ [keeperUnit])
    let zoo := zooUnit.path.key
    let keeper := keeperUnit.path.key
    zooImport ∈ keeperUnit.imports ∧ zooImport.node.target = .file "./zoo" ∧
    (ofProgram s.program).findFile? keeper "./zoo" = some zoo ∧ zoo ≠ keeper ∧
    s.program.Hidden zoo ∧ s.program.Exports ⟨zoo, "feed"⟩ ∧
    (s.scope keeper).resolution.imports.map (·.moduleName) = ["zoo"] ∧
    zoo ∉ s.graph.filesOf "zoo" ∧ zoo ∉ s.graph.dependencies keeper ∧
    s.graph.order = [(arkUnit "zoo").path.key, keeper, zoo] ∧
    (s.scope keeper).resolve ⟨some "zoo", "feed"⟩ = .refused (.missingInModule "zoo" "feed") := by
  intro s zoo keeper
  have hark : s.program.DeclaresModule "zoo" (arkUnit "zoo").path.key :=
    ⟨⟨(arkUnit "zoo").path, arkUnit "zoo"⟩, by rfl, rfl⟩
  exact ⟨List.mem_singleton_self zooImport, rfl, by decide +kernel, by decide,
    ⟨⟨zooUnit.path, zooUnit⟩, by rfl, rfl, _, hark⟩,
    ⟨⟨zooUnit.path, zooUnit⟩, by rfl, ⟨_, List.mem_singleton_self _, rfl⟩, by decide⟩,
    by decide +kernel, by decide +kernel, by decide +kernel, by decide +kernel, by decide +kernel⟩

end Session

end EffectAudit
