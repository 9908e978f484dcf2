import EffectAudit.Proofs.Lists
import EffectAudit.Proofs.Modules.Files

/-!
# What imports resolve to

An import resolves if its target names a file of the program, and fails otherwise. What becomes of
it depends on the module that it resolves to and on what that module exports, and on nothing else.

## Main definitions

* `Program.Names`: the files that the target of an import names

## Main results

* `ModuleTable.contains_modules`: the modules of a program
* `ModuleTable.findTarget?_eq_none_iff`: the imports that fail
* `ModuleTable.resolveFile_congr`: what the imports of a file depend on
-/

namespace EffectAudit

/-- The target of an import in a file names a file of the program: the file belongs to the module,
or its path is one of those that the target may stand for. -/
def Program.Names (p : Program) (importer : FileKey) (target : ImportTarget) (key : FileKey) :
    Prop :=
  ∃ f, p.get? key = some f ∧
    match target with
    | .module name => f.moduleName = name
    | .file path => FileKey.normalize key ∈ importCandidates importer path

namespace ModuleTable

/-! ## Targets -/

theorem isSome_get?_group {p : Program} {test : SourceFile → Bool} {name : String} :
    ((group p test).get? name).isSome = true ↔
      ∃ key f, p.get? key = some f ∧ test f = true ∧ f.moduleName = name := by
  rw [Option.isSome_iff_ne_none, Ne, get?_group_eq_none, List.eq_nil_iff_forall_not_mem]
  simp only [mem_filesWhere, Bool.and_eq_true, beq_iff_eq, not_forall, not_not]

/-- There is a module of a name if some file says or implies the name. -/
theorem contains_modules {p : Program} {name : String} :
    (ofProgram p).modules.contains name = true ↔
      ∃ key f, p.get? key = some f ∧ f.moduleName = name := by
  unfold OrderedMap.contains
  rw [get?_modules, Option.isSome_or, Bool.or_eq_true, isSome_get?_group, isSome_get?_group]
  constructor
  · rintro (⟨key, f, hf, -, hname⟩ | ⟨key, f, hf, -, hname⟩) <;> exact ⟨key, f, hf, hname⟩
  · rintro ⟨key, f, hf, hname⟩
    cases hd : f.unit.declaredModule? with
    | none => exact .inr ⟨key, f, hf, by simp [hd], hname⟩
    | some m => exact .inl ⟨key, f, hf, by simp [hd], hname⟩

section Files

variable {t : ModuleTable} {importer : FileKey} {path : String}

theorem findFile?_eq_none_iff :
    t.findFile? importer path = none ↔
      ∀ key ∈ t.program.keys, FileKey.normalize key ∉ importCandidates importer path := by
  unfold findFile?
  simp only [List.findSome?_eq_none_iff, List.find?_eq_none, List.mem_reverse, beq_iff_eq]
  constructor
  · intro h key hkey hc
    exact h _ hc key hkey rfl
  · rintro h c hc key hkey rfl
    exact h key hkey hc

theorem mem_keys_of_findFile? {key : FileKey} (h : t.findFile? importer path = some key) :
    key ∈ t.program.keys := by
  obtain ⟨c, -, hfind⟩ := List.exists_of_findSome?_eq_some h
  exact List.mem_reverse.mp (List.mem_of_find?_eq_some hfind)

/-- A path that names a file names it in every part of the program which has that file. -/
theorem findFile?_filter {t' : ModuleTable} {keep : FileKey → Bool}
    (hkeys : t'.program.keys = t.program.keys.filter keep)
    (hkeep : ∀ key, t.findFile? importer path = some key → keep key = true) :
    t'.findFile? importer path = t.findFile? importer path := by
  unfold findFile? at hkeep ⊢
  rw [hkeys, ← List.filter_reverse]
  exact findSome?_find?_filter hkeep

end Files

theorem moduleOf?_ofProgram {p : Program} {key : FileKey} {f : SourceFile}
    (hf : p.get? key = some f) : (ofProgram p).moduleOf? key = some f.moduleName :=
  congrArg (Option.map _) hf

/-- An import fails if and only if its target names no file. -/
theorem findTarget?_eq_none_iff {p : Program} {importer : FileKey} {d : ImportDecl} :
    (ofProgram p).findTarget? importer d = none ↔ ∀ key, ¬ p.Names importer d.target key := by
  unfold findTarget? Program.Names
  cases d.target with
  | module name =>
    dsimp only
    constructor
    · rintro h key ⟨f, hf, hname⟩
      rw [if_pos (contains_modules.mpr ⟨key, f, hf, hname⟩)] at h
      cases h
    · intro h
      refine if_neg fun hc => ?_
      obtain ⟨key, f, hf, hname⟩ := contains_modules.mp hc
      exact h key ⟨f, hf, hname⟩
  | file path =>
    dsimp only
    cases hfind : (ofProgram p).findFile? importer path with
    | none =>
      rw [findFile?_eq_none_iff] at hfind
      refine iff_of_true rfl ?_
      rintro key ⟨f, hf, hc⟩
      exact hfind key (OrderedMap.mem_keys.mpr ⟨f, hf⟩) hc
    | some key =>
      -- the file that is found is in the program, and so has a module
      obtain ⟨f, hf⟩ : ∃ f, p.get? key = some f :=
        OrderedMap.mem_keys.mp (mem_keys_of_findFile? hfind)
      refine iff_of_false ?_ fun h => ?_
      · rw [Option.bind_eq_bind, Option.bind_some, moduleOf?_ofProgram hf]
        exact Option.some_ne_none _
      · have hnone : (ofProgram p).findFile? importer path = none :=
          findFile?_eq_none_iff.mpr fun key hkey hc => by
            obtain ⟨f, hf⟩ := OrderedMap.mem_keys.mp hkey
            exact h key ⟨f, hf, hc⟩
        rw [hfind] at hnone
        cases hnone

/-! ## Resolution -/

theorem resolveImport_of_none {t : ModuleTable} {importer : Path} {d : Spanned ImportDecl}
    (h : t.findTarget? importer.key d.node = none) :
    t.resolveImport importer d =
      { failed := [d.node.asFailed]
        diagnostics :=
          [(Finding.unresolvedModule d.node.target.text).report importer d.span] } := by
  unfold resolveImport
  rw [h]

theorem imports_resolveFile (t : ModuleTable) (f : SourceFile) :
    (t.resolveFile f).1.imports =
      f.unit.imports.filterMap fun d => (t.resolveImport f.path d).resolved :=
  List.filterMap_map

theorem failed_resolveFile (t : ModuleTable) (f : SourceFile) :
    (t.resolveFile f).1.failed = f.unit.imports.flatMap fun d =>
      (t.resolveImport f.path d).failed :=
  List.flatMap_map _ _ _

theorem diagnostics_resolveFile (t : ModuleTable) (f : SourceFile) :
    (t.resolveFile f).2 = f.unit.imports.flatMap fun d => (t.resolveImport f.path d).diagnostics :=
  List.flatMap_map _ _ _

section Congruence

variable {t t' : ModuleTable}

theorem importNames_congr {m : String}
    (h : ∀ name, t'.exportsName m name = t.exportsName m name) (importer : Path)
    (items : List (Spanned ImportItem)) :
    t'.importNames importer m items = t.importNames importer m items := by
  unfold importNames
  simp only [h]

/-- What becomes of an import depends on the module that it names and on what the module exports. -/
theorem resolveImport_congr {importer : Path} {d : Spanned ImportDecl}
    (hfind : t'.findTarget? importer.key d.node = t.findTarget? importer.key d.node)
    (hexports : ∀ target, t.findTarget? importer.key d.node = some target →
      ∀ name, t'.exportsName target.1 name = t.exportsName target.1 name) :
    t'.resolveImport importer d = t.resolveImport importer d := by
  unfold resolveImport
  rw [hfind]
  cases htarget : t.findTarget? importer.key d.node with
  | none => rfl
  | some target =>
    have hnames := importNames_congr (hexports target htarget) importer
    simp only [hnames]

theorem resolveFile_congr {f : SourceFile}
    (h : ∀ d ∈ f.unit.imports, t'.resolveImport f.path d = t.resolveImport f.path d) :
    t'.resolveFile f = t.resolveFile f := by
  unfold resolveFile
  rw [List.map_congr_left h]

end Congruence

end ModuleTable

end EffectAudit
