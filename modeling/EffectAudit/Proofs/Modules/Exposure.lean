import EffectAudit.Function.Signature
import EffectAudit.Proofs.Modules.Resolution

/-!
# What imports expose

A file declares functions and lists some of them for export. An import of a module makes the
exported functions of this module known to the importing file: by their names, under local names, or
behind a qualifier.

## Main definitions

* `Program.Declares`, `Program.Exports`: the functions of a program, and those that are exported
* `ImportDecl.Exposes`: the calls by which the functions of an imported module are known
* `ModuleTable.importKind`: what an import brings of what it asks for
* `ModuleTable.Accepts`: an import does not complain of an item
* `ModuleTable.Brings`, `Program.MeansOneModule`: the qualifiers of imports

## Main results

* `ModuleTable.nodup_filesOf`: no module has a file twice
* `ModuleTable.resolved_eq_some_iff`: what an import resolves to
* `ModuleTable.exposes_of_findTarget?`: qualifiers are aliases and stems of files
* `ModuleTable.accepts_iff`: the items that are accepted
-/

namespace EffectAudit

/-- A function is declared in its file. -/
def Program.Declares (p : Program) (g : FunctionRef) : Prop :=
  ∃ f, p.get? g.file = some f ∧ ∃ d ∈ f.unit.functions, d.node.name = g.name

/-- A function is declared in its file and is on the export list of this file. -/
def Program.Exports (p : Program) (g : FunctionRef) : Prop :=
  ∃ f, p.get? g.file = some f ∧ (∃ d ∈ f.unit.functions, d.node.name = g.name) ∧
    f.unit.exportsName g.name = true

/-- An import of the module `m` makes the functions that the module exports by a name known to
calls: a wildcard under the name itself, an item under its local name, and any import behind the
name of the module, behind its alias or, where a file is imported without an alias, behind the stem
of the file. -/
inductive ImportDecl.Exposes (d : ImportDecl) (t : ModuleTable) (importer : FileKey) (m : String) :
    CallPath → String → Prop
  | wildcard {name : String} (hitems : d.items = .wildcard) :
      Exposes d t importer m ⟨none, name⟩ name
  | item {items : List (Spanned ImportItem)} {i : Spanned ImportItem}
      (hitems : d.items = .names items) (hi : i ∈ items) :
      Exposes d t importer m ⟨none, i.node.localName⟩ i.node.name
  | name {name : String} : Exposes d t importer m ⟨some m, name⟩ name
  | rename {qualifier name : String} (hrename : d.rename = some qualifier) :
      Exposes d t importer m ⟨some qualifier, name⟩ name
  | stem {path qualifier name : String} {key : FileKey} (htarget : d.target = .file path)
      (hfile : t.findFile? importer path = some key) (hrename : d.rename = none)
      (hstem : FileKey.stem? key = some qualifier) :
      Exposes d t importer m ⟨some qualifier, name⟩ name

namespace ModuleTable

theorem nodup_filesWhere (p : Program) (test : SourceFile → Bool) : (filesWhere p test).Nodup :=
  p.nodup_keys.sublist (List.filter_sublist.map _)

/-- No module has a file twice. -/
theorem nodup_filesOf (p : Program) (name : String) : ((ofProgram p).filesOf name).Nodup := by
  rw [filesOf_ofProgram]
  split
  · exact nodup_filesWhere p _
  · exact nodup_filesWhere p _

theorem exportsName_ofProgram {p : Program} {m name : String} :
    (ofProgram p).exportsName m name = true ↔
      ∃ key f, p.get? key = some f ∧ f.moduleName = m ∧ f.unit.exportsName name = true := by
  unfold exportsName
  rw [List.any_eq_true]
  simp only [Bool.and_eq_true, beq_iff_eq]
  constructor
  · rintro ⟨f, hf, hexports⟩
    obtain ⟨key, hkey⟩ := OrderedMap.mem_values.mp hf
    exact ⟨key, f, hkey, hexports⟩
  · rintro ⟨key, f, hkey, hexports⟩
    exact ⟨f, OrderedMap.mem_values.mpr ⟨key, hkey⟩, hexports⟩

/-- What the files of a module export counts as exported by the module. -/
theorem exportsName_of_exports {p : Program} {m : String} {g : FunctionRef} (hg : p.Exports g)
    (hfile : g.file ∈ (ofProgram p).filesOf m) : (ofProgram p).exportsName m g.name = true := by
  obtain ⟨f, hf, -, hexports⟩ := hg
  obtain ⟨f', hf', hm⟩ := mem_of_mem_filesOf hfile
  cases hf.symm.trans hf'
  exact exportsName_ofProgram.mpr ⟨g.file, f, hf, hm, hexports⟩

variable {t : ModuleTable}

/-- What an import of a module brings into scope; of the items that it asks for these are the ones
that the module exports. -/
def importKind (t : ModuleTable) (m : String) : ImportItems → ImportKind
  | .module => .module
  | .wildcard => .wildcard
  | .names items => .names ((items.filter fun i => t.exportsName m i.node.name).map fun i =>
      ⟨i.node.name, i.node.localName, i.span⟩)

theorem importKind_eq_wildcard_iff {m : String} {items : ImportItems} :
    t.importKind m items = .wildcard ↔ items = .wildcard := by
  cases items <;> simp [importKind]

theorem importKind_eq_names_iff {m : String} {items : ImportItems} {names : List ImportedName} :
    t.importKind m items = .names names ↔ ∃ asked, items = .names asked ∧
      (asked.filter fun i => t.exportsName m i.node.name).map (fun i =>
        ⟨i.node.name, i.node.localName, i.span⟩) = names := by
  cases items <;> simp [importKind]

theorem resolved_of_findTarget? {importer : Path} {d : Spanned ImportDecl} {m : String}
    {qualifier : Option String} (h : t.findTarget? importer.key d.node = some (m, qualifier)) :
    (t.resolveImport importer d).resolved =
      some ⟨m, qualifier, t.importKind m d.node.items, d.span⟩ := by
  unfold resolveImport
  rw [h]
  cases d.node.items with
  | module => rfl
  | wildcard => rfl
  | names items => rfl

/-- An import resolves to the module that it names. -/
theorem resolved_eq_some_iff {importer : Path} {d : Spanned ImportDecl} {i : ResolvedImport} :
    (t.resolveImport importer d).resolved = some i ↔ ∃ m qualifier,
      t.findTarget? importer.key d.node = some (m, qualifier) ∧
        i = ⟨m, qualifier, t.importKind m d.node.items, d.span⟩ := by
  constructor
  · intro h
    cases htarget : t.findTarget? importer.key d.node with
    | none =>
      rw [resolveImport_of_none htarget] at h
      cases h
    | some target =>
      rw [resolved_of_findTarget? htarget] at h
      exact ⟨target.1, target.2, rfl, (Option.some.inj h).symm⟩
  · rintro ⟨m, qualifier, htarget, rfl⟩
    exact resolved_of_findTarget? htarget

/-- The qualifier that an import gets beside the name of its module is an alias or the stem of a
file. -/
theorem exposes_of_findTarget? {importer : FileKey} {d : ImportDecl} {m qualifier : String}
    (h : t.findTarget? importer d = some (m, some qualifier)) (name : String) :
    d.Exposes t importer m ⟨some qualifier, name⟩ name := by
  unfold findTarget? at h
  split at h
  · -- a module is known by its alias
    split at h
    · simp only [Option.some.injEq, Prod.mk.injEq] at h
      exact .rename h.2
    · cases h
  · rename_i path htarget
    simp only [Option.bind_eq_bind, Option.bind_eq_some_iff, Option.pure_def, Option.some.injEq,
      Prod.mk.injEq] at h
    obtain ⟨key, hfile, -, -, -, hqualifier⟩ := h
    cases hrename : d.rename with
    | some name' =>
      rw [hrename] at hqualifier
      cases hqualifier
      exact .rename hrename
    | none =>
      rw [hrename] at hqualifier
      exact .stem htarget hfile hrename hqualifier

/-- An import names a module and brings a qualifier for it: the name of the module, an alias or the
stem of a file. -/
def Brings (t : ModuleTable) (importer : FileKey) (d : ImportDecl) (qualifier m : String) : Prop :=
  ∃ beside, t.findTarget? importer d = some (m, beside) ∧ (m = qualifier ∨ beside = some qualifier)

/-! ## Items of an import -/

/-- An import of the module `m` does not report that the module lacks an item. -/
def Accepts (t : ModuleTable) (importer : Path) (d : Spanned ImportDecl) (m : String)
    (i : Spanned ImportItem) : Prop :=
  (Finding.unexportedImport m i.node.name).report importer i.span ∉
    (t.resolveImport importer d).diagnostics

theorem message_unexportedImport_inj {m a b : String}
    (h : (Finding.unexportedImport m a).message = (Finding.unexportedImport m b).message) :
    a = b := by
  have h : s!"module `{m}` does not export `{a}`" = s!"module `{m}` does not export `{b}`" := h
  exact (String.append_right_inj _).mp ((String.append_left_inj _).mp h)

/-- An import accepts an item if and only if some file of the name of the module lists it. -/
theorem accepts_iff {importer : Path} {d : Spanned ImportDecl} {m : String}
    {qualifier : Option String} (htarget : t.findTarget? importer.key d.node = some (m, qualifier))
    {items : List (Spanned ImportItem)} (hitems : d.node.items = .names items)
    {i : Spanned ImportItem} (hi : i ∈ items) :
    t.Accepts importer d m i ↔ t.exportsName m i.node.name = true := by
  have hdiagnostics : (t.resolveImport importer d).diagnostics =
      (items.filter fun j => !t.exportsName m j.node.name).map fun j =>
        (Finding.unexportedImport m j.node.name).report importer j.span := by
    unfold resolveImport
    rw [htarget, hitems]
    rfl
  unfold Accepts
  rw [hdiagnostics]
  constructor
  · intro hnone
    by_contra hexports
    refine hnone (List.mem_map.mpr ⟨i, List.mem_filter.mpr ⟨hi, ?_⟩, rfl⟩)
    simpa using hexports
  · intro hexports hmem
    obtain ⟨j, hj, hreport⟩ := List.mem_map.mp hmem
    -- the report shows the name, so the item that it is about has the name that is exported
    have hname := message_unexportedImport_inj (congrArg Diagnostic.message hreport)
    have hrefused := (List.mem_filter.mp hj).2
    rw [hname, hexports] at hrefused
    cases hrefused

end ModuleTable

/-- All imports of a file that bring a qualifier bring it for the same module. -/
def Program.MeansOneModule (p : Program) (f : SourceFile) (qualifier : String) : Prop :=
  ∀ d ∈ f.unit.imports, ∀ d' ∈ f.unit.imports, ∀ m m',
    (ModuleTable.ofProgram p).Brings f.path.key d.node qualifier m →
    (ModuleTable.ofProgram p).Brings f.path.key d'.node qualifier m' → m = m'

end EffectAudit
