import EffectAudit.Proofs.Function.ImportOrder
import EffectAudit.Proofs.Modules.Interface
import EffectAudit.Proofs.Session.Visibility

/-!
# The order of imports

The order in which a file imports modules has no bearing on what its unqualified calls come to, nor
on what qualified calls come to whose qualifier stands for one module. If imports bring one
qualifier for several modules, then it stands for the module of the last of them.

## Main definitions

* `SourceUnit.PermutesImports`, `Program.PermutesImports`: the same files with imports in another
  order
* `Session.PermutesImports`: sessions with such programs

## Main results

* `Program.PermutesImports.imports_eq`: files depend on the same files
* `Session.permutesImports_analyze`: analyses of files with imports in another order
* `Session.PermutesImports.permutes_scope`: the scopes of a file differ in the order of imports only
* `Session.calls_independent_of_import_order`: what the order of imports does not decide
* `Session.last_import_decides_qualifier`: what it does decide
-/

namespace EffectAudit

open ModuleTable

/-! ## Source files -/

/-- The same file with its imports in another order. -/
def SourceUnit.PermutesImports (u v : SourceUnit) : Prop :=
  ∃ imports, u.imports.Perm imports ∧ v = { u with imports }

/-- The same file with its imports in another order, listed by the same path. -/
structure SourceFile.PermutesImports (f g : SourceFile) : Prop where
  path : f.path = g.path
  unit : f.unit.PermutesImports g.unit

namespace SourceFile.PermutesImports

variable {f g : SourceFile} (h : f.PermutesImports g)

include h

theorem sameInterface : f.SameInterface g := by
  obtain ⟨hpath, imports, -, hunit⟩ := h
  refine ⟨hpath, ?_, ?_, ?_, fun name => ?_⟩ <;> rw [hunit]
  · rfl
  · rfl

theorem perm_imports : f.unit.imports.Perm g.unit.imports := by
  obtain ⟨-, imports, hperm, hunit⟩ := h
  rw [hunit]
  exact hperm

theorem ofUnit_eq (registry : Registry) :
    FileSymbols.ofUnit registry f.moduleName f.unit =
      FileSymbols.ofUnit registry g.moduleName g.unit := by
  rw [h.sameInterface.moduleName_eq]
  obtain ⟨-, imports, -, hunit⟩ := h
  rw [hunit]
  rfl

end SourceFile.PermutesImports

/-! ## Programs -/

namespace Program

/-- The same files with their imports in another order. -/
def PermutesImports (p q : Program) : Prop := OrderedMap.Rel SourceFile.PermutesImports p q

theorem permutesImports_ofUnits {us vs : List SourceUnit}
    (h : List.Forall₂ SourceUnit.PermutesImports us vs) :
    (ofUnits us).PermutesImports (ofUnits vs) := by
  refine OrderedMap.Rel.ofList (List.rel_map (R := SourceUnit.PermutesImports) ?_ h)
  rintro u v huv
  have hpath : u.path = v.path := by
    obtain ⟨imports, -, rfl⟩ := huv
    rfl
  exact ⟨congrArg Path.key hpath, hpath, huv⟩

namespace PermutesImports

variable {p q : Program} (h : p.PermutesImports q)

include h

theorem sameInterfaces : p.SameInterfaces q := h.mono fun _ _ hfg => hfg.sameInterface

/-- Files depend on the same files, at the same places. -/
theorem importsAt_iff {u v : FileKey} {span : Span} :
    p.ImportsAt u v span ↔ q.ImportsAt u v span := by
  unfold ImportsAt
  obtain ⟨hf, hg⟩ | ⟨f, g, hf, hg, hfg⟩ := h.get?_cases u
  · simp [hf, hg]
  · simp only [hf, hg, Option.some.injEq, exists_eq_left', hfg.perm_imports.mem_iff, hfg.path,
      h.sameInterfaces.findTarget?_eq, h.sameInterfaces.filesOf_eq]

theorem imports_eq : p.Imports = q.Imports := by
  funext u v
  exact propext (exists_congr fun _ => h.importsAt_iff)

/-- What becomes of the imports of a file comes in another order. -/
theorem perm_resolveFile {f g : SourceFile} (hfg : f.PermutesImports g) :
    ((ofProgram p).resolveFile f).1.imports.Perm ((ofProgram q).resolveFile g).1.imports ∧
    ((ofProgram p).resolveFile f).1.failed.Perm ((ofProgram q).resolveFile g).1.failed := by
  rw [imports_resolveFile, imports_resolveFile, failed_resolveFile, failed_resolveFile, hfg.path]
  simp only [h.sameInterfaces.resolveImport_eq]
  exact ⟨hfg.perm_imports.filterMap _, hfg.perm_imports.flatMap_right _⟩

end PermutesImports

end Program

/-! ## Sessions -/

namespace Session

/-- Two sessions with the same files, of which imports stand in another order. -/
structure PermutesImports (s t : Session) : Prop where
  reachable_left : s.Reachable
  reachable_right : t.Reachable
  registry : s.registry = t.registry
  policy : s.policy = t.policy
  program : s.program.PermutesImports t.program

namespace PermutesImports

variable {s t : Session} (h : s.PermutesImports t)

include h

theorem loaded_left : s.Loaded := h.reachable_left.loaded

theorem loaded_right : t.Loaded := h.reachable_right.loaded

theorem isHalted_eq (key : FileKey) : s.graph.isHalted key = t.graph.isHalted key := by
  rw [h.loaded_left.graph, h.loaded_right.graph, ← h.policy]
  exact h.program.sameInterfaces.isHalted_eq h.program.imports_eq s.policy key

theorem filesOf_eq (m : String) : s.graph.filesOf m = t.graph.filesOf m := by
  rw [h.loaded_left.filesOf_eq, h.loaded_right.filesOf_eq, h.program.sameInterfaces.filesOf_eq]

theorem lookup?_eq (f : FunctionRef) : s.symbols.lookup? f = t.symbols.lookup? f := by
  refine SymbolTable.lookup?_congr ?_
  rw [h.loaded_left.symbols, h.loaded_right.symbols, ← h.registry]
  exact h.program.map_get? (fun f g hfg => hfg.ofUnit_eq s.registry) f.file

/-- **The scopes of a file differ in the order of imports only.** -/
theorem permutes_scope {key : FileKey} {f : SourceFile} (hf : s.program.get? key = some f) :
    (s.scope key).PermutesImports (t.scope key) := by
  obtain ⟨hnone, -⟩ | ⟨f', g, hf', hg, hfg⟩ := h.program.get?_cases key
  · cases hf.symm.trans hnone
  · cases hf.symm.trans hf'
    have hperm := h.program.perm_resolveFile hfg
    rw [← h.loaded_left.resolution_scope hf, ← h.loaded_right.resolution_scope hg] at hperm
    have hmodule : (s.scope key).moduleName = (t.scope key).moduleName := by
      rw [h.loaded_left.moduleName_scope hf, h.loaded_right.moduleName_scope hg,
        hfg.sameInterface.moduleName_eq]
    refine ⟨⟨h.registry, rfl, hmodule, fun name => h.lookup?_eq ⟨key, name⟩, ?_⟩, hperm.1, hperm.2⟩
    -- modules have the same files in the same order, since no import decides on them
    intro m name _
    unfold Scope.defined SymbolTable.lookupIn scope
    dsimp only
    rw [h.filesOf_eq]
    simp only [h.lookup?_eq]

end PermutesImports

/-! ## Qualifiers -/

namespace Loaded

variable {s : Session} (h : s.Loaded) {key : FileKey} {f : SourceFile}
  (hf : s.program.get? key = some f)

include h hf

/-- A qualifier that is brought for one module has one meaning in the scope of the file. -/
theorem meansOneModule_scope {qualifier : String} (hone : s.program.MeansOneModule f qualifier) :
    (s.scope key).MeansOneModule qualifier := by
  intro i hi j hj hbrings hbrings'
  obtain ⟨d, hd, m, beside, htarget, rfl⟩ := (h.mem_imports_iff hf).mp hi
  obtain ⟨d', hd', m', beside', htarget', rfl⟩ := (h.mem_imports_iff hf).mp hj
  exact hone d hd d' hd' m m' ⟨beside, htarget, hbrings⟩ ⟨beside', htarget', hbrings'⟩

/-- A qualifier stands for the module of the last import that brings it. -/
theorem moduleFor?_of_last {before after : List (Spanned ImportDecl)} {d : Spanned ImportDecl}
    {qualifier m : String} (hsplit : f.unit.imports = before ++ d :: after)
    (hd : (ofProgram s.program).Brings f.path.key d.node qualifier m)
    (hlast : ∀ d' ∈ after, ∀ m',
      ¬ (ofProgram s.program).Brings f.path.key d'.node qualifier m')
    (hother : qualifier ≠ f.moduleName) : (s.scope key).moduleFor? qualifier = some m := by
  obtain ⟨beside, htarget, hbrings⟩ := hd
  unfold Scope.moduleFor?
  rw [h.moduleName_scope hf, if_neg hother]
  -- imports that fail drop out, and the others stay in their order
  have himports := h.imports_scope hf
  rw [hsplit, List.filterMap_append, List.filterMap_cons,
    resolved_of_findTarget? htarget] at himports
  refine Scope.qualified?_of_last himports hbrings fun j hj hbrings' => ?_
  obtain ⟨d', hd', hresolved⟩ := List.mem_filterMap.mp hj
  obtain ⟨m', beside', htarget', rfl⟩ := resolved_eq_some_iff.mp hresolved
  exact hlast d' hd' m' ⟨beside', htarget', hbrings'⟩

end Loaded

/-- Analyses of files whose imports stand in another order. -/
theorem permutesImports_analyze (before : Session) {us vs : List SourceUnit}
    (h : List.Forall₂ SourceUnit.PermutesImports us vs) :
    (before.analyze us).PermutesImports (before.analyze vs) := by
  have hs := holds_analyze before us
  have ht := holds_analyze before vs
  refine ⟨.analyze before us, .analyze before vs, ?_, ?_, ?_⟩
  · rw [hs.registry, ht.registry]
  · rw [hs.policy, ht.policy]
  · rw [hs.program, ht.program]
    exact Program.permutesImports_ofUnits h

/-- **The order of imports.** Let two programs differ only in the order in which files import what
they import, in two analyses of such files or after edits. Then the same files are halted, and every
call comes to the same in both: it is bound to one callee, passed over in both, or reported under
one rule in both, if it is unqualified, or if its qualifier is the name of the own module or is
brought for one module only. Any other qualifier stands for the module of the last import that
brings it. -/
theorem calls_independent_of_import_order {s t : Session} (h : s.PermutesImports t) {key : FileKey}
    {f : SourceFile} (hf : s.program.get? key = some f) :
    s.graph.isHalted key = t.graph.isHalted key ∧
    (∀ path : CallPath, (∀ qualifier, path.qualifier = some qualifier →
        qualifier = f.moduleName ∨ s.program.MeansOneModule f qualifier) →
      ((s.scope key).resolve path).Alike ((t.scope key).resolve path)) ∧
    ∀ before d after qualifier m, f.unit.imports = before ++ d :: after →
      (ofProgram s.program).Brings f.path.key d.node qualifier m →
      (∀ d' ∈ after, ∀ m', ¬ (ofProgram s.program).Brings f.path.key d'.node qualifier m') →
      qualifier ≠ f.moduleName → (s.scope key).moduleFor? qualifier = some m := by
  have hscope := h.permutes_scope hf
  refine ⟨h.isHalted_eq key, fun path hpath => ?_, ?_⟩
  · obtain ⟨qualifier, name⟩ := path
    cases qualifier with
    | none => exact hscope.resolveName_alike name
    | some qualifier =>
      have hq : qualifier = (s.scope key).moduleName ∨ (s.scope key).MeansOneModule qualifier := by
        rw [h.loaded_left.moduleName_scope hf]
        exact (hpath qualifier rfl).imp_right (h.loaded_left.meansOneModule_scope hf)
      show ((s.scope key).resolveQualified qualifier name).Alike _
      rw [hscope.resolveQualified_eq hq]
      exact .refl _
  · intro before d after qualifier m hsplit hd hlast hother
    exact h.loaded_left.moduleFor?_of_last hf hsplit hd hlast hother

/-- An import of a module under another name. -/
def importAs (m newName : String) (line : UInt32) : Spanned ImportDecl :=
  ⟨{ target := .module m, rename := some newName }, ⟨line, 1, 1⟩⟩

/-- A file that sends something by way of its imports. -/
def clerkUnit (imports : List (Spanned ImportDecl)) : SourceUnit where
  path := ⟨"clerk.cdz"⟩
  imports
  declarations :=
    [⟨.function { name := "run", returns := .unit
                  body := callBody { qualifier := some "mail", name := "send" } }, ⟨3, 1, 1⟩⟩]

/-- A module that sends, a module that packs, and a file that imports them. -/
def clerkUnits (imports : List (Spanned ImportDecl)) : List SourceUnit :=
  [exportingUnit "mail" "send", exportingUnit "post" "pack"] ++ [clerkUnit imports]

theorem permutesImports_clerkUnits {imports imports' : List (Spanned ImportDecl)}
    (h : imports.Perm imports') :
    List.Forall₂ SourceUnit.PermutesImports (clerkUnits imports) (clerkUnits imports') :=
  .cons ⟨_, .refl _, rfl⟩ (.cons ⟨_, .refl _, rfl⟩ (.cons ⟨imports', h, rfl⟩ .nil))

theorem clerk_independent_of_import_order :
    let imports := [importAll "mail" 1, importAs "post" "parcel" 2]
    let s := (start .standard {}).analyze (clerkUnits imports)
    let t := (start .standard {}).analyze (clerkUnits imports.reverse)
    let key := Path.key ⟨"clerk.cdz"⟩
    s.PermutesImports t ∧
    s.program.MeansOneModule ⟨⟨"clerk.cdz"⟩, clerkUnit imports⟩ "parcel" ∧
    (s.scope key).resolve ⟨some "parcel", "pack"⟩ =
      .bound (.function ⟨Path.key ⟨"post.cdz"⟩, "pack"⟩) ∧
    ((s.scope key).resolve ⟨some "parcel", "pack"⟩).Alike
      ((t.scope key).resolve ⟨some "parcel", "pack"⟩) ∧
    (s.scope key).moduleFor? "parcel" = some "post" := by
  intro imports s t key
  have hst : s.PermutesImports t := permutesImports_analyze (start .standard {})
    (permutesImports_clerkUnits imports.reverse_perm.symm)
  have hf : s.program.get? key = some ⟨⟨"clerk.cdz"⟩, clerkUnit imports⟩ :=
    get?_analyze_concat (start .standard {}) _ (clerkUnit imports)
  obtain ⟨-, halike, hlast⟩ := calls_independent_of_import_order hst hf
  have hone : s.program.MeansOneModule ⟨⟨"clerk.cdz"⟩, clerkUnit imports⟩ "parcel" := by
    have htargets : ∀ d ∈ imports, ∀ target ∈ (ofProgram s.program).findTarget? key d.node,
        target.1 = "parcel" ∨ target.2 = some "parcel" → target.1 = "post" := by decide +kernel
    rintro d hd d' hd' m m' ⟨beside, htarget, hbrings⟩ ⟨beside', htarget', hbrings'⟩
    exact (htargets d hd _ htarget hbrings).trans (htargets d' hd' _ htarget' hbrings').symm
  refine ⟨hst, hone, by decide +kernel, halike _ fun q hq => ?_, ?_⟩
  · cases hq
    exact .inr hone
  · refine hlast [importAll "mail" 1] (importAs "post" "parcel" 2) [] "parcel" "post" rfl
      ⟨some "parcel", by decide +kernel, .inr rfl⟩ (fun d' hd' => absurd hd' List.not_mem_nil) ?_
    decide +kernel

/-- Two imports bring one qualifier for different modules. A qualified call is bound or reported, as
the one import comes last or the other. -/
theorem last_import_decides_qualifier :
    let imports := [⟨{ target := .module "mail" }, ⟨1, 1, 1⟩⟩, importAs "post" "mail" 2]
    let s := (start .standard {}).analyze (clerkUnits imports)
    let t := (start .standard {}).analyze (clerkUnits imports.reverse)
    let key := Path.key ⟨"clerk.cdz"⟩
    s.PermutesImports t ∧
    (s.scope key).resolve ⟨some "mail", "send"⟩ = .refused (.missingInModule "post" "send") ∧
    (t.scope key).resolve ⟨some "mail", "send"⟩ =
      .bound (.function ⟨Path.key ⟨"mail.cdz"⟩, "send"⟩) ∧
    (s.scope key).resolve ⟨some "mail", "pack"⟩ =
      .bound (.function ⟨Path.key ⟨"post.cdz"⟩, "pack"⟩) ∧
    ¬ ((s.scope key).resolve ⟨some "mail", "send"⟩).Alike
      ((t.scope key).resolve ⟨some "mail", "send"⟩) := by
  intro imports s t key
  have hst : s.PermutesImports t := permutesImports_analyze (start .standard {})
    (permutesImports_clerkUnits imports.reverse_perm.symm)
  have hs : (s.scope key).resolve ⟨some "mail", "send"⟩ =
      .refused (.missingInModule "post" "send") := by decide +kernel
  have ht : (t.scope key).resolve ⟨some "mail", "send"⟩ =
      .bound (.function ⟨Path.key ⟨"mail.cdz"⟩, "send"⟩) := by decide +kernel
  refine ⟨hst, hs, ht, by decide +kernel, fun halike => ?_⟩
  rw [hs, ht] at halike
  cases halike

end Session

end EffectAudit
