import EffectAudit.Proofs.Session.Visibility

/-!
# Export lists

Imports and calls read export lists in different ways. An import of a name asks whether any file
that bears the name of the module lists it. A call asks whether a file of the module lists it and
declares the function itself. So everything that calls may use can be imported, but a name can be
imported that no call may use: one file may list a function which another one declares.

## Main definitions

* `Program.ListsOwn`: only files of a module which declare a function list it

## Main results

* `Session.Loaded.exported_ne_nil_iff`: the functions that calls may use
* `Session.Loaded.accepts_iff_listed`: the names that can be imported
* `Session.imports_agree_with_export_lists`: how the two are related
* `Session.accepted_item_may_be_unexported`: a name that can be imported and not be called
-/

namespace EffectAudit

open ModuleTable

/-- A function is listed only where it is declared: every file of the name of the module that lists
it is one of the files of the module and declares it. -/
def Program.ListsOwn (p : Program) (m name : String) : Prop :=
  ∀ key f, p.get? key = some f → f.moduleName = m → f.unit.exportsName name = true →
    key ∈ (ofProgram p).filesOf m ∧ p.Declares ⟨key, name⟩

namespace Session

namespace Loaded

variable {s : Session} (h : s.Loaded)

include h

/-- Calls may use a function of a module if a file of the module declares and lists it. -/
theorem exported_ne_nil_iff {key : FileKey} {m name : String} :
    (s.scope key).exported m name ≠ [] ↔
      ∃ file ∈ (ofProgram s.program).filesOf m, s.program.Exports ⟨file, name⟩ := by
  constructor
  · intro hne
    obtain ⟨signature, hmem⟩ := List.exists_mem_of_ne_nil _ hne
    obtain ⟨hexports, hfile, rfl⟩ := h.exported_iff.mp ⟨signature, hmem, rfl⟩
    exact ⟨signature.ref.file, hfile, hexports⟩
  · rintro ⟨file, hfile, hexports⟩
    obtain ⟨signature, hmem, -⟩ := h.exported_iff.mpr ⟨hexports, hfile, rfl⟩
    exact List.ne_nil_of_mem hmem

variable {f : SourceFile} {d : Spanned ImportDecl} {m : String} {qualifier : Option String}
  (htarget : (ofProgram s.program).findTarget? f.path.key d.node = some (m, qualifier))
  {items : List (Spanned ImportItem)} (hitems : d.node.items = .names items)
  {i : Spanned ImportItem} (hi : i ∈ items)

include htarget hitems hi

omit h in
/-- A name can be imported from a module if some file of the name of the module lists it. -/
theorem accepts_iff_listed : (ofProgram s.program).Accepts f.path d m i ↔
    ∃ file f', s.program.get? file = some f' ∧ f'.moduleName = m ∧
      f'.unit.exportsName i.node.name = true := by
  rw [accepts_iff htarget hitems hi, exportsName_ofProgram]

/-- What calls may use can be imported. -/
theorem accepts_of_exported {key : FileKey} (hne : (s.scope key).exported m i.node.name ≠ []) :
    (ofProgram s.program).Accepts f.path d m i := by
  obtain ⟨file, hfile, hexports⟩ := h.exported_ne_nil_iff.mp hne
  exact (accepts_iff htarget hitems hi).mpr (exportsName_of_exports hexports hfile)

/-- Where functions are listed only where they are declared, calls may use what is imported. -/
theorem exported_of_accepts {key : FileKey} (hlists : s.program.ListsOwn m i.node.name)
    (haccepts : (ofProgram s.program).Accepts f.path d m i) :
    (s.scope key).exported m i.node.name ≠ [] := by
  obtain ⟨file, f', hf', hm, hlisted⟩ := (accepts_iff_listed htarget hitems hi).mp haccepts
  obtain ⟨hfile, f'', hf'', hdeclared⟩ := hlists file f' hf' hm hlisted
  cases hf'.symm.trans hf''
  exact h.exported_ne_nil_iff.mpr ⟨file, hfile, f', hf', hdeclared, hlisted⟩

/-- A call by the local name of an item finds a function if the module exports the item. -/
theorem findsFunction_of_item {key : FileKey} (hf : s.program.get? key = some f)
    (hd : d ∈ f.unit.imports) (hne : (s.scope key).exported m i.node.name ≠ []) :
    ((s.scope key).resolve ⟨none, i.node.localName⟩).FindsFunction := by
  obtain ⟨file, hfile, hexports⟩ := h.exported_ne_nil_iff.mp hne
  have hcandidate : s.program.Candidate f ⟨none, i.node.localName⟩ .imports ⟨file, i.node.name⟩ :=
    ⟨d, hd, m, qualifier, htarget, .item hitems hi, hexports, hfile⟩
  obtain ⟨signature, hmem, -⟩ := List.mem_map.mp ((h.candidate_iff hf).mp hcandidate)
  exact Scope.findsFunction_resolveName (List.ne_nil_of_mem hmem)

end Loaded

/-- **Imports and export lists.** After every analysis and after all edits, let a file import a name
from a module. The name is accepted if and only if some file of the name of the module lists it;
calls may use it if and only if a file of the module declares and lists it. What calls may use is
accepted. What is accepted calls may use, if functions are listed only where they are declared. A
call of an item that calls may use finds a function: by its local name, and behind every qualifier
that stands for the module. -/
theorem imports_agree_with_export_lists {s : Session} (h : s.Reachable) {key : FileKey}
    {f : SourceFile} (hf : s.program.get? key = some f) {d : Spanned ImportDecl}
    (hd : d ∈ f.unit.imports) {m : String} {qualifier : Option String}
    (htarget : (ofProgram s.program).findTarget? f.path.key d.node = some (m, qualifier))
    {items : List (Spanned ImportItem)} (hitems : d.node.items = .names items)
    {i : Spanned ImportItem} (hi : i ∈ items) :
    let accepted := (ofProgram s.program).Accepts f.path d m i
    let exported := (s.scope key).exported m i.node.name
    (accepted ↔ ∃ file f', s.program.get? file = some f' ∧ f'.moduleName = m ∧
      f'.unit.exportsName i.node.name = true) ∧
    (exported ≠ [] ↔ ∃ file ∈ (ofProgram s.program).filesOf m,
      s.program.Exports ⟨file, i.node.name⟩) ∧
    (exported ≠ [] → accepted) ∧
    (s.program.ListsOwn m i.node.name → accepted → exported ≠ []) ∧
    (exported ≠ [] → ((s.scope key).resolve ⟨none, i.node.localName⟩).FindsFunction ∧
      ∀ qualifier', (s.scope key).moduleFor? qualifier' = some m →
        ((s.scope key).resolve ⟨some qualifier', i.node.name⟩).FindsFunction) := by
  intro accepted exported
  have hs := h.loaded
  refine ⟨Loaded.accepts_iff_listed htarget hitems hi, hs.exported_ne_nil_iff,
    hs.accepts_of_exported htarget hitems hi, hs.exported_of_accepts htarget hitems hi, ?_⟩
  intro hne
  refine ⟨hs.findsFunction_of_item htarget hitems hi hf hd hne, fun qualifier' hm => ?_⟩
  exact Scope.findsFunction_resolveQualified hm hne

/-- A file of a library with the given functions and the given export list. -/
def libraryUnit (path : String) (functions exports : List String) : SourceUnit where
  path := ⟨path⟩
  moduleDecl := some ⟨"lib", ⟨0, 1, 1⟩⟩
  declarations := functions.map fun name => ⟨.function { name, returns := .unit }, ⟨1, 1, 1⟩⟩
  exports := exports.map fun name => ⟨name, ⟨2, 1, 1⟩⟩

/-- The name of a function that loads something. -/
def loadItem : Spanned ImportItem := ⟨{ name := "load" }, ⟨1, 5, 4⟩⟩

/-- The import of this name from the library. -/
def loadImport : Spanned ImportDecl :=
  ⟨{ target := .module "lib", items := .names [loadItem] }, ⟨1, 1, 9⟩⟩

/-- A file that uses the function, by its name and behind the name of the library. -/
def readerUnit : SourceUnit where
  path := ⟨"reader.cdz"⟩
  imports := [loadImport]
  declarations :=
    [⟨.function { name := "run", returns := .unit
                  body := callBody { name := "load" } ++
                    callBody { qualifier := some "lib", name := "load" } }, ⟨2, 1, 1⟩⟩]

theorem reader_agrees_with_export_lists :
    let s := (start .standard {}).analyze ([libraryUnit "lib/a.cdz" ["open"] ["open"],
      libraryUnit "lib/b.cdz" ["load", "drop"] ["load"]] ++ [readerUnit])
    let scope := s.scope readerUnit.path.key
    s.Reachable ∧ s.program.ListsOwn "lib" "load" ∧
    (ofProgram s.program).Accepts readerUnit.path loadImport "lib" loadItem ∧
    scope.exported "lib" "load" ≠ [] ∧ (scope.resolve ⟨none, "load"⟩).FindsFunction ∧
    scope.moduleFor? "lib" = some "lib" ∧ (scope.resolve ⟨some "lib", "load"⟩).FindsFunction := by
  intro s scope
  have hs : s.Reachable := .analyze (start .standard {}) _
  have hf := get?_analyze_concat (start .standard {}) [libraryUnit "lib/a.cdz" ["open"] ["open"],
    libraryUnit "lib/b.cdz" ["load", "drop"] ["load"]] readerUnit
  have htarget : (ofProgram s.program).findTarget? readerUnit.path.key loadImport.node =
      some ("lib", none) := by decide +kernel
  have hlists : s.program.ListsOwn "lib" "load" := by
    have hentries : ∀ e ∈ s.program.entries, e.2.moduleName = "lib" →
        e.2.unit.exportsName "load" = true → e.1 ∈ (ofProgram s.program).filesOf "lib" ∧
          (s.symbols.lookup? ⟨e.1, "load"⟩).isSome = true := by decide +kernel
    intro key f hf hm hlisted
    obtain ⟨hfile, hlookup⟩ := hentries (key, f) (OrderedMap.mem_entries_iff.mpr hf) hm hlisted
    exact ⟨hfile, hs.loaded.declares_iff_lookup?.mpr (Option.isSome_iff_exists.mp hlookup)⟩
  have haccepts : (ofProgram s.program).Accepts readerUnit.path loadImport "lib" loadItem := by
    show _ ∉ _
    decide +kernel
  have hlib : scope.moduleFor? "lib" = some "lib" := by decide +kernel
  obtain ⟨-, -, -, hexported, hfinds⟩ := imports_agree_with_export_lists hs hf
    (List.mem_singleton_self loadImport) htarget rfl (List.mem_singleton_self loadItem)
  have hne := hexported hlists haccepts
  exact ⟨hs, hlists, haccepts, hne, (hfinds hne).1, hlib, (hfinds hne).2 "lib" hlib⟩

/-- One file of the library lists a function, and another one declares it. The import of the
function is accepted, and yet calls do not find it. -/
theorem accepted_item_may_be_unexported :
    let s := (start .standard {}).analyze [libraryUnit "lib/a.cdz" ["open"] ["load"],
      libraryUnit "lib/b.cdz" ["load"] [], readerUnit]
    let scope := s.scope readerUnit.path.key
    (ofProgram s.program).findTarget? readerUnit.path.key loadImport.node = some ("lib", none) ∧
    (ofProgram s.program).Accepts readerUnit.path loadImport "lib" loadItem ∧
    Path.key ⟨"lib/b.cdz"⟩ ∈ (ofProgram s.program).filesOf "lib" ∧
    s.program.Declares ⟨Path.key ⟨"lib/b.cdz"⟩, "load"⟩ ∧
    scope.exported "lib" "load" = [] ∧
    scope.resolve ⟨none, "load"⟩ = .refused (.unresolvedReference "load") ∧
    scope.resolve ⟨some "lib", "load"⟩ = .refused (.unexportedCall "lib" "load") := by
  intro s scope
  have hs : s.Loaded := (current_analyze (start .standard {}) _).toLoaded
  have hlookup : (s.symbols.lookup? ⟨Path.key ⟨"lib/b.cdz"⟩, "load"⟩).isSome = true := by
    decide +kernel
  refine ⟨by decide +kernel, ?_, by decide +kernel, ?_, by decide +kernel, by decide +kernel,
    by decide +kernel⟩
  · show _ ∉ _
    decide +kernel
  · exact hs.declares_iff_lookup?.mpr (Option.isSome_iff_exists.mp hlookup)

end Session

end EffectAudit
