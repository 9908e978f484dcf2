import EffectAudit.Proofs.Modules.Interface

/-!
# An import that fails

A file looks the same from outside whatever it imports. So nothing changes in the graph when a file
gets an import that names nothing: the import makes no edge, and what it adds is its own report.

## Main definitions

* `Program.AddsFailing`: a program with one more import, which fails

## Main results

* `Program.AddsFailing.sameShape`: the graph is the same
* `Program.AddsFailing.exists_diagnosticsOf`: what is added to the diagnostics
-/

namespace EffectAudit

/-- The file with other imports. -/
def SourceFile.withImports (f : SourceFile) (imports : List (Spanned ImportDecl)) : SourceFile :=
  { f with unit := { f.unit with imports } }

/-! ## One more import -/

/-- A program with one more import in a file, which names nothing. -/
structure Program.AddsFailing (p q : Program) (f : SourceFile) (before : List (Spanned ImportDecl))
    (d : Spanned ImportDecl) (after : List (Spanned ImportDecl)) : Prop where
  old : p.get? f.path.key = some (f.withImports (before ++ after))
  new : q.get? f.path.key = some (f.withImports (before ++ d :: after))
  others : ∀ key, key ≠ f.path.key → q.get? key = p.get? key
  fails : ∀ key, ¬ p.Names f.path.key d.node.target key

namespace Program.AddsFailing

open ModuleGraph

variable {p q : Program} {f : SourceFile} {before after : List (Spanned ImportDecl)}
  {d : Spanned ImportDecl} (h : p.AddsFailing q f before d after)

include h

/-- What is not read from the imports of a file is the same. -/
theorem map_get? {β : Type} (g : SourceFile → β) (hg : ∀ f, g (f.withImports []) = g f)
    (key : FileKey) : (q.get? key).map g = (p.get? key).map g := by
  by_cases hkey : key = f.path.key
  · have hany : ∀ imports, g (f.withImports imports) = g (f.withImports []) :=
      fun imports => (hg (f.withImports imports)).symm
    rw [hkey, h.old, h.new, Option.map_some, Option.map_some, hany, hany (before ++ after)]
  · rw [h.others key hkey]

theorem sameInterfaces : q.SameInterfaces p := fun key => by
  by_cases hkey : key = f.path.key
  · rw [hkey, h.old, h.new]
    exact .some ⟨rfl, rfl, rfl, rfl, fun _ => rfl⟩
  · rw [h.others key hkey]
    cases p.get? key with
    | none => exact .none
    | some g => exact .some (.refl g)

theorem filesOf_eq (m : String) :
    (ModuleTable.ofProgram q).filesOf m = (ModuleTable.ofProgram p).filesOf m :=
  h.sameInterfaces.filesOf_eq m

theorem resolveImport_eq (importer : Path) (d : Spanned ImportDecl) :
    (ModuleTable.ofProgram q).resolveImport importer d =
      (ModuleTable.ofProgram p).resolveImport importer d :=
  h.sameInterfaces.resolveImport_eq importer d

/-- The import that is added fails. -/
theorem resolveImport_added :
    (ModuleTable.ofProgram q).resolveImport f.path d =
      { failed := [d.node.asFailed]
        diagnostics := [(Finding.unresolvedModule d.node.target.text).report f.path d.span] } := by
  rw [h.resolveImport_eq]
  exact ModuleTable.resolveImport_of_none (ModuleTable.findTarget?_eq_none_iff.mpr h.fails)

theorem get?_resolvedFiles {key : FileKey} (hkey : key ≠ f.path.key) :
    (resolvedFiles q).get? key = (resolvedFiles p).get? key := by
  unfold resolvedFiles
  rw [OrderedMap.get?_map, OrderedMap.get?_map, h.others key hkey]
  cases p.get? key with
  | none => rfl
  | some g =>
    exact congrArg some (ModuleTable.resolveFile_congr fun d _ => h.resolveImport_eq g.path d)

theorem get?_resolvedFiles_old : (resolvedFiles p).get? f.path.key =
    some ((ModuleTable.ofProgram p).resolveFile (f.withImports (before ++ after))) := by
  unfold resolvedFiles
  rw [OrderedMap.get?_map, h.old, Option.map_some]

theorem get?_resolvedFiles_new : (resolvedFiles q).get? f.path.key =
    some ((ModuleTable.ofProgram q).resolveFile (f.withImports (before ++ d :: after))) := by
  unfold resolvedFiles
  rw [OrderedMap.get?_map, h.new, Option.map_some]

/-- No file imports anything else. -/
theorem imports_eq (key : FileKey) :
    ((resolvedFiles q).get? key).map (·.1.imports) =
      ((resolvedFiles p).get? key).map (·.1.imports) := by
  by_cases hkey : key = f.path.key
  · have hadded : ((ModuleTable.ofProgram q).resolveImport f.path d).resolved = none := by
      rw [h.resolveImport_added]
    have hcons := List.filterMap_cons_none (l := after)
      (f := fun d => ((ModuleTable.ofProgram q).resolveImport f.path d).resolved) hadded
    have himports : (before ++ d :: after).filterMap
          (fun d => ((ModuleTable.ofProgram q).resolveImport f.path d).resolved) =
        (before ++ after).filterMap
          fun d => ((ModuleTable.ofProgram p).resolveImport f.path d).resolved := by
      rw [List.filterMap_append, hcons, ← List.filterMap_append]
      simp only [h.resolveImport_eq]
    rw [hkey, h.get?_resolvedFiles_old, h.get?_resolvedFiles_new, Option.map_some,
      Option.map_some, ModuleTable.imports_resolveFile, ModuleTable.imports_resolveFile]
    exact congrArg some himports
  · rw [h.get?_resolvedFiles hkey]

/-- The import that is added makes no edge. -/
theorem importEdges_eq : importEdges q = importEdges p := by
  -- edges come from what is imported, file by file
  have hedges : ∀ r : Program, importEdges r =
      ((resolvedFiles r).map fun _ e => e.1.imports).entries.flatMap fun e =>
        edgesOf (ModuleTable.ofProgram r) e.1 { imports := e.2 } := by
    intro r
    show _ = ((resolvedFiles r).entries.map fun e => (e.1, e.2.1.imports)).flatMap _
    rw [List.flatMap_map]
    rfl
  have himports : ((resolvedFiles q).map fun _ e => e.1.imports) =
      (resolvedFiles p).map fun _ e => e.1.imports := by
    refine OrderedMap.ext_get? fun key => ?_
    rw [OrderedMap.get?_map, OrderedMap.get?_map]
    exact h.imports_eq key
  rw [hedges, hedges, himports, h.sameInterfaces.edgesOf_eq]

theorem sameShape : q.SameShape p := ⟨h.sameInterfaces, h.importEdges_eq⟩

/-! ## The graph -/

variable (policy : Policy)

theorem edges_eq : (build q policy).edges = (build p policy).edges := h.importEdges_eq

theorem cycles_eq : (build q policy).cycles = (build p policy).cycles :=
  h.sameShape.cycles_eq policy

theorem halted_eq : (build q policy).halted = (build p policy).halted :=
  h.sameShape.halted_eq policy

theorem order_eq : (build q policy).order = (build p policy).order := h.sameShape.order_eq policy

theorem isHalted_eq (key : FileKey) :
    (build q policy).isHalted key = (build p policy).isHalted key :=
  h.sameShape.isHalted_eq policy key

theorem resolution?_eq {key : FileKey} (hkey : key ≠ f.path.key) :
    (build q policy).resolution? key = (build p policy).resolution? key := by
  rw [resolution?_build, resolution?_build, h.get?_resolvedFiles hkey]

theorem diagnosticsOf_eq {key : FileKey} (hkey : key ≠ f.path.key) :
    (build q policy).diagnosticsOf key = (build p policy).diagnosticsOf key := by
  obtain ⟨rest, hq, hp⟩ := h.sameShape.exists_rest policy key
  rw [hp, hq, h.get?_resolvedFiles hkey]

/-- **The report of the import is all that is added** to the diagnostics of its file. -/
theorem exists_diagnosticsOf : ∃ front back,
    (build p policy).diagnosticsOf f.path.key = front ++ back ∧
    (build q policy).diagnosticsOf f.path.key = front ++
      (Finding.unresolvedModule d.node.target.text).report f.path d.span :: back := by
  obtain ⟨rest, hq, hp⟩ := h.sameShape.exists_rest policy f.path.key
  rw [h.get?_resolvedFiles_old, Option.map_some, Option.getD_some,
    ModuleTable.diagnostics_resolveFile] at hp
  rw [h.get?_resolvedFiles_new, Option.map_some, Option.getD_some,
    ModuleTable.diagnostics_resolveFile] at hq
  refine ⟨before.flatMap fun d => ((ModuleTable.ofProgram p).resolveImport f.path d).diagnostics,
    (after.flatMap fun d => ((ModuleTable.ofProgram p).resolveImport f.path d).diagnostics) ++ rest,
    ?_, ?_⟩
  · rw [hp, ← List.append_assoc, ← List.flatMap_append]
    rfl
  · have hadded := h.resolveImport_added
    rw [h.resolveImport_eq] at hadded
    have hdiagnostics : (f.withImports (before ++ d :: after)).unit.imports.flatMap (fun d =>
        ((ModuleTable.ofProgram q).resolveImport f.path d).diagnostics) =
      (before.flatMap fun d =>
          ((ModuleTable.ofProgram p).resolveImport f.path d).diagnostics) ++
        (Finding.unresolvedModule d.node.target.text).report f.path d.span ::
          after.flatMap fun d =>
            ((ModuleTable.ofProgram p).resolveImport f.path d).diagnostics := by
      simp only [h.resolveImport_eq]
      show (before ++ d :: after).flatMap _ = _
      rw [List.flatMap_append, List.flatMap_cons, hadded]
      rfl
    rw [hq]
    refine (congrArg (· ++ rest) hdiagnostics).trans ?_
    rw [List.append_assoc, List.cons_append]

end Program.AddsFailing

end EffectAudit
