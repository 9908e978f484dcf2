import EffectAudit.Proofs.Modules.Attribution
import EffectAudit.Proofs.Modules.Resolution

/-!
# What is seen of a file from outside

Which modules there are, what they export and which files conflict depends on the paths of files, on
the modules that they declare, on their export lists and on the names that these stand for. Nothing
else in a file counts, so imports resolve alike in programs whose files have the same interfaces. If
moreover the same imports make the same edges, all that the graph says about files is the same,
apart from what it says about imports.

## Main definitions

* `SourceFile.SameInterface`, `Program.SameInterfaces`: files and programs that look the same
* `Program.SameShape`: programs that look the same and have the same edges

## Main results

* `Program.SameInterfaces.resolveImport_eq`: imports resolve alike
* `Program.SameInterfaces.isHalted_eq`: the same files are halted where dependencies are the same
* `Program.SameShape.halted_eq`, `Program.SameShape.order_eq`: the graph is the same
* `Program.SameShape.exists_rest`: what is reported of files
-/

namespace EffectAudit

/-- Two files that look the same from outside. -/
structure SourceFile.SameInterface (f g : SourceFile) : Prop where
  path : f.path = g.path
  unitPath : f.unit.path = g.unit.path
  declaredModule? : f.unit.declaredModule? = g.unit.declaredModule?
  exports : f.unit.exports = g.unit.exports
  defines : ∀ name, f.unit.defines name = g.unit.defines name

namespace SourceFile.SameInterface

variable {f g : SourceFile}

theorem refl (f : SourceFile) : f.SameInterface f := ⟨rfl, rfl, rfl, rfl, fun _ => rfl⟩

theorem moduleName_eq (h : f.SameInterface g) : f.moduleName = g.moduleName := by
  unfold moduleName
  rw [h.declaredModule?, h.path]

theorem exportsName_eq (h : f.SameInterface g) (name : String) :
    f.unit.exportsName name = g.unit.exportsName name := by
  unfold SourceUnit.exportsName
  rw [h.exports]

end SourceFile.SameInterface

namespace Program

open ModuleGraph ModuleTable

/-- Two programs whose files look the same from outside. -/
def SameInterfaces (p q : Program) : Prop := OrderedMap.Rel SourceFile.SameInterface p q

namespace SameInterfaces

variable {p q : Program} (h : p.SameInterfaces q)

include h

/-! ## Modules -/

theorem group_eq {test : SourceFile → Bool}
    (htest : ∀ f g : SourceFile, f.SameInterface g → test f = test g) :
    group p test = group q test := by
  unfold group
  refine List.rel_foldl (P := Eq) ?_ rfl (List.rel_filter ?_ h.forall₂_entries)
  · rintro m _ rfl e e' ⟨hkey, he⟩
    dsimp only
    rw [hkey, he.moduleName_eq]
  · rintro e e' ⟨-, he⟩
    dsimp only
    rw [htest _ _ he]

theorem modules_eq : (ofProgram p).modules = (ofProgram q).modules := by
  unfold ofProgram
  rw [h.group_eq fun f g hfg => by rw [hfg.declaredModule?],
    h.group_eq fun f g hfg => by rw [hfg.declaredModule?]]

theorem filesOf_eq (m : String) : (ofProgram p).filesOf m = (ofProgram q).filesOf m := by
  unfold ModuleTable.filesOf
  rw [h.modules_eq]

theorem moduleOf?_eq (key : FileKey) : (ofProgram p).moduleOf? key = (ofProgram q).moduleOf? key :=
  h.map_get? (fun _ _ hfg => hfg.moduleName_eq) key

theorem exportsName_eq (m name : String) :
    (ofProgram p).exportsName m name = (ofProgram q).exportsName m name := by
  have hany : ∀ {l l' : List SourceFile}, List.Forall₂ SourceFile.SameInterface l l' →
      l.any (fun f => f.moduleName == m && f.unit.exportsName name) =
        l'.any fun f => f.moduleName == m && f.unit.exportsName name := by
    intro l l' hl
    induction hl with
    | nil => rfl
    | cons hfg _ ih => rw [List.any_cons, List.any_cons, hfg.moduleName_eq, hfg.exportsName_eq, ih]
  exact hany h.forall₂_values

theorem findTarget?_eq (importer : FileKey) (d : ImportDecl) :
    (ofProgram p).findTarget? importer d = (ofProgram q).findTarget? importer d := by
  have hfile : ∀ path, (ofProgram p).findFile? importer path =
      (ofProgram q).findFile? importer path := by
    intro path
    show ((importCandidates importer path).findSome? fun c => p.keys.reverse.find? _) = _
    rw [h.keys_eq]
    rfl
  unfold findTarget?
  simp only [h.modules_eq, hfile, h.moduleOf?_eq]

/-- **Imports resolve alike** where files look the same. -/
theorem resolveImport_eq (importer : Path) (d : Spanned ImportDecl) :
    (ofProgram p).resolveImport importer d = (ofProgram q).resolveImport importer d :=
  resolveImport_congr (h.findTarget?_eq _ _) fun target _ => h.exportsName_eq target.1

theorem edgesOf_eq : edgesOf (ofProgram p) = edgesOf (ofProgram q) := by
  funext key r
  unfold edgesOf
  simp only [h.filesOf_eq]

/-! ## Conflicts -/

theorem listedPath_eq : listedPath p = listedPath q := by
  funext key
  unfold listedPath
  rw [h.map_get? (fun _ _ hfg => hfg.path) key]

theorem declaredModules_eq : declaredModules p = declaredModules q := by
  have hnames : p.values.filterMap (·.unit.declaredModule?) =
      q.values.filterMap (·.unit.declaredModule?) := by
    rw [← List.forall₂_eq_eq_eq]
    refine List.rel_filterMap (fun f g hfg => ?_) h.forall₂_values
    rw [hfg.declaredModule?]
    cases g.unit.declaredModule? with
    | none => exact .none
    | some m => exact .some rfl
  unfold declaredModules
  rw [hnames]

theorem forall₂_declaring (m : String) :
    List.Forall₂ (fun e e' => e.1 = e'.1 ∧ e.2.path = e'.2.path ∧ e.2.exports = e'.2.exports ∧
      ∀ name, e.2.defines name = e'.2.defines name) (declaring p m) (declaring q m) := by
  refine List.rel_map (R := fun e e' => e.1 = e'.1 ∧ e.2.SameInterface e'.2) ?_
    (List.rel_filter ?_ h.forall₂_entries)
  · rintro e e' ⟨hkey, he⟩
    exact ⟨hkey, he.unitPath, he.exports, he.defines⟩
  · rintro e e' ⟨-, he⟩
    dsimp only
    rw [he.declaredModule?]

theorem conflictsOf_eq (policy : Policy) (halted : List FileKey) (m : String) :
    conflictsOf p policy halted m = conflictsOf q policy halted m := by
  have hunits := h.forall₂_declaring m
  -- an exported name is claimed alike in files that look the same
  have hclaim : ∀ {u v : SourceUnit}, u.path = v.path →
      (∀ name, u.defines name = v.defines name) →
      Ownership.claim policy m u = Ownership.claim policy m v := by
    intro u v hpath hdefines
    funext o e
    unfold Ownership.claim
    rw [hpath, hdefines]
  unfold conflictsOf conflictsIn
  rw [hunits.length_eq]
  refine if_congr Iff.rfl rfl (congrArg Prod.snd ?_)
  refine List.rel_foldl (P := Eq) ?_ rfl (List.rel_filter ?_ hunits)
  · rintro acc _ rfl ⟨key, u⟩ ⟨_, v⟩ ⟨rfl, hpath, hexports, hdefines⟩
    dsimp only at hpath hexports hdefines ⊢
    rw [hexports, hclaim hpath hdefines]
  · rintro e e' ⟨hkey, -⟩
    dsimp only
    rw [hkey]

theorem conflicts_eq (policy : Policy) (halted : List FileKey) :
    conflicts p policy halted = conflicts q policy halted := by
  rw [ModuleGraph.conflicts_eq, ModuleGraph.conflicts_eq, h.declaredModules_eq,
    funext (h.conflictsOf_eq policy halted)]

/-- The same files are halted if files depend on the same files. -/
theorem isHalted_eq (himports : p.Imports = q.Imports) (policy : Policy) (key : FileKey) :
    (build p policy).isHalted key = (build q policy).isHalted key := by
  -- the files on cycles may be listed in another order, but they are the same files
  have hcycles : ∀ file, file ∈ Cycle.files (importGraph p) ↔
      file ∈ Cycle.files (importGraph q) := by
    intro file
    rw [mem_files_importGraph, mem_files_importGraph, himports]
  have hconflicts : moduleConflicts p policy = moduleConflicts q policy := by
    unfold moduleConflicts
    rw [h.conflicts_eq, ModuleGraph.conflicts_eq, ModuleGraph.conflicts_eq]
    refine congrArg List.flatten (List.map_congr_left fun m _ => ?_)
    unfold conflictsOf
    rw [conflictsIn_congr fun e _ => hcycles e.1]
  refine Bool.eq_iff_iff.mpr ?_
  rw [isHalted_build, isHalted_build, himports, hconflicts]

end SameInterfaces

/-! ## Programs with the same edges -/

/-- Two programs whose files look the same from outside and depend on each other in the same way. -/
structure SameShape (p q : Program) : Prop where
  interfaces : p.SameInterfaces q
  edges : importEdges p = importEdges q

namespace SameShape

variable {p q : Program} (h : p.SameShape q)

include h

theorem importGraph_eq : importGraph p = importGraph q := by
  unfold importGraph digraph
  rw [h.edges, h.interfaces.keys_eq]

theorem openCycles_eq : openCycles p = openCycles q := by
  unfold openCycles
  rw [h.importGraph_eq]

theorem moduleConflicts_eq (policy : Policy) :
    moduleConflicts p policy = moduleConflicts q policy := by
  unfold moduleConflicts
  rw [h.importGraph_eq, h.interfaces.conflicts_eq]

variable (policy : Policy)

theorem cycles_eq : (build p policy).cycles = (build q policy).cycles := by
  rw [cycles_build, cycles_build, h.openCycles_eq]

theorem halted_eq : (build p policy).halted = (build q policy).halted := by
  rw [halted_build, halted_build, h.importGraph_eq, h.moduleConflicts_eq]
  refine (h.interfaces.filter _).map_eq fun key f g hfg => ?_
  rw [hfg.path, hfg.unitPath]

theorem isHalted_eq (key : FileKey) :
    (build p policy).isHalted key = (build q policy).isHalted key := by
  unfold isHalted
  rw [h.halted_eq]

theorem order_eq : (build p policy).order = (build q policy).order := by
  have hlive : isLive p policy = isLive q policy := by
    funext key
    unfold isLive
    rw [h.isHalted_eq]
  rw [order_build, order_build, hlive, h.edges, h.interfaces.keys_eq]

/-- What is reported of a file apart from its imports is the same. -/
theorem exists_rest (key : FileKey) : ∃ rest,
    (build p policy).diagnosticsOf key =
      (((resolvedFiles p).get? key).map (·.2)).getD [] ++ rest ∧
    (build q policy).diagnosticsOf key =
      (((resolvedFiles q).get? key).map (·.2)).getD [] ++ rest := by
  have hcycle : cycleDiagnostic p (importEdges p) = cycleDiagnostic q (importEdges q) := by
    funext c
    unfold cycleDiagnostic
    rw [h.edges, h.interfaces.listedPath_eq]
  rw [diagnosticsOf_build, diagnosticsOf_build, hcycle, h.openCycles_eq, h.moduleConflicts_eq,
    List.append_assoc, List.append_assoc]
  exact ⟨_, rfl, rfl⟩

end SameShape

end Program

end EffectAudit
