import EffectAudit.Proofs.Modules.Attribution
import EffectAudit.Proofs.Modules.CycleLocality
import EffectAudit.Proofs.Modules.Resolution

/-!
# Files that are set apart

Some files of a program are set apart if they share no module with the other files and none of these
imports them. What the module graph says about the other files is then the same without them. The
other files are closed under imports, so they make up a part of the graph with the same
dependencies, cycles and conflicts.

## Main definitions

* `Program.without`: a program without some of its files
* `Program.Leaves`: no file of a module is taken away
* `Program.SetApart`: files that the others have nothing to do with

## Main results

* `ModuleGraph.resolution?_without`, `ModuleGraph.isHalted_without`,
  `ModuleGraph.diagnosticsOf_without`: the graph says the same about the files that are left
-/

namespace EffectAudit

open Relation

/-! ## Programs with fewer files -/

namespace Program

/-- The program without some of its files. -/
def without (p : Program) (apart : FileKey → Bool) : Program := p.filter fun key _ => !apart key

/-- No file of the module is set apart. -/
def Leaves (p : Program) (apart : FileKey → Bool) (m : String) : Prop :=
  ∀ key f, p.get? key = some f → f.moduleName = m → apart key = false

/-- Files that the other files of a program have nothing to do with: no module has files of both
kinds, no other file has an import that resolves to a module of them, and they declare no
conversions between error types. -/
structure SetApart (p : Program) (apart : FileKey → Bool) : Prop where
  modules : ∀ key f, p.get? key = some f → apart key = false → p.Leaves apart f.moduleName
  imports : ∀ key f, p.get? key = some f → apart key = false →
    ∀ i ∈ ((ModuleTable.ofProgram p).resolveFile f).1.imports, p.Leaves apart i.moduleName
  conversions : ∀ key f, p.get? key = some f → apart key = true →
    ∀ t ∈ f.unit.types, t.convertsFrom = []

variable {p : Program} {apart : FileKey → Bool} {key : FileKey} {f : SourceFile}

theorem leaves_iff {m : String} :
    p.Leaves apart m ↔ ∀ e ∈ p.entries, e.2.moduleName = m → apart e.1 = false := by
  constructor
  · intro h e he
    exact h e.1 e.2 (OrderedMap.mem_entries_iff.mp he)
  · intro h key f hf
    exact h (key, f) (OrderedMap.mem_entries_iff.mpr hf)

instance (m : String) : Decidable (p.Leaves apart m) := decidable_of_iff' _ leaves_iff

theorem setApart_iff :
    p.SetApart apart ↔ ∀ e ∈ p.entries,
      (apart e.1 = false → p.Leaves apart e.2.moduleName ∧
        ∀ i ∈ ((ModuleTable.ofProgram p).resolveFile e.2).1.imports,
          p.Leaves apart i.moduleName) ∧
      (apart e.1 = true → ∀ t ∈ e.2.unit.types, t.convertsFrom = []) := by
  constructor
  · intro h e he
    have hf := OrderedMap.mem_entries_iff.mp he
    exact ⟨fun hkey => ⟨h.modules e.1 e.2 hf hkey, h.imports e.1 e.2 hf hkey⟩,
      h.conversions e.1 e.2 hf⟩
  · intro h
    refine ⟨fun key f hf hkey => ?_, fun key f hf hkey => ?_, fun key f hf => ?_⟩
    · exact ((h (key, f) (OrderedMap.mem_entries_iff.mpr hf)).1 hkey).1
    · exact ((h (key, f) (OrderedMap.mem_entries_iff.mpr hf)).1 hkey).2
    · exact (h (key, f) (OrderedMap.mem_entries_iff.mpr hf)).2

instance : Decidable (p.SetApart apart) := decidable_of_iff' _ setApart_iff

theorem get?_without (hkey : apart key = false) : (p.without apart).get? key = p.get? key := by
  unfold without
  rw [OrderedMap.get?_filter]
  cases p.get? key <;> simp [hkey]

theorem get?_without_of_apart (hkey : apart key = true) : (p.without apart).get? key = none := by
  unfold without
  rw [OrderedMap.get?_filter]
  cases p.get? key <;> simp [hkey]

theorem get?_without_eq_some_iff :
    (p.without apart).get? key = some f ↔ p.get? key = some f ∧ apart key = false := by
  unfold without
  rw [OrderedMap.get?_filter, Option.filter_eq_some_iff, Bool.not_eq_true']

theorem keys_without : (p.without apart).keys = p.keys.filter fun key => !apart key :=
  Eq.symm (List.filter_map (l := p.entries) (p := fun key => !apart key))

theorem ofUnits_filter (units : List SourceUnit) (apart : FileKey → Bool) :
    ofUnits (units.filter fun u => !apart u.path.key) = (ofUnits units).without apart := by
  refine OrderedMap.ext_get? fun key => ?_
  cases hkey : apart key with
  | false =>
    rw [get?_without hkey]
    exact get?_ofUnits_filter (fun key => !apart key) (by simp [hkey])
  | true =>
    rw [get?_without_of_apart hkey]
    by_contra hne
    obtain ⟨f, hf⟩ := Option.ne_none_iff_exists'.mp hne
    -- a file of the program is one of the files that it was made from
    have hunit := (List.mem_filter.mp (mem_of_get?_ofUnits hf)).2
    rw [(wellListed_ofUnits _).unit_key hf, hkey] at hunit
    cases hunit

end Program

/-! ## Modules and imports -/

namespace ModuleTable

variable {p : Program} {apart : FileKey → Bool}

theorem entries_filter_without {test : FileKey × SourceFile → Bool}
    (h : ∀ key f, p.get? key = some f → test (key, f) = true → apart key = false) :
    (p.without apart).entries.filter test = p.entries.filter test := by
  refine OrderedMap.entries_filter_congr fun key f htest => ?_
  rw [Program.get?_without_eq_some_iff]
  exact and_iff_left_of_imp fun hf => h key f hf htest

section Leaves

variable {m : String} (hm : p.Leaves apart m)

include hm

theorem filesOf_without : (ofProgram (p.without apart)).filesOf m = (ofProgram p).filesOf m := by
  have hwhere : ∀ test : SourceFile → Bool,
      filesWhere (p.without apart) (fun f => test f && f.moduleName == m) =
        filesWhere p fun f => test f && f.moduleName == m := by
    intro test
    refine congrArg _ (entries_filter_without fun key f hf htest => ?_)
    rw [Bool.and_eq_true, beq_iff_eq] at htest
    exact hm key f hf htest.2
  rw [filesOf_ofProgram, filesOf_ofProgram, hwhere, hwhere]

theorem exportsName_without (name : String) :
    (ofProgram (p.without apart)).exportsName m name = (ofProgram p).exportsName m name := by
  rw [Bool.eq_iff_iff]
  unfold exportsName
  simp only [List.any_eq_true, OrderedMap.mem_values, Bool.and_eq_true, beq_iff_eq]
  constructor
  · rintro ⟨f, ⟨key, hf⟩, hname, hexports⟩
    exact ⟨f, ⟨key, (Program.get?_without_eq_some_iff.mp hf).1⟩, hname, hexports⟩
  · rintro ⟨f, ⟨key, hf⟩, hname, hexports⟩
    have hleft := hm key f hf hname
    exact ⟨f, ⟨key, Program.get?_without_eq_some_iff.mpr ⟨hf, hleft⟩⟩, hname, hexports⟩

end Leaves

/-- If the module that an import names is left as it is, the import names the same module. -/
theorem findTarget?_without {importer : FileKey} {d : ImportDecl}
    (h : ∀ target, (ofProgram p).findTarget? importer d = some target → p.Leaves apart target.1) :
    (ofProgram (p.without apart)).findTarget? importer d =
      (ofProgram p).findTarget? importer d := by
  unfold findTarget? at h ⊢
  cases htarget : d.target with
  | module name =>
    rw [htarget] at h
    dsimp only at h ⊢
    have hcontains : (ofProgram (p.without apart)).modules.contains name = true ↔
        (ofProgram p).modules.contains name = true := by
      constructor
      · intro hc
        obtain ⟨key, f, hf, hname⟩ := contains_modules.mp hc
        exact contains_modules.mpr ⟨key, f, (Program.get?_without_eq_some_iff.mp hf).1, hname⟩
      · intro hc
        obtain ⟨key, f, hf, hname⟩ := contains_modules.mp hc
        have hleft := h (name, d.rename) (if_pos hc) key f hf hname
        exact contains_modules.mpr
          ⟨key, f, Program.get?_without_eq_some_iff.mpr ⟨hf, hleft⟩, hname⟩
    simp only [hcontains]
  | file path =>
    rw [htarget] at h
    dsimp only at h ⊢
    -- a file that a path names is left, since its module is
    have hleft : ∀ key, (ofProgram p).findFile? importer path = some key → apart key = false := by
      intro key hkey
      obtain ⟨f, hf⟩ : ∃ f, p.get? key = some f :=
        OrderedMap.mem_keys.mp (mem_keys_of_findFile? hkey)
      refine h (f.moduleName, d.rename <|> FileKey.stem? key) ?_ key f hf rfl
      rw [hkey, Option.bind_eq_bind, Option.bind_some, moduleOf?_ofProgram hf]
      rfl
    have hfind : (ofProgram (p.without apart)).findFile? importer path =
        (ofProgram p).findFile? importer path :=
      findFile?_filter Program.keys_without fun key hkey => by simp [hleft key hkey]
    rw [hfind]
    cases hkey : (ofProgram p).findFile? importer path with
    | none => rfl
    | some key =>
      have hmodule : (ofProgram (p.without apart)).moduleOf? key = (ofProgram p).moduleOf? key :=
        congrArg (Option.map _) (Program.get?_without (hleft key hkey))
      rw [Option.bind_eq_bind, Option.bind_some, Option.bind_some, hmodule]

end ModuleTable

namespace Program.SetApart

variable {p : Program} {apart : FileKey → Bool} (h : p.SetApart apart)
variable {key : FileKey} {f : SourceFile} (hf : p.get? key = some f) (hkey : apart key = false)

include h hf hkey

theorem leaves_target {d : Spanned ImportDecl} (hd : d ∈ f.unit.imports)
    {target : String × Option String}
    (htarget : (ModuleTable.ofProgram p).findTarget? f.path.key d.node = some target) :
    p.Leaves apart target.1 := by
  obtain ⟨i, hi, hname, -⟩ := ModuleGraph.exists_resolved htarget
  rw [← hname]
  exact h.imports key f hf hkey i (ModuleGraph.mem_imports_resolveFile.mpr ⟨d, hd, hi⟩)

/-- The imports of a file that is left resolve as before. -/
theorem resolveFile_without :
    (ModuleTable.ofProgram (p.without apart)).resolveFile f =
      (ModuleTable.ofProgram p).resolveFile f := by
  refine ModuleTable.resolveFile_congr fun d hd => ?_
  refine ModuleTable.resolveImport_congr ?_ fun target htarget name => ?_
  · exact ModuleTable.findTarget?_without fun target ht => h.leaves_target hf hkey hd ht
  · exact ModuleTable.exportsName_without (h.leaves_target hf hkey hd htarget) name

end Program.SetApart

namespace ModuleGraph

/-! ## Graphs with fewer files -/

section Without

variable {p : Program} {apart : FileKey → Bool} (h : p.SetApart apart)

include h

theorem resolvedFiles_without {key : FileKey} (hkey : apart key = false) :
    (resolvedFiles (p.without apart)).get? key = (resolvedFiles p).get? key := by
  unfold resolvedFiles
  rw [OrderedMap.get?_map, OrderedMap.get?_map, Program.get?_without hkey]
  cases hf : p.get? key with
  | none => rfl
  | some f => exact congrArg some (h.resolveFile_without hf hkey)

theorem resolution?_without {key : FileKey} (hkey : apart key = false) (policy : Policy) :
    (build (p.without apart) policy).resolution? key = (build p policy).resolution? key := by
  rw [resolution?_build, resolution?_build, resolvedFiles_without h hkey]

section Edges

variable {key : FileKey} {f : SourceFile} (hf : p.get? key = some f) (hkey : apart key = false)

include hf hkey

/-- A file that is left has the same edges. -/
theorem filter_importEdges_without :
    (importEdges (p.without apart)).filter (·.importer == key) =
      (importEdges p).filter (·.importer == key) := by
  rw [filter_importEdges hf, filter_importEdges (Program.get?_without_eq_some_iff.mpr ⟨hf, hkey⟩),
    h.resolveFile_without hf hkey]
  unfold edgesOf
  refine congrArg List.flatten (List.map_congr_left fun i hi => ?_)
  rw [ModuleTable.filesOf_without (h.imports key f hf hkey i hi)]

theorem dependenciesIn_without :
    dependenciesIn (importEdges (p.without apart)) key = dependenciesIn (importEdges p) key := by
  unfold dependenciesIn
  rw [filter_importEdges_without h hf hkey]

end Edges

/-- Files that are left import only such files. -/
theorem apart_of_imports {u v : FileKey} (hu : apart u = false) (huv : p.Imports u v) :
    apart v = false := by
  obtain ⟨span, f, hf, d, hd, -, target, htarget, hv, -⟩ := huv
  obtain ⟨f', hf', hname⟩ := ModuleTable.mem_of_mem_filesOf hv
  exact h.leaves_target hf hu hd htarget v f' hf' hname

theorem imports_without {u v : FileKey} (hu : apart u = false) :
    (p.without apart).Imports u v ↔ p.Imports u v := by
  have himports : ∀ q : Program, q.Imports u v ↔
      v ∈ ((importEdges q).filter (·.importer == u)).map (·.target) := by
    intro q
    simp only [List.mem_map, List.mem_filter, beq_iff_eq]
    constructor
    · rintro ⟨span, huv⟩
      exact ⟨⟨u, v, span⟩, ⟨mem_importEdges.mpr huv, rfl⟩, rfl⟩
    · rintro ⟨e, ⟨he, rfl⟩, rfl⟩
      exact ⟨e.span, mem_importEdges.mp he⟩
  constructor
  · intro huv
    obtain ⟨f, hf⟩ : ∃ f, (p.without apart).get? u = some f := by
      obtain ⟨_, f, hf, _⟩ := huv
      exact ⟨f, hf⟩
    rw [himports, filter_importEdges_without h (Program.get?_without_eq_some_iff.mp hf).1 hu,
      ← himports] at huv
    exact huv
  · intro huv
    obtain ⟨f, hf⟩ : ∃ f, p.get? u = some f := by
      obtain ⟨_, f, hf, _⟩ := huv
      exact ⟨f, hf⟩
    rw [himports, filter_importEdges_without h hf hu, ← himports]
    exact huv

/-- The files that are left make up a part of the graph. -/
theorem exists_embeds_without :
    ∃ place, (importGraph (p.without apart)).Embeds (importGraph p) place := by
  unfold importGraph digraph
  rw [Program.keys_without]
  refine Digraph.exists_embeds p.nodup_keys (fun v hv hleft => ?_) fun v hv hleft w hw _ => ?_
  · obtain ⟨f, hf⟩ := OrderedMap.mem_keys.mp hv
    exact dependenciesIn_without h hf (by simpa using hleft)
  · obtain ⟨e, he, rfl, rfl⟩ := mem_dependenciesIn.mp hw
    have hleft' : apart e.importer = false := by simpa using hleft
    simp [apart_of_imports h hleft' ⟨e.span, mem_importEdges.mp he⟩]

/-! ## Cycles -/

theorem mem_files_without {key : FileKey} (hkey : apart key = false) :
    key ∈ Cycle.files (importGraph (p.without apart)) ↔ key ∈ Cycle.files (importGraph p) := by
  rw [mem_files_importGraph, mem_files_importGraph]
  -- no import leads from the files that are left to the others
  have hreach : ∀ v, TransGen p.Imports key v →
      TransGen (p.without apart).Imports key v ∧ apart v = false := by
    intro v hv
    induction hv with
    | single hstep =>
      exact ⟨.single ((imports_without h hkey).mpr hstep), apart_of_imports h hkey hstep⟩
    | tail _ hstep ih =>
      exact ⟨ih.1.tail ((imports_without h ih.2).mpr hstep), apart_of_imports h ih.2 hstep⟩
  refine ⟨TransGen.mono (fun u v huv => ?_) key key, fun hcycle => (hreach key hcycle).1⟩
  obtain ⟨_, f, hf, _⟩ := id huv
  exact (imports_without h (Program.get?_without_eq_some_iff.mp hf).2).mp huv

section Cycles

variable {key : FileKey} {f : SourceFile} (hf : p.get? key = some f) (hkey : apart key = false)

include hf hkey

theorem filter_openCycles_without :
    (openCycles (p.without apart)).filter (fun c => c.getLastD [] == key) =
      (openCycles p).filter fun c => c.getLastD [] == key := by
  obtain ⟨place, hembeds⟩ := exists_embeds_without h
  obtain ⟨i, hi⟩ := exists_place_importGraph
    ⟨f, Program.get?_without_eq_some_iff.mpr ⟨hf, hkey⟩⟩
  exact (Cycle.filter_all_eq hembeds wellFormed_importGraph wellFormed_importGraph
    simple_importGraph simple_importGraph not_edge_self not_edge_self hi).symm

/-- The diagnostics about cycles are the same: their files are left, and so are their imports. -/
theorem map_cycleDiagnostic_without :
    ((openCycles (p.without apart)).filter fun c => c.getLastD [] == key).map
        (fun c => (cycleDiagnostic (p.without apart) (importEdges (p.without apart)) c).2) =
      ((openCycles p).filter fun c => c.getLastD [] == key).map
        fun c => (cycleDiagnostic p (importEdges p) c).2 := by
  rw [← filter_openCycles_without h hf hkey]
  refine List.map_congr_left fun c hc => ?_
  obtain ⟨hc, hlast⟩ := List.mem_filter.mp hc
  obtain ⟨-, -, -, first, rest, rfl⟩ := openCycle_cases hc
  have hpath : ∀ v ∈ first :: rest, listedPath (p.without apart) v = listedPath p v := by
    intro v hv
    obtain ⟨fv, hfv⟩ := get?_of_mem_openCycles hc hv
    unfold listedPath
    rw [Program.get?_without (Program.get?_without_eq_some_iff.mp hfv).2]
  have hpaths : (first :: rest ++ [first]).map (listedPath (p.without apart)) =
      (first :: rest ++ [first]).map (listedPath p) := by
    refine List.map_congr_left fun v hv => hpath v ?_
    rcases List.mem_append.mp hv with hv | hv
    · exact hv
    · exact List.mem_singleton.mp hv ▸ List.mem_cons_self
  have hself : listedPath (p.without apart) key = listedPath p key := by
    unfold listedPath
    rw [Program.get?_without hkey]
  unfold cycleDiagnostic
  dsimp only
  rw [List.headD_cons, hpaths, beq_iff_eq.mp hlast, hself,
    edgeSpan_congr (filter_importEdges_without h hf hkey)]

end Cycles

/-! ## Conflicts -/

/-- A module of which all files are left has the same conflicts. -/
theorem conflictsOf_without {m : String} (hm : p.Leaves apart m) (policy : Policy) :
    conflictsOf (p.without apart) policy (Cycle.files (importGraph (p.without apart))) m =
      conflictsOf p policy (Cycle.files (importGraph p)) m := by
  have hdeclaring : declaring (p.without apart) m = declaring p m := by
    refine congrArg _ (ModuleTable.entries_filter_without fun key f hf htest => ?_)
    exact hm key f hf (ModuleTable.moduleName_of_declared (beq_iff_eq.mp htest))
  have hhalted : conflictsIn policy m (Cycle.files (importGraph (p.without apart)))
      (declaring p m) =
      conflictsIn policy m (Cycle.files (importGraph p)) (declaring p m) := by
    refine conflictsIn_congr fun e he => mem_files_without h ?_
    obtain ⟨f, hf, hd⟩ := of_mem_declaring he
    exact hm e.1 f hf (ModuleTable.moduleName_of_declared hd)
  unfold conflictsOf
  rw [hdeclaring, hhalted]

variable {key : FileKey} (hkey : apart key = false)

include hkey

theorem filter_moduleConflicts_without {f : SourceFile} (hf : p.get? key = some f)
    (policy : Policy) :
    (moduleConflicts (p.without apart) policy).filter (·.1 == key) =
      (moduleConflicts p policy).filter (·.1 == key) := by
  unfold moduleConflicts
  rw [filter_conflicts hf, filter_conflicts (Program.get?_without_eq_some_iff.mpr ⟨hf, hkey⟩)]
  cases hd : f.unit.declaredModule? with
  | none => rw [Option.map_none, Option.map_none]
  | some m =>
    have hm : p.Leaves apart m :=
      ModuleTable.moduleName_of_declared hd ▸ h.modules key f hf hkey
    rw [Option.map_some, Option.map_some, Option.getD_some, Option.getD_some,
      conflictsOf_without h hm]

/-- **A file that is left is halted as before.** -/
theorem isHalted_without (policy : Policy) :
    (build (p.without apart) policy).isHalted key = (build p policy).isHalted key := by
  have hconflict : ∀ l : List (FileKey × List Diagnostic),
      key ∈ l.map (·.1) ↔ l.filter (·.1 == key) ≠ [] := by
    intro l
    simp [List.filter_eq_nil_iff]
  rw [Bool.eq_iff_iff, isHalted_build, isHalted_build, ← mem_files_importGraph,
    ← mem_files_importGraph, mem_files_without h hkey, hconflict, hconflict]
  cases hf : p.get? key with
  | some f => rw [filter_moduleConflicts_without h hkey hf]
  | none =>
    -- a file that is not in the program has no conflicts
    have hnone : ∀ q : Program, q.get? key = none →
        (moduleConflicts q policy).filter (·.1 == key) = [] := by
      intro q hq
      refine List.filter_eq_nil_iff.mpr fun e he hek => ?_
      obtain ⟨f, hf, -⟩ := (of_mem_moduleConflicts he).1
      rw [beq_iff_eq.mp hek, hq] at hf
      cases hf
    rw [hnone p hf, hnone (p.without apart) ((Program.get?_without hkey).trans hf)]

/-- **A file that is left has the same diagnostics about modules.** -/
theorem diagnosticsOf_without {f : SourceFile} (hf : p.get? key = some f) (policy : Policy) :
    (build (p.without apart) policy).diagnosticsOf key = (build p policy).diagnosticsOf key := by
  rw [diagnosticsOf_build, diagnosticsOf_build, resolvedFiles_without h hkey,
    map_cycleDiagnostic_without h hf hkey, filter_moduleConflicts_without h hkey hf]

end Without

end ModuleGraph

end EffectAudit
