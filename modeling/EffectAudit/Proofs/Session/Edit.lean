import EffectAudit.Proofs.Session.Current

/-!
# Edits of one file

A file that is not bound again after an edit neither sees the module that the edited file was in nor
the one that it is in now, so its calls mean what they meant before. This needs that the file is
among the files of its own module, which it is not if it implies a name that another file declares.

## Main definitions

* `Session.Reopens`: the reasons for which a file is bound again
* `Session.InOwnModule`: a file is not hidden from its own module
* `Session.Replaceable`: a loaded session, and a file that is spelled as the program has it
* `Session.Editable`: a current session and an edit of such a file that hides no module name

## Main results

* `Session.Replaceable.filesOf_eq`: modules that the edited file is not in keep their files
* `Session.Replaceable.agrees`: files that are not bound again keep their scopes
* `Session.Replaceable.freshBinding?_eq`: the binding that they should have is the same
-/

namespace EffectAudit.Session

/-! ## Files that see a module -/

namespace Loaded

variable {s : Session} (h : s.Loaded)

include h

theorem resolution?_eq (key : FileKey) :
    s.graph.resolution? key = (s.program.get? key).map fun f =>
      ((ModuleTable.ofProgram s.program).resolveFile f).1 := by
  rw [h.graph]
  show ((s.program.map fun _ f => (ModuleTable.ofProgram s.program).resolveFile f).map
    fun _ r => r.1).get? key = _
  rw [OrderedMap.get?_map, OrderedMap.get?_map, Option.map_map]
  rfl

omit h in
theorem mem_importersOf_iff {m : String} {key : FileKey} :
    key ∈ s.graph.importersOf m ↔ ∃ r, s.graph.resolution? key = some r ∧ r.mentions m = true := by
  unfold ModuleGraph.importersOf ModuleGraph.resolution?
  simp only [List.mem_map, List.mem_filter, Prod.exists, OrderedMap.mem_entries_iff]
  constructor
  · rintro ⟨k, r, ⟨hr, hm⟩, rfl⟩
    exact ⟨r, hr, hm⟩
  · rintro ⟨r, hr, hm⟩
    exact ⟨key, r, ⟨hr, hm⟩, rfl⟩

theorem exists_file_of_seeing {m : String} {key : FileKey}
    (hk : key ∈ s.graph.filesOf m ++ s.graph.importersOf m) : ∃ f, s.program.get? key = some f := by
  rcases List.mem_append.mp hk with hk | hk
  · rw [h.filesOf_eq] at hk
    obtain ⟨f, hf, -⟩ := ModuleTable.mem_of_mem_filesOf hk
    exact ⟨f, hf⟩
  · obtain ⟨r, hr, -⟩ := mem_importersOf_iff.mp hk
    rw [h.resolution?_eq] at hr
    obtain ⟨f, hf, -⟩ := Option.map_eq_some_iff.mp hr
    exact ⟨f, hf⟩

/-- The files that see a module are files of the program, as they are listed. -/
theorem mem_filesSeeing_iff {m : String} {p : Path} :
    p ∈ s.filesSeeing m ↔ ∃ key ∈ s.graph.filesOf m ++ s.graph.importersOf m,
      ∃ f, s.program.get? key = some f ∧ f.path = p := by
  unfold filesSeeing
  rw [List.mem_map]
  refine exists_congr fun key => and_congr_right fun hk => ?_
  obtain ⟨f, hf⟩ := h.exists_file_of_seeing hk
  unfold ModuleGraph.listedPath
  rw [hf]
  simp

omit h in
theorem mem_filesWhere_iff {test : FileKey → Bool} {p : Path} :
    p ∈ s.filesWhere test ↔
      ∃ key f, s.program.get? key = some f ∧ test key = true ∧ f.path = p := by
  unfold filesWhere
  simp only [List.mem_map, List.mem_filter, Prod.exists, OrderedMap.mem_entries_iff, and_assoc]

/-- If nothing is hidden, a file sees its own module. -/
theorem mem_filesOf_self (hu : s.program.Unhidden) {key : FileKey} {f : SourceFile}
    (hf : s.program.get? key = some f) : key ∈ s.graph.filesOf f.moduleName := by
  rw [h.filesOf_eq, ModuleTable.filesOf_of_unhidden hu]
  exact ModuleTable.mem_filesWhere.mpr ⟨f, hf, beq_self_eq_true _⟩

theorem moduleName_scope {key : FileKey} {f : SourceFile} (hf : s.program.get? key = some f) :
    (s.scope key).moduleName = f.moduleName := by
  unfold Scope.moduleName scope
  dsimp only
  rw [h.moduleOf?_eq, hf]
  rfl

/-- A module that is visible in a file of its own module is seen by the file. -/
theorem seeing_of_sees {key : FileKey} {f : SourceFile} (hf : s.program.get? key = some f)
    (hself : key ∈ s.graph.filesOf f.moduleName) {m : String} (hm : (s.scope key).Sees m) :
    key ∈ s.graph.filesOf m ++ s.graph.importersOf m := by
  rcases hm with rfl | ⟨i, hi, rfl⟩
  · -- its own module
    rw [h.moduleName_scope hf]
    exact List.mem_append_left _ hself
  · -- a module that it imports
    unfold Scope.resolution scope at hi
    dsimp only at hi
    cases hr : s.graph.resolution? key with
    | none =>
      rw [hr] at hi
      exact absurd hi List.not_mem_nil
    | some r =>
      rw [hr] at hi
      refine List.mem_append_right _ (mem_importersOf_iff.mpr ⟨r, hr, ?_⟩)
      unfold ImportResolution.mentions
      rw [Bool.or_eq_true, List.any_eq_true]
      exact .inl ⟨i, hi, beq_self_eq_true _⟩

end Loaded

/-! ## What an edit touches -/

/-- The files that are bound again after an edit. -/
def boundAgain (s : Session) (path : Path) (unit : SourceUnit) : FileSet :=
  s.toBind (s.replaceFile path unit) path

/-- A file is among the files of the module that it declares or implies. -/
def InOwnModule (s : Session) (key : FileKey) : Prop :=
  ∀ f, s.program.get? key = some f → key ∈ s.graph.filesOf f.moduleName

/-- A loaded session, and a file that is given by the path by which it is listed. -/
structure Replaceable (s : Session) (path : Path) : Prop where
  loaded : s.Loaded
  spelled : ∀ f, s.program.get? path.key = some f → f.path = path

/-- A current session and an edit: the edited file is spelled as it is listed, and neither before
nor after the edit a module name is hidden. -/
structure Editable (s : Session) (path : Path) (unit : SourceUnit) : Prop where
  current : s.Current
  spelled : ∀ f, s.program.get? path.key = some f → f.path = path
  unhidden : s.program.Unhidden
  unhidden_update : (s.program.update path unit).Unhidden

/-- The module of the edited file before or after the edit. -/
def Touches (s : Session) (path : Path) (unit : SourceUnit) (m : String) : Prop :=
  m = ((s.replaceFile path unit).graph.moduleOf? path.key).getD "" ∨
    s.graph.moduleOf? path.key = some m

/-- The imports of a file or whether it is halted are different after an edit. -/
def Disturbs (s : Session) (path : Path) (unit : SourceUnit) (key : FileKey) : Prop :=
  s.graph.resolution? key ≠ (s.replaceFile path unit).graph.resolution? key ∨
    s.graph.isHalted key ≠ (s.replaceFile path unit).graph.isHalted key

/-- The reasons for which a file is bound again. -/
inductive Reopens (s : Session) (path : Path) (unit : SourceUnit) : Path → Prop where
  | edited : s.Reopens path unit path
  | before {m p} : s.Touches path unit m → p ∈ s.filesSeeing m → s.Reopens path unit p
  | after {m p} : s.Touches path unit m → p ∈ (s.replaceFile path unit).filesSeeing m →
    s.Reopens path unit p
  | disturbed {key f} : (s.replaceFile path unit).program.get? key = some f →
    s.Disturbs path unit key → s.Reopens path unit f.path

theorem boundAgain_eq (s : Session) (path : Path) (unit : SourceUnit) :
    ∃ ps, s.boundAgain path unit = FileSet.addAll ∅ ps ∧ ∀ p, p ∈ ps ↔ s.Reopens path unit p := by
  refine ⟨_, rfl, fun p => ?_⟩
  rw [List.mem_append, List.mem_append, List.mem_singleton, List.mem_flatMap,
    Loaded.mem_filesWhere_iff]
  constructor
  · rintro ((rfl | ⟨m, hm, hp⟩) | ⟨key, f, hf, ht, rfl⟩)
    · exact .edited
    · have ht : s.Touches path unit m := by
        rcases List.mem_cons.mp hm with rfl | hm
        · exact .inl rfl
        · exact .inr (Option.mem_toList.mp hm)
      rcases List.mem_append.mp hp with hp | hp
      · exact .before ht hp
      · exact .after ht hp
    · rw [Bool.or_eq_true, decide_eq_true_eq, decide_eq_true_eq] at ht
      exact .disturbed hf ht
  · have hmodules : ∀ {m}, s.Touches path unit m →
        m ∈ ((s.replaceFile path unit).graph.moduleOf? path.key).getD "" ::
          (s.graph.moduleOf? path.key).toList := by
      rintro m (rfl | hm)
      · exact List.mem_cons_self
      · exact List.mem_cons_of_mem _ (Option.mem_toList.mpr hm)
    rintro (_ | ⟨ht, hp⟩ | ⟨ht, hp⟩ | ⟨hf, hd⟩)
    · exact .inl (.inl rfl)
    · exact .inl (.inr ⟨_, hmodules ht, List.mem_append_left _ hp⟩)
    · exact .inl (.inr ⟨_, hmodules ht, List.mem_append_right _ hp⟩)
    · refine .inr ⟨_, _, hf, ?_, rfl⟩
      rw [Bool.or_eq_true, decide_eq_true_eq, decide_eq_true_eq]
      exact hd

theorem reopens_of_get? {s : Session} {path : Path} {unit : SourceUnit} {key : FileKey} {p : Path}
    (h : (s.boundAgain path unit).get? key = some p) : s.Reopens path unit p ∧ p.key = key := by
  obtain ⟨ps, hps, hmem⟩ := s.boundAgain_eq path unit
  rw [hps] at h
  rcases FileSet.of_get?_addAll h with h | ⟨hp, hk⟩
  · cases h
  · exact ⟨(hmem p).mp hp, hk⟩

theorem Reopens.contains {s : Session} {path : Path} {unit : SourceUnit} {p : Path}
    (h : s.Reopens path unit p) : (s.boundAgain path unit).contains p.key = true := by
  obtain ⟨ps, hps, hmem⟩ := s.boundAgain_eq path unit
  rw [hps, FileSet.contains_addAll]
  exact .inr ⟨p, (hmem p).mpr h, rfl⟩

section ReplaceFile

variable {s : Session} {path : Path} {unit : SourceUnit}

theorem files_replaceFile : (s.replaceFile path unit).symbols.files =
    s.symbols.files.insert path.key (.ofUnit s.registry
      (((s.replaceFile path unit).graph.moduleOf? path.key).getD "") { unit with path }) :=
  SymbolTable.files_collect _ _ _ _

theorem get?_symbols_replaceFile {key : FileKey} (hk : key ≠ path.key) :
    (s.replaceFile path unit).symbols.files.get? key = s.symbols.files.get? key := by
  rw [files_replaceFile, OrderedMap.get?_insert_of_ne hk]

theorem signaturesIn_replaceFile {key : FileKey} (hk : key ≠ path.key) :
    (s.replaceFile path unit).symbols.signaturesIn key = s.symbols.signaturesIn key :=
  SymbolTable.signaturesIn_congr (get?_symbols_replaceFile hk)

theorem lookup?_replaceFile {f : FunctionRef} (hf : f.file ≠ path.key) :
    (s.replaceFile path unit).symbols.lookup? f = s.symbols.lookup? f :=
  SymbolTable.lookup?_congr (get?_symbols_replaceFile hf)

variable {key : FileKey} (hkey : (s.boundAgain path unit).contains key = false)

include hkey

theorem not_reopens {p : Path} (hp : p.key = key) : ¬ s.Reopens path unit p := by
  intro hr
  rw [← hp, hr.contains] at hkey
  cases hkey

theorem ne_of_not_bound : key ≠ path.key := fun hk => not_reopens hkey hk.symm .edited

end ReplaceFile

namespace Replaceable

variable {s : Session} {path : Path} {unit : SourceUnit} (h : s.Replaceable path)

include h

/-! ## The edited program -/

theorem get?_program (unit : SourceUnit) (key : FileKey) :
    (s.replaceFile path unit).program.get? key =
      if key = path.key then some ⟨path, { unit with path }⟩ else s.program.get? key :=
  Program.get?_update unit h.spelled key

theorem get?_program_of_ne (unit : SourceUnit) {key : FileKey} (hk : key ≠ path.key) :
    (s.replaceFile path unit).program.get? key = s.program.get? key :=
  (h.get?_program unit key).trans (if_neg hk)

/-- No file is lost, and all stay listed by their paths. -/
theorem exists_file (unit : SourceUnit) {key : FileKey} {f : SourceFile}
    (hf : s.program.get? key = some f) :
    ∃ f', (s.replaceFile path unit).program.get? key = some f' ∧ f'.path = f.path := by
  rw [h.get?_program unit]
  by_cases hk : key = path.key
  · subst hk
    exact ⟨_, if_pos rfl, (h.spelled f hf).symm⟩
  · exact ⟨f, (if_neg hk).trans hf, rfl⟩

theorem loaded_replaceFile (unit : SourceUnit) : (s.replaceFile path unit).Loaded where
  listed := h.loaded.listed.update unit h.spelled
  graph := rfl
  symbols key := by
    by_cases hk : key = path.key
    · subst hk
      have hf := h.get?_program unit path.key
      rw [if_pos rfl] at hf
      have hmodule : (s.replaceFile path unit).graph.moduleOf? path.key =
          some (SourceFile.mk path { unit with path }).moduleName := by
        show ((s.replaceFile path unit).program.get? path.key).map (·.moduleName) = _
        rw [hf]
        rfl
      rw [hf, files_replaceFile, OrderedMap.get?_insert_self, hmodule]
      rfl
    · rw [get?_symbols_replaceFile hk, h.get?_program_of_ne unit hk]
      exact h.loaded.symbols key

/-! ## Files that are bound again -/

theorem lists_boundAgain : (s.replaceFile path unit).program.Lists (s.boundAgain path unit) := by
  have hload := h.loaded_replaceFile unit
  intro key p hp
  obtain ⟨hr, rfl⟩ := reopens_of_get? hp
  cases hr with
  | edited => exact ⟨_, (h.get?_program unit path.key).trans (if_pos rfl), rfl⟩
  | before _ hp =>
    obtain ⟨k, -, f, hf, rfl⟩ := h.loaded.mem_filesSeeing_iff.mp hp
    rw [(h.loaded.listed k f hf).1]
    exact h.exists_file unit hf
  | after _ hp =>
    obtain ⟨k, -, f, hf, rfl⟩ := hload.mem_filesSeeing_iff.mp hp
    rw [(hload.listed k f hf).1]
    exact ⟨f, hf, rfl⟩
  | disturbed hf _ =>
    rw [(hload.listed _ _ hf).1]
    exact ⟨_, hf, rfl⟩

/-! ## Modules that the edited file is not in -/

section Module

variable {m : String} (hm : ¬ s.Touches path unit m)

include hm

theorem moduleName_ne {f : SourceFile}
    (hf : (s.replaceFile path unit).program.get? path.key = some f) : f.moduleName ≠ m := by
  rintro rfl
  refine hm (.inl ?_)
  rw [(h.loaded_replaceFile unit).moduleOf?_eq, hf]
  rfl

theorem moduleName_ne_before {f : SourceFile} (hf : s.program.get? path.key = some f) :
    f.moduleName ≠ m := by
  rintro rfl
  refine hm (.inr ?_)
  rw [h.loaded.moduleOf?_eq, hf]
  rfl

theorem filesWhere_eq (test : SourceFile → Bool) :
    ModuleTable.filesWhere (s.replaceFile path unit).program
        (fun f => test f && f.moduleName == m) =
      ModuleTable.filesWhere s.program fun f => test f && f.moduleName == m := by
  unfold ModuleTable.filesWhere
  refine congrArg _ (OrderedMap.entries_filter_congr fun k f ht => ?_)
  have hname : f.moduleName = m := eq_of_beq (Bool.and_eq_true_iff.mp ht).2
  by_cases hk : k = path.key
  · -- the edited file was not in the module and is not in it now
    subst hk
    exact ⟨fun hf => absurd hname (h.moduleName_ne hm hf),
      fun hf => absurd hname (h.moduleName_ne_before hm hf)⟩
  · rw [h.get?_program_of_ne unit hk]

/-- **A module that the edited file is not in keeps its files**, declared or implied. -/
theorem filesOf_eq : (s.replaceFile path unit).graph.filesOf m = s.graph.filesOf m := by
  rw [(h.loaded_replaceFile unit).filesOf_eq, h.loaded.filesOf_eq, ModuleTable.filesOf_ofProgram,
    ModuleTable.filesOf_ofProgram, h.filesWhere_eq hm, h.filesWhere_eq hm]

theorem ne_of_mem_filesOf {k : FileKey} (hk : k ∈ (s.replaceFile path unit).graph.filesOf m) :
    k ≠ path.key := by
  rintro rfl
  rw [(h.loaded_replaceFile unit).filesOf_eq] at hk
  obtain ⟨f, hf, hname⟩ := ModuleTable.mem_of_mem_filesOf hk
  exact h.moduleName_ne hm hf hname

end Module

/-! ## Files that are not bound again -/

section NotBound

variable {key : FileKey} (hkey : (s.boundAgain path unit).contains key = false)

include hkey

theorem not_disturbs {f : SourceFile}
    (hf : (s.replaceFile path unit).program.get? key = some f) : ¬ s.Disturbs path unit key :=
  fun hd => not_reopens hkey ((h.loaded_replaceFile unit).listed key f hf).1 (.disturbed hf hd)

theorem isHalted_eq {f : SourceFile} (hf : (s.replaceFile path unit).program.get? key = some f) :
    (s.replaceFile path unit).graph.isHalted key = s.graph.isHalted key :=
  (not_not.mp (not_or.mp (h.not_disturbs hkey hf)).2).symm

variable {f : SourceFile} (hf : (s.replaceFile path unit).program.get? key = some f)
  (hself : key ∈ (s.replaceFile path unit).graph.filesOf f.moduleName)

include hf hself

/-- A file that is not bound again sees neither the old nor the new module of the edited file. -/
theorem not_touches_of_sees {m : String} (hm : ((s.replaceFile path unit).scope key).Sees m) :
    ¬ s.Touches path unit m := by
  intro ht
  have hload := h.loaded_replaceFile unit
  have hsee := hload.seeing_of_sees hf hself hm
  exact not_reopens hkey (hload.listed key f hf).1
    (.after ht (hload.mem_filesSeeing_iff.mpr ⟨key, hsee, f, hf, rfl⟩))

/-- **Files that are not bound again keep their scopes.** -/
theorem agrees : ((s.replaceFile path unit).scope key).Agrees (s.scope key) where
  registry := rfl
  file := rfl
  moduleName := by
    unfold Scope.moduleName scope
    dsimp only
    rw [(h.loaded_replaceFile unit).moduleOf?_eq, h.loaded.moduleOf?_eq,
      h.get?_program_of_ne unit (ne_of_not_bound hkey)]
  resolution := by
    have hr := (not_or.mp (h.not_disturbs hkey hf)).1
    unfold Scope.resolution scope
    dsimp only
    rw [← not_not.mp hr]
  own name := lookup?_replaceFile (ne_of_not_bound hkey)
  defined m name hm := by
    -- the files of a visible module are as before, and none of them was edited
    have ht := h.not_touches_of_sees hkey hf hself hm
    unfold Scope.defined scope SymbolTable.lookupIn
    dsimp only
    rw [h.filesOf_eq ht]
    refine List.filterMap_congr fun k hk => lookup?_replaceFile ?_
    exact h.ne_of_mem_filesOf ht (by rw [h.filesOf_eq ht]; exact hk)

omit hf hself in
/-- The binding that a file should have is the same, if it is not bound again. -/
theorem freshBinding?_eq (hin : (s.replaceFile path unit).InOwnModule key) :
    (s.replaceFile path unit).freshBinding? key = s.freshBinding? key := by
  have hget := h.get?_program_of_ne unit (ne_of_not_bound hkey)
  refine h.loaded.freshBinding?_congr hget fun f hf => ?_
  have hf' := hget.trans hf
  exact ⟨h.isHalted_eq hkey hf', h.agrees hkey hf' (hin f hf')⟩

end NotBound

end Replaceable

namespace Editable

variable {s : Session} {path : Path} {unit : SourceUnit} (h : s.Editable path unit)

include h

theorem replaceable : s.Replaceable path := ⟨h.current.toLoaded, h.spelled⟩

theorem loaded_replaceFile : (s.replaceFile path unit).Loaded :=
  h.replaceable.loaded_replaceFile unit

theorem inOwnModule (key : FileKey) : (s.replaceFile path unit).InOwnModule key :=
  fun _ hf => h.loaded_replaceFile.mem_filesOf_self h.unhidden_update hf

end Editable

end EffectAudit.Session
