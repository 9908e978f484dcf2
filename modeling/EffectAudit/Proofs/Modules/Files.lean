import EffectAudit.Modules.Resolution
import EffectAudit.Proofs.OrderedMap

/-!
# Files and their modules

Programs whose files are listed under their own names, sets of such files, and which files make up
which modules. If no implied module name is declared elsewhere, the files of a module are all those
that say or imply its name.

## Main definitions

* `Program.WellListed`: files are listed under the paths that they have
* `Program.Lists`: a set of files of a program, as they are listed
* `Program.Keyed`: files have paths of their own identity
* `Program.Hidden`: a file implies a module name that another one declares
* `Program.Unhidden`: no file is hidden

## Main results

* `FileSet.contains_addAll`, `FileSet.of_get?_addAll`: the members of a set of files
* `ModuleTable.mem_filesOf_own_iff`: files that are not hidden are files of their modules
* `ModuleTable.filesOf_of_unhidden`: the files of a module
-/

namespace EffectAudit

/-! ## Sets of files -/

namespace FileSet

theorem get?_add (s : FileSet) (p : Path) (key : FileKey) :
    (s.add p).get? key = if s.contains p.key = false ∧ key = p.key then some p else s.get? key := by
  unfold add
  by_cases hc : s.contains p.key = true
  · rw [if_pos hc, if_neg (by simp [hc])]
  · rw [if_neg hc]
    by_cases hk : key = p.key
    · subst hk
      rw [if_pos ⟨by simpa using hc, rfl⟩, OrderedMap.get?_insert_self]
    · rw [if_neg fun h => hk h.2, OrderedMap.get?_insert_of_ne hk]

theorem contains_add {s : FileSet} {p : Path} {key : FileKey} :
    (s.add p).contains key = true ↔ s.contains key = true ∨ p.key = key := by
  unfold OrderedMap.contains
  rw [get?_add]
  split
  · rename_i h
    exact ⟨fun _ => .inr h.2.symm, fun _ => rfl⟩
  · rename_i h
    refine ⟨.inl, ?_⟩
    rintro (hs | rfl)
    · exact hs
    · by_contra hn
      exact h ⟨by simpa [OrderedMap.contains] using hn, rfl⟩

theorem contains_addAll {s : FileSet} {ps : List Path} {key : FileKey} :
    (s.addAll ps).contains key = true ↔ s.contains key = true ∨ ∃ p ∈ ps, p.key = key := by
  induction ps generalizing s with
  | nil => simp [addAll]
  | cons p rest ih =>
    have hstep : s.addAll (p :: rest) = (s.add p).addAll rest := rfl
    rw [hstep, ih, contains_add, List.exists_mem_cons_iff, or_assoc]

/-- A file is in a set by the path that it was first given by. -/
theorem of_get?_addAll {s : FileSet} {ps : List Path} {key : FileKey} {p : Path}
    (h : (s.addAll ps).get? key = some p) : s.get? key = some p ∨ p ∈ ps ∧ p.key = key := by
  induction ps generalizing s with
  | nil => exact .inl h
  | cons q rest ih =>
    rcases ih (s := s.add q) h with h | ⟨hp, hk⟩
    · rw [get?_add] at h
      split at h
      · rename_i hq
        cases h
        exact .inr ⟨List.mem_cons_self, hq.2.symm⟩
      · exact .inl h
    · exact .inr ⟨List.mem_cons_of_mem _ hp, hk⟩

end FileSet

/-! ## Programs -/

namespace Program

/-- Files are listed under the paths that they have. -/
def WellListed (p : Program) : Prop :=
  ∀ key f, p.get? key = some f → f.path.key = key ∧ f.unit.path = f.path

/-- All files of a set are in the program and listed by the same paths. -/
def Lists (p : Program) (files : FileSet) : Prop :=
  ∀ key path, files.get? key = some path → ∃ f, p.get? key = some f ∧ f.path = path

/-- Every file has a path of its own identity, however it is spelled. -/
def Keyed (p : Program) : Prop := ∀ key f, p.get? key = some f → f.unit.path.key = key

/-- A file declares a module. -/
def DeclaresModule (p : Program) (m : String) (key : FileKey) : Prop :=
  ∃ f, p.get? key = some f ∧ f.unit.declaredModule? = some m

/-- A file is hidden: it declares no module, and some file declares the module name that it
implies. -/
def Hidden (p : Program) (key : FileKey) : Prop :=
  ∃ f, p.get? key = some f ∧ f.unit.declaredModule? = none ∧
    ∃ other, p.DeclaresModule f.path.impliedModule other

/-- No file without a module declaration implies a module name that another file declares. -/
def Unhidden (p : Program) : Prop :=
  ∀ key f key' f', p.get? key = some f → p.get? key' = some f' → f.unit.declaredModule? = none →
    f'.unit.declaredModule? ≠ some f.path.impliedModule

theorem WellListed.unit_key {p : Program} (hp : p.WellListed) {key : FileKey} {f : SourceFile}
    (hf : p.get? key = some f) : f.unit.path.key = key := by
  obtain ⟨hkey, hunit⟩ := hp key f hf
  rw [hunit, hkey]

theorem WellListed.keyed {p : Program} (hp : p.WellListed) : p.Keyed :=
  fun _ _ hf => hp.unit_key hf

/-- Edits keep files under their identities, even those that spell the path of a file anew. -/
theorem Keyed.update {p : Program} (hp : p.Keyed) (path : Path) (unit : SourceUnit) :
    (p.update path unit).Keyed := by
  intro key f hf
  unfold Program.update at hf
  rw [OrderedMap.get?_insert] at hf
  split at hf
  · rename_i hkey
    cases hf
    exact (Std.LawfulEqOrd.eq_of_compare hkey).symm
  · exact hp key f hf

theorem wellListed_empty : WellListed ∅ := fun _ _ h => nomatch h

theorem wellListed_ofUnits (units : List SourceUnit) : (ofUnits units).WellListed := by
  intro key f h
  obtain ⟨u, -, he⟩ := List.mem_map.mp (OrderedMap.mem_of_get?_ofList h)
  cases he
  exact ⟨rfl, rfl⟩

theorem mem_of_get?_ofUnits {units : List SourceUnit} {key : FileKey} {f : SourceFile}
    (h : (ofUnits units).get? key = some f) : f.unit ∈ units := by
  obtain ⟨u, hu, he⟩ := List.mem_map.mp (OrderedMap.mem_of_get?_ofList h)
  cases he
  exact hu

/-- The files that pass a test do not depend on the others. -/
theorem get?_ofUnits_filter {units : List SourceUnit} (keep : FileKey → Bool) {key : FileKey}
    (hkey : keep key = true) :
    (ofUnits (units.filter fun u => keep u.path.key)).get? key = (ofUnits units).get? key := by
  have h : ∀ m m' : Program, m.get? key = m'.get? key →
      (m.insertAll ((units.filter fun u => keep u.path.key).map
        fun u => (u.path.key, ⟨u.path, u⟩))).get? key =
      (m'.insertAll (units.map fun u => (u.path.key, ⟨u.path, u⟩))).get? key := by
    induction units with
    | nil => exact fun m m' h => h
    | cons u rest ih =>
      intro m m' h
      -- the files that are left out on one side have other keys
      by_cases hu : keep u.path.key = true
      · rw [List.filter_cons_of_pos (by exact hu)]
        refine ih (m.insert u.path.key ⟨u.path, u⟩) (m'.insert u.path.key ⟨u.path, u⟩) ?_
        rw [OrderedMap.get?_insert, OrderedMap.get?_insert, h]
      · rw [List.filter_cons_of_neg (by exact hu)]
        have hne : key ≠ u.path.key := fun he => hu (he ▸ hkey)
        refine ih m (m'.insert u.path.key ⟨u.path, u⟩) ?_
        rw [OrderedMap.get?_insert_of_ne hne, h]
  exact h ∅ ∅ rfl

/-- Of files with one identity the last counts. -/
theorem get?_ofUnits_append_cons {before after : List SourceUnit} {u : SourceUnit}
    (h : ∀ v ∈ after, v.path.key ≠ u.path.key) :
    (ofUnits (before ++ u :: after)).get? u.path.key = some ⟨u.path, u⟩ := by
  have hafter : ∀ e ∈ after.map fun v => (v.path.key, (⟨v.path, v⟩ : SourceFile)),
      e.1 ≠ u.path.key := by
    intro e he
    obtain ⟨v, hv, rfl⟩ := List.mem_map.mp he
    exact h v hv
  unfold ofUnits
  rw [List.map_append, List.map_cons, OrderedMap.ofList_eq]
  unfold OrderedMap.insertAll
  rw [List.foldl_append, List.foldl_cons]
  exact (OrderedMap.get?_insertAll_of_not_mem hafter).trans OrderedMap.get?_insert_self

/-- A file that was not in a program, or was listed by the given path, is listed by it. -/
theorem get?_update {p : Program} {path : Path} (unit : SourceUnit)
    (h : ∀ f, p.get? path.key = some f → f.path = path) (key : FileKey) :
    (p.update path unit).get? key =
      if key = path.key then some ⟨path, { unit with path }⟩ else p.get? key := by
  have hlisted : ((p.get? path.key).map (·.path)).getD path = path := by
    cases hf : p.get? path.key with
    | none => rfl
    | some f => exact h f hf
  unfold update
  by_cases hk : key = path.key
  · subst hk
    rw [if_pos rfl, OrderedMap.get?_insert_self, hlisted]
  · rw [if_neg hk, OrderedMap.get?_insert_of_ne hk]

theorem WellListed.update {p : Program} (hp : p.WellListed) {path : Path} (unit : SourceUnit)
    (h : ∀ f, p.get? path.key = some f → f.path = path) : (p.update path unit).WellListed := by
  intro key f hf
  rw [get?_update unit h] at hf
  split at hf
  · rename_i hk
    cases hf
    exact ⟨hk.symm, rfl⟩
  · exact hp key f hf

theorem lists_files (p : Program) : p.Lists p.files := by
  intro key path h
  unfold files at h
  rw [OrderedMap.get?_map, Option.map_eq_some_iff] at h
  exact h

theorem contains_files {p : Program} {key : FileKey} :
    p.files.contains key = true ↔ ∃ f, p.get? key = some f := by
  rw [OrderedMap.contains_iff]
  unfold files
  rw [OrderedMap.get?_map]
  cases p.get? key <;> simp

end Program

/-! ## Modules -/

namespace ModuleTable

/-- The files of a program that pass a test. -/
def filesWhere (p : Program) (test : SourceFile → Bool) : List FileKey :=
  (p.entries.filter fun e => test e.2).map (·.1)

theorem mem_filesWhere {p : Program} {test : SourceFile → Bool} {key : FileKey} :
    key ∈ filesWhere p test ↔ ∃ f, p.get? key = some f ∧ test f = true := by
  unfold filesWhere
  simp only [List.mem_map, List.mem_filter, Prod.exists, OrderedMap.mem_entries_iff]
  constructor
  · rintro ⟨k, f, ⟨hf, ht⟩, rfl⟩
    exact ⟨f, hf, ht⟩
  · rintro ⟨f, hf, ht⟩
    exact ⟨key, f, ⟨hf, ht⟩, rfl⟩

theorem filesWhere_congr {p : Program} {test test' : SourceFile → Bool}
    (h : ∀ key f, p.get? key = some f → test f = test' f) :
    filesWhere p test = filesWhere p test' := by
  unfold filesWhere
  refine congrArg _ (List.filter_congr fun e he => ?_)
  exact h e.1 e.2 (OrderedMap.mem_entries_iff.mp he)

/-- Adding files one by one appends them to their modules. -/
theorem get?_foldl_addFile (l : List (FileKey × SourceFile))
    (m : OrderedMap String (List FileKey)) (name : String) :
    (l.foldl (fun m e => addFile m e.2.moduleName e.1) m).get? name =
      match (l.filter fun e => e.2.moduleName == name).map (·.1) with
      | [] => m.get? name
      | keys => some ((m.get? name).getD [] ++ keys) := by
  induction l generalizing m with
  | nil => rfl
  | cons e rest ih =>
    rw [List.foldl_cons, ih]
    unfold addFile
    by_cases hn : e.2.moduleName = name
    · subst hn
      simp only [List.filter_cons, beq_self_eq_true, if_true, List.map_cons]
      rw [OrderedMap.get?_insert_self]
      cases (rest.filter fun e' => e'.2.moduleName == e.2.moduleName).map (·.1) with
      | nil => rfl
      | cons k ks => simp
    · rw [OrderedMap.get?_insert_of_ne (Ne.symm hn)]
      simp [hn]

theorem getD_group (p : Program) (test : SourceFile → Bool) (name : String) :
    ((group p test).get? name).getD [] =
      filesWhere p fun f => test f && f.moduleName == name := by
  unfold group filesWhere
  rw [get?_foldl_addFile, List.filter_filter]
  simp only [Bool.and_comm]
  generalize (p.entries.filter fun e => test e.2 && e.2.moduleName == name).map (·.1) = keys
  cases keys <;> rfl

theorem get?_group_eq_none {p : Program} {test : SourceFile → Bool} {name : String} :
    (group p test).get? name = none ↔
      filesWhere p (fun f => test f && f.moduleName == name) = [] := by
  unfold group filesWhere
  rw [get?_foldl_addFile, List.filter_filter]
  simp only [Bool.and_comm]
  generalize (p.entries.filter fun e => test e.2 && e.2.moduleName == name).map (·.1) = keys
  cases keys with
  | nil => exact ⟨fun _ => rfl, fun _ => rfl⟩
  | cons k ks => simp

/-- Entries that are added only where there is none fill in what is missing. -/
theorem get?_foldl_insertNew {α : Type} (l : List (String × α)) (m : OrderedMap String α)
    (k : String) :
    (l.foldl (fun m e => if m.contains e.1 then m else m.insert e.1 e.2) m).get? k =
      (m.get? k).or (OrderedMap.lookup k l) := by
  induction l generalizing m with
  | nil => simp [OrderedMap.lookup]
  | cons e rest ih =>
    obtain ⟨k', a⟩ := e
    rw [List.foldl_cons, ih]
    -- an entry that is there already is not replaced
    by_cases hc : m.contains k' = true
    · obtain ⟨b, hb⟩ := OrderedMap.contains_iff.mp hc
      rw [if_pos hc]
      by_cases hk : k = k'
      · subst hk
        rw [hb]
        rfl
      · have hne : compare k k' ≠ .eq := fun h => hk (Std.LawfulEqOrd.eq_of_compare h)
        simp only [OrderedMap.lookup, if_neg hne]
    · rw [if_neg hc]
      have hnone : m.get? k' = none := by simpa [OrderedMap.contains] using hc
      by_cases hk : k = k'
      · subst hk
        rw [OrderedMap.get?_insert_self, hnone]
        simp [OrderedMap.lookup]
      · have hne : compare k k' ≠ .eq := fun h => hk (Std.LawfulEqOrd.eq_of_compare h)
        rw [OrderedMap.get?_insert_of_ne hk]
        simp only [OrderedMap.lookup, if_neg hne]

/-- A declared module takes the place of one that is only implied. -/
theorem get?_modules (p : Program) (name : String) :
    (ofProgram p).modules.get? name =
      ((group p fun f => f.unit.declaredModule?.isSome).get? name).or
        ((group p fun f => f.unit.declaredModule?.isNone).get? name) :=
  get?_foldl_insertNew _ _ name

/-- The files that declare a module are its files; if there are none, those that imply it. -/
theorem filesOf_ofProgram (p : Program) (name : String) :
    (ofProgram p).filesOf name =
      if filesWhere p (fun f => f.unit.declaredModule?.isSome && f.moduleName == name) = [] then
        filesWhere p fun f => f.unit.declaredModule?.isNone && f.moduleName == name
      else filesWhere p fun f => f.unit.declaredModule?.isSome && f.moduleName == name := by
  unfold filesOf
  rw [get?_modules, ← getD_group, ← getD_group]
  cases hd : (group p fun f => f.unit.declaredModule?.isSome).get? name with
  | none => simp
  | some keys =>
    -- a module has an entry only if it has files
    have hne : keys ≠ [] := by
      intro hnil
      have := getD_group p (fun f => f.unit.declaredModule?.isSome) name
      rw [hd, hnil] at this
      rw [get?_group_eq_none.mpr this.symm] at hd
      cases hd
    simp [hne]

/-- The files of a module say or imply its name. -/
theorem mem_of_mem_filesOf {p : Program} {name : String} {key : FileKey}
    (h : key ∈ (ofProgram p).filesOf name) :
    ∃ f, p.get? key = some f ∧ f.moduleName = name := by
  rw [filesOf_ofProgram] at h
  split at h <;>
  · obtain ⟨f, hf, ht⟩ := mem_filesWhere.mp h
    rw [Bool.and_eq_true, beq_iff_eq] at ht
    exact ⟨f, hf, ht.2⟩

theorem moduleName_of_declared {f : SourceFile} {m : String} (h : f.unit.declaredModule? = some m) :
    f.moduleName = m := by
  unfold SourceFile.moduleName
  rw [h]
  rfl

theorem moduleName_of_implied {f : SourceFile} (h : f.unit.declaredModule? = none) :
    f.moduleName = f.path.impliedModule := by
  unfold SourceFile.moduleName
  rw [h]
  rfl

/-- The files that are not hidden are files of the modules that they say or imply. -/
theorem mem_filesOf_own_iff {p : Program} {key : FileKey} {f : SourceFile}
    (hf : p.get? key = some f) : key ∈ (ofProgram p).filesOf f.moduleName ↔ ¬ p.Hidden key := by
  have hdeclared : ∀ other, other ∈ filesWhere p (fun f' =>
      f'.unit.declaredModule?.isSome && f'.moduleName == f.moduleName) ↔
      p.DeclaresModule f.moduleName other := by
    intro other
    rw [mem_filesWhere]
    refine exists_congr fun f' => and_congr_right fun _ => ?_
    cases hd : f'.unit.declaredModule? with
    | none => simp
    | some m => simp [moduleName_of_declared hd]
  rw [filesOf_ofProgram]
  cases hd : f.unit.declaredModule? with
  | some m =>
    have hown := (hdeclared key).mpr ⟨f, hf,
      hd.trans (congrArg some (moduleName_of_declared hd).symm)⟩
    rw [if_neg (List.ne_nil_of_mem hown)]
    refine ⟨fun _ => ?_, fun _ => hown⟩
    rintro ⟨f', hf', hnone, -⟩
    cases hf.symm.trans hf'
    rw [hd] at hnone
    cases hnone
  | none =>
    constructor
    · -- if some file declares the name, all files of the module do
      rintro hmem ⟨f', hf', -, other, hother⟩
      cases hf.symm.trans hf'
      rw [← moduleName_of_implied hd, ← hdeclared] at hother
      rw [if_neg (List.ne_nil_of_mem hother), hdeclared] at hmem
      obtain ⟨f', hf', hm⟩ := hmem
      cases hf.symm.trans hf'
      rw [hd] at hm
      cases hm
    · intro hvisible
      have hnone : filesWhere p (fun f' =>
          f'.unit.declaredModule?.isSome && f'.moduleName == f.moduleName) = [] := by
        refine List.eq_nil_iff_forall_not_mem.mpr fun other hother =>
          hvisible ⟨f, hf, hd, other, ?_⟩
        rw [← moduleName_of_implied hd]
        exact (hdeclared other).mp hother
      rw [if_pos hnone]
      exact mem_filesWhere.mpr ⟨f, hf, by simp [hd]⟩

/-- If nothing is hidden, the files of a module are all those that say or imply its name. -/
theorem filesOf_of_unhidden {p : Program} (hp : p.Unhidden) (name : String) :
    (ofProgram p).filesOf name = filesWhere p fun f => f.moduleName == name := by
  rw [filesOf_ofProgram]
  split
  · -- no file declares the module
    rename_i hnone
    refine filesWhere_congr fun key f hf => ?_
    cases hd : f.unit.declaredModule? with
    | none => simp
    | some m =>
      have hne : f.moduleName ≠ name := fun hn => by
        have hm : key ∈ filesWhere p fun f =>
            f.unit.declaredModule?.isSome && f.moduleName == name :=
          mem_filesWhere.mpr ⟨f, hf, by simp [hd, hn]⟩
        rw [hnone] at hm
        exact List.not_mem_nil hm
      simp [hne]
  · -- some file declares it, so no other file may imply it
    rename_i hsome
    obtain ⟨key', hkey'⟩ := List.exists_mem_of_ne_nil _ hsome
    obtain ⟨f', hf', ht'⟩ := mem_filesWhere.mp hkey'
    rw [Bool.and_eq_true, beq_iff_eq, Option.isSome_iff_exists] at ht'
    obtain ⟨⟨m, hm⟩, rfl⟩ := ht'
    refine filesWhere_congr fun key f hf => ?_
    cases hd : f.unit.declaredModule? with
    | some m => simp
    | none =>
      have hne : f.moduleName ≠ f'.moduleName := by
        rw [moduleName_of_implied hd, moduleName_of_declared hm]
        exact fun heq => hp key f key' f' hf hf' hd (hm.trans (congrArg some heq.symm))
      simp [hne]

end ModuleTable

end EffectAudit
