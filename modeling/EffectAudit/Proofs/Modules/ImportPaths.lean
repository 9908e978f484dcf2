import EffectAudit.Modules.Resolution
import EffectAudit.Proofs.Path

/-!
# Imports by relative paths

A relative import path is seen from the directory of the importing file, and the result is
normalized. So it does not matter how the directory is spelled. There is one exception: the
extension that an import may leave out is added to the last name before normalization. Where an
imported path has no component but `.`, the last component is that of the directory, and `..` takes
no extension where a name would.

## Main definitions

* `FileKey.directory`: what import paths are relative to
* `candidatesFrom`: the files that a path may name, with or without extension

## Main results

* `importCandidates_congr`: what the candidates of a relative import depend on
* `normalized_paths_compositional`: normalized paths, joined paths and relative imports
* `dot_import_depends_on_spelling`: the exception
-/

namespace EffectAudit

open FileKey

/-- The directory of a file. -/
def FileKey.directory (key : FileKey) : FileKey := (parent? key).getD []

/-- The files that a path may name, in order of preference: the path, and if it has no extension the
path with the extension of source files. -/
def candidatesFrom (base : FileKey) : List FileKey :=
  normalize base ::
    (if (extension? base).isNone then [normalize (addExtension base sourceExtension)] else [])

theorem importCandidates_eq (importer : FileKey) (target : String) :
    importCandidates importer target =
      candidatesFrom (join importer.directory (Path.key ⟨target⟩)) :=
  rfl

/-! ## Last components -/

theorem fileName?_concat_name (key : FileKey) (text : String) :
    fileName? (key ++ [.name text]) = some text.toList := by
  unfold fileName?
  rw [List.getLast?_concat]

theorem fileName?_concat_of_ne (key : FileKey) {c : Component} (hc : ∀ text, c ≠ .name text) :
    fileName? (key ++ [c]) = none := by
  unfold fileName?
  rw [List.getLast?_concat]
  cases c with
  | name text => exact absurd rfl (hc text)
  | root => rfl
  | here => rfl
  | up => rfl

theorem exists_concat_of_fileName? {key : FileKey} (h : fileName? key ≠ none) :
    ∃ dir text, key = dir ++ [.name text] := by
  rcases key.eq_nil_or_concat' with rfl | ⟨dir, c, rfl⟩
  · exact absurd rfl h
  · by_cases hc : ∃ text, c = .name text
    · obtain ⟨text, rfl⟩ := hc
      exact ⟨dir, text, rfl⟩
    · exact absurd (fileName?_concat_of_ne dir (not_exists.mp hc)) h

theorem candidatesFrom_of_no_name {base : FileKey} (h : fileName? base = none) :
    candidatesFrom base = [normalize base, normalize base] := by
  simp [candidatesFrom, extension?, addExtension, h]

/-- The candidates of a path that ends in a name depend on the name and on what normalization makes
of the rest. -/
theorem candidatesFrom_concat_name (dir : FileKey) (text : String) :
    candidatesFrom (dir ++ [.name text]) = (normalize dir ++ [.name text]) ::
      if (splitName text.toList).2.isNone then
        [normalize dir ++ [.name (String.ofList text.toList ++ "." ++ sourceExtension)]]
      else [] := by
  simp [candidatesFrom, extension?, addExtension, fileName?_concat_name, normalize_concat_name]

/-- A relative path seen from a directory: the components that count, behind something that is the
directory or like it. -/
theorem exists_join_eq {target : Path} (htarget : isAbsolute target.key = false) (dir : FileKey) :
    ∃ front, join dir target.key = front ++ target.key.filter (· ≠ .here) ∧
      normalize front = normalize dir ∧ fileName? front = fileName? dir := by
  cases dir with
  | cons c rest =>
    exact ⟨c :: rest, by rw [join, if_neg (by simp [htarget])], rfl, rfl⟩
  | nil =>
    have hjoin : join [] target.key = target.key := by simp [join]
    have htail := fun c hc => (target.ne_of_mem_tail_key (c := c) hc).2
    rw [hjoin]
    cases hkey : target.key with
    | nil => exact ⟨[], rfl, rfl, rfl⟩
    | cons c rest =>
      rw [hkey] at htail
      have hrest : rest.filter (· ≠ .here) = rest :=
        List.filter_eq_self.mpr fun d hd => decide_eq_true (htail d hd)
      by_cases hc : c = .here
      · subst hc
        refine ⟨[.here], ?_, rfl, rfl⟩
        rw [List.filter_cons_of_neg (by simp), hrest]
        rfl
      · refine ⟨[], ?_, rfl, rfl⟩
        rw [List.filter_cons_of_pos (by simpa using hc), hrest]
        rfl

/-! ## What relative imports depend on -/

section Relative

variable {importer importer' : FileKey} {target : String}
  (htarget : isAbsolute (Path.key ⟨target⟩) = false)
  (hdir : normalize importer.directory = normalize importer'.directory)

include htarget hdir

/-- The path that a relative import stands for depends on the normalized directory. -/
theorem head?_importCandidates_congr :
    (importCandidates importer target).head? = (importCandidates importer' target).head? := by
  rw [importCandidates_eq, importCandidates_eq]
  unfold candidatesFrom
  rw [List.head?_cons, List.head?_cons, normalize_join htarget, hdir, ← normalize_join htarget]

/-- So do all candidates, if the import path has a component besides `.`, or if the two directories
are alike in that they end in a name or do not. -/
theorem importCandidates_congr (hlast : (∃ c ∈ Path.key ⟨target⟩, c ≠ .here) ∨
      (fileName? importer.directory = none ↔ fileName? importer'.directory = none)) :
    importCandidates importer target = importCandidates importer' target := by
  obtain ⟨front, hjoin, hfront, hname⟩ := exists_join_eq htarget importer.directory
  obtain ⟨front', hjoin', hfront', hname'⟩ := exists_join_eq htarget importer'.directory
  rw [importCandidates_eq, importCandidates_eq, hjoin, hjoin']
  have heq : normalize front = normalize front' := hfront.trans (hdir.trans hfront'.symm)
  rcases List.eq_nil_or_concat' ((Path.key ⟨target⟩).filter (· ≠ .here)) with
    hnil | ⟨rest, c, hrest⟩
  · -- the directories are all there is, and both end in a name or neither does
    have hnone : fileName? front = none ↔ fileName? front' = none := by
      rw [hname, hname']
      refine hlast.resolve_left fun ⟨c, hc, hne⟩ => ?_
      exact List.filter_eq_nil_iff.mp hnil c hc (decide_eq_true hne)
    rw [hnil, List.append_nil, List.append_nil]
    by_cases hf : fileName? front = none
    · rw [candidatesFrom_of_no_name hf, candidatesFrom_of_no_name (hnone.mp hf), heq]
    · obtain ⟨dir, text, rfl⟩ := exists_concat_of_fileName? hf
      obtain ⟨dir', text', rfl⟩ := exists_concat_of_fileName? (mt hnone.mpr hf)
      rw [normalize_concat_name, normalize_concat_name] at heq
      obtain ⟨hdirs, htexts⟩ := List.append_inj' heq rfl
      rw [candidatesFrom_concat_name, candidatesFrom_concat_name, hdirs,
        Component.name.inj (List.singleton_inj.mp htexts)]
  · have hbase := normalize_append_congr heq rest
    rw [hrest, ← List.append_assoc, ← List.append_assoc]
    by_cases hc : ∃ text, c = .name text
    · obtain ⟨text, rfl⟩ := hc
      rw [candidatesFrom_concat_name, candidatesFrom_concat_name, hbase]
    · have hno := fun key => fileName?_concat_of_ne key (not_exists.mp hc)
      rw [candidatesFrom_of_no_name (hno _), candidatesFrom_of_no_name (hno _),
        normalize_append_congr hbase]

end Relative

/-- **Normalized paths.** Normalization leaves no `.`, and `..` only before the first name, directly
behind the root if there is one; a path and its normalized form are absolute or both are not; and
normalizing again changes nothing. A relative path joined to a path and one joined to its normalized
form have the same normalized form. So the path that a relative import stands for is the same for
all files whose directories have the same normalized form. It names the same file for them if it has
a component besides `.`, or if the directories, as they are spelled, both end in a name or both do
not. -/
theorem normalized_paths_compositional (p : Path) :
    let n := normalize p.key
    (.here ∉ n ∧ (∃ ups names, n = normalForm (isAbsolute p.key) ups names) ∧
      isAbsolute n = isAbsolute p.key ∧ normalize n = n) ∧
    (∀ q : Path, isAbsolute q.key = false →
      normalize (join p.key q.key) = normalize (join n q.key)) ∧
    ∀ (p' : Path) (target : String), isAbsolute (Path.key ⟨target⟩) = false →
      normalize p.key.directory = normalize p'.key.directory →
      (importCandidates p.key target).head? = (importCandidates p'.key target).head? ∧
      ((∃ c ∈ Path.key ⟨target⟩, c ≠ .here) ∨
          (fileName? p.key.directory = none ↔ fileName? p'.key.directory = none) →
        ∀ t : ModuleTable, t.findFile? p.key target = t.findFile? p'.key target) := by
  intro n
  obtain ⟨ups, names, hform⟩ : ∃ ups names, n = normalForm (isAbsolute p.key) ups names :=
    p.exists_normalForm
  refine ⟨⟨?_, ⟨ups, names, hform⟩, ?_, normalize_normalize p.key⟩, fun q => normalize_join,
    fun p' target htarget hdir => ⟨head?_importCandidates_congr htarget hdir, fun hlast t => ?_⟩⟩
  · rw [hform]
    exact here_not_mem_normalForm _ ups names
  · rw [hform]
    exact isAbsolute_normalForm _ ups names
  · unfold ModuleTable.findFile?
    rw [importCandidates_congr htarget hdir hlast]

/-- The modules of a program with the given files, which are empty. -/
def tableOf (paths : List String) : ModuleTable :=
  .ofProgram (.ofUnits (paths.map fun text => { path := ⟨text⟩ }))

theorem detour_names_same_file :
    let plain : Path := ⟨"/../lib/main.cdz"⟩
    let detour : Path := ⟨"/../lib/./sub/../main.cdz"⟩
    let t := tableOf ["/../util.cdz", "/../lib/util.cdz"]
    normalize detour.key = plain.key ∧ isAbsolute (normalize detour.key) = true ∧
    normalize detour.key.directory = normalize plain.key.directory ∧
    normalize (join detour.key (Path.key ⟨"./../util"⟩)) =
      normalize (join (normalize detour.key) (Path.key ⟨"./../util"⟩)) ∧
    t.findFile? detour.key "../util" = some (Path.key ⟨"/../util.cdz"⟩) := by
  intro plain detour t
  obtain ⟨⟨-, -, habs, -⟩, hjoin, himport⟩ := normalized_paths_compositional detour
  have hdir : normalize detour.key.directory = normalize plain.key.directory := by decide +kernel
  have hfind := (himport plain "../util" (by decide +kernel) hdir).2
    (.inl ⟨.up, by decide +kernel, by decide⟩) t
  refine ⟨by decide +kernel, habs.trans (by decide +kernel), hdir,
    hjoin ⟨"./../util"⟩ (by decide +kernel), hfind.trans ?_⟩
  decide +kernel

/-- Two files in the same directory import `.`, which names a file for the one and nothing for the
other, because the directory of the other is spelled with `..` at its end. -/
theorem dot_import_depends_on_spelling :
    let plain : Path := ⟨"lib/main.cdz"⟩
    let detour : Path := ⟨"lib/sub/../main.cdz"⟩
    let t := tableOf ["lib.cdz", plain.text, detour.text]
    normalize plain.key.directory = normalize detour.key.directory ∧
    isAbsolute (Path.key ⟨"."⟩) = false ∧
    t.findFile? plain.key "." = some (Path.key ⟨"lib.cdz"⟩) ∧
      t.findFile? detour.key "." = none := by
  decide +kernel

end EffectAudit
