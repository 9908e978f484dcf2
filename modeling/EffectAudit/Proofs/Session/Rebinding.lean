import EffectAudit.Proofs.Session.Incremental

/-!
# Which bindings stay up to date

A file that declares no module implies a module name. If another file declares this name, the module
consists of the files that declare it, and the file is hidden from its own module. Its calls are
still looked up there, but an edit of that module does not count it among the files to bind again.
So the bindings of hidden files may be out of date after edits, and only theirs: whatever steps a
session took, the binding of every other file is the one that its scope gives it now, and every file
has a binding if and only if it is not halted.

## Main definitions

* `Session.Tracked`: what is known of the bindings of all files
* `Session.Reachable`: the sessions that analyses and runs of steps lead to

## Main results

* `Session.Tracked.rebound`: binding files after an edit keeps this
* `Session.tracked_run`: it holds after every step
* `Session.binding?_run`: bindings of files that are not hidden are never out of date
* `Session.exists_stale_binding`: those of hidden files may be
-/

namespace EffectAudit.Session

/-- Modules and symbols are up to date; the files that should have bindings have them, by the right
paths; and bindings of files that are not hidden are up to date. -/
structure Tracked (s : Session) : Prop extends Loaded s where
  paths : ∀ key, (s.bindings.get? key).map (·.1) = (s.freshBinding? key).map (·.1)
  fresh : ∀ key, s.InOwnModule key → s.bindings.get? key = s.freshBinding? key

theorem Bound.tracked {s : Session} (h : s.Bound) : s.Tracked where
  toLoaded := h.toLoaded
  paths key := by rw [h.bindings]
  fresh key _ := h.bindings key

theorem SameProgram.tracked {s t : Session} (h : s.SameProgram t) (ht : t.Tracked) : s.Tracked := by
  have hfresh : ∀ key, s.freshBinding? key = t.freshBinding? key := by
    intro key
    unfold freshBinding?
    rw [h.program, h.graph, h.registry, h.symbols]
  refine ⟨⟨h.program ▸ ht.listed, ?_, fun key => ?_⟩, fun key => ?_, fun key hself => ?_⟩
  · rw [h.graph, h.program, h.policy, ht.graph]
  · rw [h.symbols, h.program, h.registry, ht.symbols]
  · rw [h.bindings, hfresh, ht.paths]
  · rw [h.bindings, hfresh]
    refine ht.fresh key fun f hf => ?_
    rw [← h.graph]
    exact hself f (h.program ▸ hf)

namespace Tracked

variable {s : Session} (hs : s.Tracked) {key : FileKey}

include hs

theorem path_eq {e : Path × FileBinding} {f : SourceFile} (he : s.bindings.get? key = some e)
    (hf : s.program.get? key = some f) : e.1 = f.path := by
  have hpath := hs.paths key
  rw [he] at hpath
  obtain ⟨b, hb, hbe⟩ := Option.map_eq_some_iff.mp hpath.symm
  obtain ⟨f', hf', -, rfl⟩ := Loaded.freshBinding?_eq_some_iff.mp hb
  rw [hf] at hf'
  cases hf'
  exact hbe.symm

/-- Files have bindings unless they are halted. -/
theorem binding?_eq_none_iff {f : SourceFile} (hf : s.program.get? key = some f) :
    s.binding? key = none ↔ s.graph.isHalted key = true := by
  have hnone : s.bindings.get? key = none ↔ s.freshBinding? key = none := by
    have hpath := hs.paths key
    cases hb : s.bindings.get? key <;> cases hfresh : s.freshBinding? key <;> simp_all
  unfold binding?
  rw [Option.map_eq_none_iff, hnone]
  unfold freshBinding?
  rw [hf]
  simp

/-- The binding of a file that is not hidden is the one that its scope gives it. -/
theorem binding?_eq_some {f : SourceFile} (hf : s.program.get? key = some f)
    (hhalt : s.graph.isHalted key = false) (hself : key ∈ s.graph.filesOf f.moduleName) :
    s.binding? key = some (Scope.bindFile s.registry s.symbols s.graph f.unit) := by
  have hin : s.InOwnModule key := by
    intro f' hf'
    rw [hf] at hf'
    cases hf'
    exact hself
  have hfresh := Loaded.freshBinding?_eq_some_iff.mpr ⟨f, hf, hhalt, rfl⟩
  unfold binding?
  rw [hs.fresh key hin, hfresh]
  rfl

end Tracked

/-! ## Edits -/

section Edit

variable {s : Session} {path : Path} {unit : SourceUnit} (h : s.Replaceable path) {key : FileKey}
  (hkey : (s.boundAgain path unit).contains key = false)

include h hkey

/-- An edit that brings a file into its own module binds the file again. -/
theorem Replaceable.inOwnModule (hself : (s.replaceFile path unit).InOwnModule key) :
    s.InOwnModule key := by
  intro f hf
  have hf' := (h.get?_program_of_ne unit (ne_of_not_bound hkey)).trans hf
  -- the edited file neither was nor is in the module, so the module has the same files
  have ht : ¬ s.Touches path unit f.moduleName :=
    h.not_touches_of_sees hkey hf' (hself f hf')
      (.inl ((h.loaded_replaceFile unit).moduleName_scope hf').symm)
  rw [← h.filesOf_eq ht]
  exact hself f hf'

theorem Replaceable.freshBinding?_path_eq :
    ((s.replaceFile path unit).freshBinding? key).map (·.1) =
      (s.freshBinding? key).map (·.1) := by
  have hget := h.get?_program_of_ne unit (ne_of_not_bound hkey)
  unfold freshBinding?
  cases hf : s.program.get? key with
  | none =>
    rw [hget, hf]
    rfl
  | some f =>
    rw [hget, hf, Option.bind_some, Option.bind_some, h.isHalted_eq hkey (hget.trans hf)]
    cases s.graph.isHalted key with
    | true => rfl
    | false => rfl

end Edit

/-- **Binding files again after an edit leaves no binding out of date** but those of hidden
files. -/
theorem Tracked.rebound {s : Session} (hs : s.Tracked) {path : Path} {unit : SourceUnit}
    (h : s.Replaceable path) : (s.rebound path unit).Tracked := by
  have hload := h.loaded_replaceFile unit
  have hframe := rebound_frame s path unit
  have hpaths : ∀ key e f, (s.replaceFile path unit).bindings.get? key = some e →
      (s.replaceFile path unit).program.get? key = some f → e.1 = f.path := by
    intro key e f he hf
    rw [(replaceFile_frame s path unit).1] at he
    cases hold : s.program.get? key with
    | some f' =>
      obtain ⟨f'', hf'', hpath⟩ := h.exists_file unit hold
      rw [hf] at hf''
      cases hf''
      exact (hs.path_eq he hold).trans hpath.symm
    | none =>
      -- a file that was not there had no binding
      have hpath := hs.paths key
      unfold freshBinding? at hpath
      rw [he, hold] at hpath
      cases hpath
  have hlists : (s.replaceFile path unit).program.Lists (s.boundAgain path unit) :=
    h.lists_boundAgain
  have hget := get?_bindings_bind hlists hpaths
  have hfresh := freshBinding?_bind (s.replaceFile path unit) (s.boundAgain path unit)
  refine ⟨⟨?_, ?_, fun key => ?_⟩, fun key => ?_, fun key hself => ?_⟩
  · rw [hframe.program]
    exact hload.listed
  · rw [hframe.graph, hframe.program, hframe.policy]
    exact hload.graph
  · rw [hframe.symbols, hframe.program, hframe.registry]
    exact hload.symbols key
  · refine (congrArg _ (hget key)).trans (Eq.trans ?_ (congrArg _ (hfresh key)).symm)
    cases hkey : (s.boundAgain path unit).contains key with
    | true => rfl
    | false => exact (hs.paths key).trans (h.freshBinding?_path_eq hkey).symm
  · refine (hget key).trans (Eq.trans ?_ (hfresh key).symm)
    cases hkey : (s.boundAgain path unit).contains key with
    | true => rfl
    | false =>
      have hself' : (s.replaceFile path unit).InOwnModule key := by
        intro f hf
        rw [← hframe.graph]
        exact hself f (by rw [hframe.program]; exact hf)
      exact (hs.fresh key (h.inOwnModule hkey hself')).trans
        (h.freshBinding?_eq hkey hself').symm

theorem Tracked.change {s : Session} (hs : s.Tracked) {path : Path} {unit : SourceUnit}
    (h : s.Replaceable path) : (s.change path unit).1.Tracked := by
  rw [change_fst]
  exact (sameProgram_publish _ _).tracked ((sameProgram_verify _ _ _).tracked (hs.rebound h))

/-! ## Runs -/

theorem tracked_run (registry : Registry) (policy : Policy) {steps : List Step}
    (hspelled : SpelledAlike steps) : ((start registry policy).run steps).Tracked := by
  induction steps using List.reverseRecOn with
  | nil => exact (current_start registry policy).toBound.tracked
  | append_singleton before a ih =>
    have hs := ih hspelled.of_concat
    have hholds := holds_run registry policy hspelled.of_concat
    rw [run_append]
    generalize (start registry policy).run before = s at hs hholds
    cases a with
    | analyze units => exact (current_analyze s units).toBound.tracked
    | change path unit =>
      refine hs.change ⟨hs.toLoaded, fun f hf => ?_⟩
      exact hspelled.path_eq (hholds.program ▸ hf)

/-- A session as an analysis leaves it, or as steps from the start do. -/
inductive Reachable : Session → Prop
  | analyze (before : Session) (units : List SourceUnit) : Reachable (before.analyze units)
  | run (registry : Registry) (policy : Policy) {steps : List Step}
      (hspelled : SpelledAlike steps) : Reachable ((start registry policy).run steps)

theorem Reachable.loaded {s : Session} (h : s.Reachable) : s.Loaded := by
  cases h with
  | analyze before units => exact (current_analyze before units).toLoaded
  | run registry policy hspelled => exact (tracked_run registry policy hspelled).toLoaded

/-- **Bindings of files that are not hidden are never out of date.** After any steps, the session
holds the files that are there by then. Those of them that are halted have no binding, and all
others have one. It is what binding the file against the modules and symbols of the session gives,
if the file is among the files of the module that it declares or implies. -/
theorem binding?_run (registry : Registry) (policy : Policy) (steps : List Step)
    (hspelled : SpelledAlike steps) :
    let s := (start registry policy).run steps
    s.program = .ofUnits (unitsAfter steps) ∧
    ∀ key f, s.program.get? key = some f →
      (s.binding? key = none ↔ s.graph.isHalted key = true) ∧
      (s.graph.isHalted key = false → key ∈ s.graph.filesOf f.moduleName →
        s.binding? key = some (Scope.bindFile s.registry s.symbols s.graph f.unit)) := by
  intro s
  have hs : s.Tracked := tracked_run registry policy hspelled
  refine ⟨(holds_run registry policy hspelled).program, fun key f hf => ?_⟩
  exact ⟨hs.binding?_eq_none_iff hf, fun hhalt hself => hs.binding?_eq_some hf hhalt hself⟩

/-! ## A hidden file -/

/-- A file that implies the module `app` and calls a function that it does not have. -/
def hiddenUnit : SourceUnit where
  path := ⟨"app.cdz"⟩
  declarations :=
    [⟨.function { name := "main", returns := .named "Unit", body := callBody { name := "helper" } },
      ⟨0, 1, 1⟩⟩]

/-- A file that declares the module `app`, with one function. -/
def hidingUnit (name : String) : SourceUnit where
  path := ⟨"lib.cdz"⟩
  moduleDecl := some ⟨"app", ⟨0, 1, 1⟩⟩
  declarations := [⟨.function { name, returns := .named "Unit" }, ⟨1, 2, 1⟩⟩]

/-- The function that the hidden file calls gets another name. -/
def renameSteps : List Step :=
  [.analyze [hiddenUnit, hidingUnit "helper"], .change ⟨"lib.cdz"⟩ (hidingUnit "other")]

theorem binding?_run_renameSteps :
    SpelledAlike renameSteps ∧
      let s := (start .standard {}).run renameSteps
      s.binding? (Path.key ⟨"lib.cdz"⟩) =
        some (Scope.bindFile s.registry s.symbols s.graph (hidingUnit "other")) := by
  have hspelled : SpelledAlike renameSteps := by
    unfold SpelledAlike
    decide +kernel
  obtain ⟨hprogram, hbinding⟩ := binding?_run .standard {} renameSteps hspelled
  have hfile : ((start .standard {}).run renameSteps).program.get? (Path.key ⟨"lib.cdz"⟩) =
      some ⟨⟨"lib.cdz"⟩, hidingUnit "other"⟩ := by
    rw [hprogram]
    rfl
  exact ⟨hspelled, (hbinding _ _ hfile).2 (by decide +kernel) (by decide +kernel)⟩

/-- **Bindings of hidden files may be out of date.** The file in `renameSteps` keeps its call of a
function that is no longer there. -/
theorem exists_stale_binding :
    ¬ ∀ (registry : Registry) (policy : Policy) (steps : List Step), SpelledAlike steps →
      let s := (start registry policy).run steps
      ∀ key f, s.program.get? key = some f → s.graph.isHalted key = false →
        s.binding? key = some (Scope.bindFile s.registry s.symbols s.graph f.unit) := by
  intro h
  have hspelled : SpelledAlike renameSteps := by
    unfold SpelledAlike
    decide +kernel
  have hfile : ((start .standard {}).run renameSteps).program.get? (Path.key ⟨"app.cdz"⟩) =
      some ⟨⟨"app.cdz"⟩, hiddenUnit⟩ := by
    rw [(holds_run .standard {} hspelled).program]
    rfl
  have heq := h .standard {} renameSteps hspelled _ _ hfile (by decide +kernel)
  exact absurd heq (by decide +kernel)

end EffectAudit.Session
