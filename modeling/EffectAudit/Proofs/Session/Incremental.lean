import EffectAudit.Proofs.Session.Agreement
import EffectAudit.Proofs.Session.Change

/-!
# Incremental analysis

Whatever a session was asked to analyze one after the other, whole programs or edits of single
files, in the end it knows what one analysis of the resulting program finds. The reason is that
current sessions that hold one program know the same about it, whichever way they came to know it;
only the numbers of functions may be different.

## Main definitions

* `Session.Step`, `Session.run`: what a session is asked for, one thing after the other
* `Session.unitsAfter`: the files that are there in the end
* `Session.SpelledAlike`: the same file is always given by the same path

## Main results

* `Session.Current.sameFindings`: current sessions with one program know the same
* `Session.current_run`: sessions are current after every step
* `Session.incremental_eq_batch`: incremental analysis finds what one analysis finds
-/

namespace EffectAudit.Session

/-! ## Current sessions with one program -/

/-- Two sessions know the same, except for the numbers of functions. -/
structure SameFindings (s t : Session) : Prop where
  registry : s.registry = t.registry
  policy : s.policy = t.policy
  program : s.program = t.program
  graph : s.graph = t.graph
  symbols : s.symbols.files = t.symbols.files
  bindings : s.bindings = t.bindings
  summaries : s.summaries = t.summaries
  discharge : s.discharge = t.discharge
  published : s.published = t.published

section Determined

variable {s t : Session}

/-- **Current sessions with one program know the same about it.** -/
theorem Current.sameFindings (hs : s.Current) (ht : t.Current) (hreg : s.registry = t.registry)
    (hpolicy : s.policy = t.policy) (hprogram : s.program = t.program) : s.SameFindings t := by
  -- stage by stage: what a stage finds depends on the program and the stages before it
  have hgraph : s.graph = t.graph := by rw [hs.graph, ht.graph, hprogram, hpolicy]
  have h : s.SameModules t := ⟨hreg, hprogram, hgraph⟩
  have hsym := h.files_eq hs.toLoaded ht.toLoaded
  have hbindings := h.bindings_eq hs.toBound ht.toBound
  have hagrees : ∀ key, s.AgreesAt t key := fun key =>
    ⟨hreg, hpolicy, congrArg (·.get? key) hprogram, congrArg (·.diagnosticsOf key) hgraph,
      congrArg (·.get? key) hbindings, converts_eq_of_files hsym,
      fun _ _ g _ => h.sameAt hs.toBound ht.toBound g⟩
  exact ⟨hreg, hpolicy, hprogram, hgraph, hsym, hbindings,
    h.summaries_eq hs.toVerified ht.toVerified,
    OrderedMap.ext_get? fun key => (hagrees key).get?_discharge hs ht,
    OrderedMap.ext_get? fun key => (hagrees key).published_eq hs ht⟩

end Determined

namespace SameFindings

variable {s t : Session} (h : s.SameFindings t)

include h

theorem diagnosticsOf_eq (key : FileKey) : s.diagnosticsOf key = t.diagnosticsOf key := by
  unfold diagnosticsOf
  rw [h.published]

theorem summary?_eq (f : FunctionRef) : s.summary? f = t.summary? f := by
  unfold summary?
  rw [lookup?_eq_of_files h.symbols, h.summaries]

theorem resultCalls_eq (key : FileKey) : s.resultCalls key = t.resultCalls key := by
  unfold resultCalls
  rw [h.discharge]

theorem order_eq : s.order = t.order := by
  unfold order
  rw [h.graph, h.program]

theorem metrics_eq : s.metrics = t.metrics := by
  have hpure : ∀ f, s.symbols.lookup? f = t.symbols.lookup? f := lookup?_eq_of_files h.symbols
  unfold metrics analyzedFunctions diagnostics
  simp only [h.published, h.bindings, h.policy, hpure]

end SameFindings

/-! ## Runs -/

/-- What a session is asked for. -/
inductive Step where
  | analyze (units : List SourceUnit)
  | change (path : Path) (unit : SourceUnit)

/-- The session after a step. -/
def step (s : Session) : Step → Session
  | .analyze units => s.analyze units
  | .change path unit => (s.change path unit).1

/-- The session after some steps. -/
def run (s : Session) (steps : List Step) : Session := steps.foldl step s

/-- The paths by which a step gives files. -/
def Step.paths : Step → List Path
  | analyze units => units.map (·.path)
  | change path _ => [path]

/-- The files that are there after a step. -/
def Step.unitsAfter (units : List SourceUnit) : Step → List SourceUnit
  | analyze units => units
  | change path unit => units.filter (fun u => u.path.key ≠ path.key) ++ [{ unit with path }]

/-- The files that are there after some steps, starting without any. -/
def unitsAfter (steps : List Step) : List SourceUnit := steps.foldl Step.unitsAfter []

/-- Steps give the same file always by the same path. -/
def SpelledAlike (steps : List Step) : Prop :=
  ∀ p ∈ steps.flatMap Step.paths, ∀ q ∈ steps.flatMap Step.paths, p.key = q.key → p = q

/-- There never is a file that implies a module name which another file declares. -/
def NeverHides (steps : List Step) : Prop :=
  ∀ taken, taken <+: steps → (Program.ofUnits (unitsAfter taken)).Unhidden

theorem run_append (s : Session) (before after : List Step) :
    s.run (before ++ after) = (s.run before).run after := List.foldl_append

theorem unitsAfter_concat (before : List Step) (a : Step) :
    unitsAfter (before ++ [a]) = a.unitsAfter (unitsAfter before) := by
  unfold unitsAfter
  rw [List.foldl_append]
  rfl

theorem mem_paths_of_mem_unitsAfter {steps : List Step} {u : SourceUnit}
    (hu : u ∈ unitsAfter steps) : u.path ∈ steps.flatMap Step.paths := by
  induction steps using List.reverseRecOn with
  | nil => exact absurd hu List.not_mem_nil
  | append_singleton before a ih =>
    rw [unitsAfter_concat] at hu
    rw [List.flatMap_append, List.mem_append]
    cases a with
    | analyze units =>
      exact .inr (List.mem_flatMap.mpr ⟨_, List.mem_singleton_self _,
        List.mem_map.mpr ⟨u, hu, rfl⟩⟩)
    | change path unit =>
      rcases List.mem_append.mp hu with hu | hu
      · exact .inl (ih (List.mem_filter.mp hu).1)
      · rw [List.mem_singleton.mp hu]
        exact .inr (List.mem_flatMap.mpr ⟨_, List.mem_singleton_self _, List.mem_singleton_self _⟩)

theorem ofUnits_change {units : List SourceUnit} {path : Path} {unit : SourceUnit}
    (h : ∀ f, (Program.ofUnits units).get? path.key = some f → f.path = path) :
    Program.ofUnits (Step.unitsAfter units (.change path unit)) =
      (Program.ofUnits units).update path unit := by
  have hconcat : Program.ofUnits (Step.unitsAfter units (.change path unit)) =
      (Program.ofUnits (units.filter fun u => u.path.key ≠ path.key)).insert path.key
        ⟨path, { unit with path }⟩ := by
    unfold Program.ofUnits Step.unitsAfter
    rw [List.map_append, OrderedMap.ofList_eq, OrderedMap.ofList_eq]
    exact List.foldl_append
  -- the edited file comes last, and no other file has its key
  refine OrderedMap.ext_get? fun k => ?_
  rw [hconcat, Program.get?_update unit h]
  by_cases hk : k = path.key
  · subst hk
    rw [OrderedMap.get?_insert_self, if_pos rfl]
  · rw [OrderedMap.get?_insert_of_ne hk, if_neg hk]
    exact Program.get?_ofUnits_filter (fun k => k ≠ path.key) (decide_eq_true hk)

theorem current_start (registry : Registry) (policy : Policy) :
    (start registry policy).Current where
  listed := Program.wellListed_empty
  graph := rfl
  symbols _ := rfl
  bindings _ := rfl
  summaries _ := rfl
  faults _ := rfl
  discharge _ := rfl
  published _ := rfl

/-- A session holds a program, under a registry and a policy. -/
structure Holds (s : Session) (registry : Registry) (policy : Policy) (program : Program) :
    Prop where
  registry : s.registry = registry
  policy : s.policy = policy
  program : s.program = program

theorem SameProgram.holds {s t : Session} (h : s.SameProgram t) {registry : Registry}
    {policy : Policy} {program : Program} (ht : t.Holds registry policy program) :
    s.Holds registry policy program :=
  ⟨h.registry.trans ht.registry, h.policy.trans ht.policy, h.program.trans ht.program⟩

theorem holds_analyze (s : Session) (units : List SourceUnit) :
    (s.analyze units).Holds s.registry s.policy (.ofUnits units) := by
  unfold analyze
  refine (sameProgram_publish _ _).holds ((sameProgram_verify _ _ _).holds ?_)
  rw [bind_eq]
  exact ⟨rfl, rfl, rfl⟩

/-- The last of the files that are analyzed is in the program. -/
theorem get?_analyze_concat (s : Session) (units : List SourceUnit) (u : SourceUnit) :
    (s.analyze (units ++ [u])).program.get? u.path.key = some ⟨u.path, u⟩ := by
  rw [(holds_analyze s _).program]
  exact Program.get?_ofUnits_append_cons fun v hv => absurd hv List.not_mem_nil

theorem holds_change (s : Session) (path : Path) (unit : SourceUnit) :
    (s.change path unit).1.Holds s.registry s.policy (s.program.update path unit) := by
  have hframe := rebound_frame s path unit
  rw [change_fst]
  exact (sameProgram_publish _ _).holds
    ((sameProgram_verify _ _ _).holds ⟨hframe.registry, hframe.policy, hframe.program⟩)

theorem SpelledAlike.of_concat {before : List Step} {a : Step} (h : SpelledAlike (before ++ [a])) :
    SpelledAlike before := by
  have hsub : before.flatMap Step.paths ⊆ (before ++ [a]).flatMap Step.paths := by
    rw [List.flatMap_append]
    exact List.subset_append_left _ _
  exact fun p hp q hq => h p (hsub hp) q (hsub hq)

theorem NeverHides.of_concat {before : List Step} {a : Step} (h : NeverHides (before ++ [a])) :
    NeverHides before :=
  fun taken ht => h taken (ht.trans (List.prefix_append before [a]))

section Edited

variable {before : List Step} {path : Path} {unit : SourceUnit}

/-- A file that is edited was last given by a path of an earlier step, so by the same path. -/
theorem SpelledAlike.path_eq (h : SpelledAlike (before ++ [.change path unit])) {f : SourceFile}
    (hf : (Program.ofUnits (unitsAfter before)).get? path.key = some f) : f.path = path := by
  obtain ⟨u, hu, he⟩ := List.mem_map.mp (OrderedMap.mem_of_get?_ofList hf)
  rw [Prod.mk.injEq] at he
  obtain ⟨hkey, rfl⟩ := he
  refine h u.path ?_ path ?_ hkey
  · rw [List.flatMap_append]
    exact List.mem_append_left _ (mem_paths_of_mem_unitsAfter hu)
  · rw [List.flatMap_append]
    exact List.mem_append_right _ (List.mem_singleton_self path)

theorem SpelledAlike.ofUnits_eq (h : SpelledAlike (before ++ [.change path unit])) :
    Program.ofUnits (unitsAfter (before ++ [.change path unit])) =
      (Program.ofUnits (unitsAfter before)).update path unit := by
  rw [unitsAfter_concat]
  exact ofUnits_change fun f => h.path_eq

theorem Current.editable {s : Session} (hs : s.Current)
    (hprogram : s.program = .ofUnits (unitsAfter before))
    (hspelled : SpelledAlike (before ++ [.change path unit]))
    (hhides : NeverHides (before ++ [.change path unit])) : s.Editable path unit where
  current := hs
  spelled f hf := hspelled.path_eq (hprogram ▸ hf)
  unhidden := by
    rw [hprogram]
    exact hhides.of_concat before List.prefix_rfl
  unhidden_update := by
    rw [hprogram, ← hspelled.ofUnits_eq]
    exact hhides _ List.prefix_rfl

end Edited

/-- Sessions hold the files that are there by then, after every step. -/
theorem holds_run (registry : Registry) (policy : Policy) {steps : List Step}
    (hspelled : SpelledAlike steps) :
    ((start registry policy).run steps).Holds registry policy (.ofUnits (unitsAfter steps)) := by
  induction steps using List.reverseRecOn with
  | nil => exact ⟨rfl, rfl, rfl⟩
  | append_singleton before a ih =>
    have hholds := ih hspelled.of_concat
    rw [run_append]
    generalize (start registry policy).run before = s at hholds
    cases a with
    | analyze units =>
      rw [unitsAfter_concat]
      exact hholds.registry ▸ hholds.policy ▸ holds_analyze s units
    | change path unit =>
      rw [hspelled.ofUnits_eq, ← hholds.program, ← hholds.registry, ← hholds.policy]
      exact holds_change s path unit

/-- **Sessions are current after every step**, and hold the files that are there by then. -/
theorem current_run (registry : Registry) (policy : Policy) {steps : List Step}
    (hspelled : SpelledAlike steps) (hhides : NeverHides steps) :
    ((start registry policy).run steps).Current ∧
      ((start registry policy).run steps).Holds registry policy (.ofUnits (unitsAfter steps)) := by
  refine ⟨?_, holds_run registry policy hspelled⟩
  -- from the last step: what it needs is that the session before it is current
  induction steps using List.reverseRecOn with
  | nil => exact current_start registry policy
  | append_singleton before a ih =>
    have hcur := ih hspelled.of_concat hhides.of_concat
    have hholds := holds_run registry policy hspelled.of_concat
    rw [run_append]
    generalize (start registry policy).run before = s at hcur hholds
    cases a with
    | analyze units => exact current_analyze s units
    | change path unit => exact (hcur.editable hholds.program hspelled hhides).current_change

/-- **Incremental analysis finds what one analysis finds.** After any steps from a session without a
program, the first of which may be the analysis of one, the session knows what a new one finds in
the files that are there by then: diagnostics, numbers, compilation order, halted files, and the
effects and results of functions, which are identified by file and name. If the last step was an
edit, the files that it did not report have the diagnostics that they had before. -/
theorem incremental_eq_batch (registry : Registry) (policy : Policy) (steps : List Step)
    (hspelled : SpelledAlike steps) (hhides : NeverHides steps) :
    let s := (start registry policy).run steps
    let fresh := (start registry policy).analyze (unitsAfter steps)
    (s.published = fresh.published ∧ (∀ key, s.diagnosticsOf key = fresh.diagnosticsOf key) ∧
      s.metrics = fresh.metrics ∧ s.order = fresh.order ∧ s.graph.halted = fresh.graph.halted ∧
      (∀ f, s.summary? f = fresh.summary? f) ∧
      ∀ key, s.resultCalls key = fresh.resultCalls key) ∧
    ∀ before path unit, steps = before ++ [.change path unit] → ∀ key,
      (∀ e ∈ (((start registry policy).run before).change path unit).2.files, e.1.key ≠ key) →
      s.diagnosticsOf key = ((start registry policy).run before).diagnosticsOf key := by
  intro s fresh
  constructor
  · obtain ⟨hcur, hholds⟩ := current_run registry policy hspelled hhides
    have hfresh := holds_analyze (start registry policy) (unitsAfter steps)
    have h : s.SameFindings fresh := hcur.sameFindings (current_analyze _ _)
      (hholds.registry.trans hfresh.registry.symm) (hholds.policy.trans hfresh.policy.symm)
      (hholds.program.trans hfresh.program.symm)
    exact ⟨h.published, h.diagnosticsOf_eq, h.metrics_eq, h.order_eq,
      congrArg ModuleGraph.halted h.graph, h.summary?_eq, h.resultCalls_eq⟩
  · rintro before path unit rfl key hkey
    obtain ⟨hcur, hholds⟩ := current_run registry policy hspelled.of_concat hhides.of_concat
    have hedit := hcur.editable hholds.program hspelled hhides
    have hrun : s = (((start registry policy).run before).change path unit).1 := run_append _ _ _
    rw [hrun]
    exact hedit.diagnosticsOf_eq hkey

/-! ## An edit -/

/-- A call of a function without arguments, as the only statement of a body. -/
def callBody (path : CallPath) : List Stmt :=
  [.node ⟨0, 1, 1⟩ (.expr (.node ⟨0, 1, 1⟩ none (.call path [])))]

/-- A file with a function that saves something. -/
def storeUnit (body : List Stmt) : SourceUnit where
  path := ⟨"store.cdz"⟩
  moduleDecl := some ⟨"store", ⟨0, 1, 1⟩⟩
  declarations :=
    [⟨.function { name := "save", returns := .named "Unit", effects := [⟨"Database", ⟨2, 3, 1⟩⟩],
                  body }, ⟨0, 1, 1⟩⟩]
  exports := [⟨"save", ⟨4, 5, 1⟩⟩]

/-- A file with a function that uses it. -/
def shopUnit : SourceUnit where
  path := ⟨"shop.cdz"⟩
  moduleDecl := some ⟨"shop", ⟨0, 1, 1⟩⟩
  imports := [⟨{ target := .module "store", items := .wildcard }, ⟨1, 2, 1⟩⟩]
  declarations :=
    [⟨.function { name := "order", returns := .named "Unit", effects := [⟨"Database", ⟨2, 3, 1⟩⟩],
                  body := callBody { name := "save" } }, ⟨0, 1, 1⟩⟩]

/-- A file that has nothing to do with these. -/
def noteUnit : SourceUnit where
  path := ⟨"note.cdz"⟩
  moduleDecl := some ⟨"note", ⟨0, 1, 1⟩⟩
  declarations :=
    [⟨.function { name := "note", returns := .named "Unit", effects := [⟨"Logging", ⟨2, 3, 1⟩⟩] },
      ⟨0, 1, 1⟩⟩]

/-- A program is analyzed; then the function that saves something no longer does. -/
def editSteps : List Step :=
  [.analyze [storeUnit (callBody { qualifier := some "db", name := "query" }), shopUnit, noteUnit],
    .change ⟨"store.cdz"⟩ (storeUnit [])]

theorem unhidden_of_declared {p : Program}
    (h : ∀ e ∈ p.entries, e.2.unit.declaredModule? ≠ none) : p.Unhidden :=
  fun key f _ _ hf _ hnone => absurd hnone (h (key, f) (OrderedMap.mem_entries_iff.mpr hf))

theorem edit_eq_batch :
    SpelledAlike editSteps ∧ NeverHides editSteps ∧
      ((start .standard {}).run editSteps).published =
        ((start .standard {}).analyze (unitsAfter editSteps)).published ∧
      ((start .standard {}).run editSteps).diagnosticsOf (Path.key ⟨"note.cdz"⟩) =
        ((start .standard {}).run (editSteps.take 1)).diagnosticsOf (Path.key ⟨"note.cdz"⟩) := by
  have hspelled : SpelledAlike editSteps := by
    unfold SpelledAlike
    decide +kernel
  have hhides : NeverHides editSteps := by
    intro taken htaken
    obtain rfl | ⟨t, rfl, ht⟩ := List.prefix_cons_iff.mp htaken
    · exact unhidden_of_declared (by decide)
    · obtain rfl | ⟨t', rfl, ht'⟩ := List.prefix_cons_iff.mp ht
      · exact unhidden_of_declared (by decide)
      · rw [List.prefix_nil.mp ht']
        exact unhidden_of_declared (by decide)
  obtain ⟨⟨hpublished, -⟩, hkept⟩ := incremental_eq_batch .standard {} editSteps hspelled hhides
  exact ⟨hspelled, hhides, hpublished, hkept _ _ _ rfl _ (by decide +kernel)⟩

end EffectAudit.Session
