import EffectAudit.Modules.Graph
import EffectAudit.Proofs.Modules.Cycle
import EffectAudit.Proofs.Modules.Files
import EffectAudit.Proofs.Modules.Schedule

/-!
# The module graph of a program

The graph of a program has an edge for every import of a module and every other file of that module.
Import cycles are reported as the graph has them: each on the file whose import closes it, at the
place of that import.

## Main definitions

* `Program.ImportsAt`, `Program.Imports`: files that depend on others

## Main results

* `ModuleGraph.mem_importEdges`: the edges of the graph
* `ModuleGraph.diagnosticsOf_build`: where the diagnostics of a file come from
* `ModuleGraph.isHalted_build`: the files that are halted
* `ModuleGraph.isHalted_of_clean`: none of them is if nothing is reported
* `ModuleGraph.cycles_reported`: what is reported about import cycles
-/

namespace EffectAudit

open Relation

/-- An import at the given place makes one file depend on another: it names a module which the other
one is a file of. -/
def Program.ImportsAt (p : Program) (u v : FileKey) (span : Span) : Prop :=
  ∃ f, p.get? u = some f ∧ ∃ d ∈ f.unit.imports, d.span = span ∧ ∃ target,
    (ModuleTable.ofProgram p).findTarget? f.path.key d.node = some target ∧
      v ∈ (ModuleTable.ofProgram p).filesOf target.1 ∧ v ≠ u

/-- Some import makes one file depend on another. -/
def Program.Imports (p : Program) (u v : FileKey) : Prop := ∃ span, p.ImportsAt u v span

namespace ModuleGraph

variable {p : Program}

/-! ## Dependencies -/

/-- What has become of the imports of each file. -/
def resolvedFiles (p : Program) : OrderedMap FileKey (ImportResolution × List Diagnostic) :=
  p.map fun _ f => (ModuleTable.ofProgram p).resolveFile f

/-- The edges of the graph. -/
def importEdges (p : Program) : List ImportEdge :=
  (resolvedFiles p).entries.flatMap fun (key, r, _) => edgesOf (ModuleTable.ofProgram p) key r

/-- The graph of dependencies. -/
def importGraph (p : Program) : Digraph FileKey := digraph p (importEdges p)

theorem mem_imports_resolveFile {t : ModuleTable} {f : SourceFile} {i : ResolvedImport} :
    i ∈ (t.resolveFile f).1.imports ↔
      ∃ d ∈ f.unit.imports, (t.resolveImport f.path d).resolved = some i := by
  simp only [ModuleTable.resolveFile, List.mem_filterMap, List.mem_map]
  exact ⟨fun ⟨_, ⟨d, hd, ho⟩, hi⟩ => ⟨d, hd, ho ▸ hi⟩, fun ⟨d, hd, hi⟩ => ⟨_, ⟨d, hd, rfl⟩, hi⟩⟩

theorem resolved_resolveImport {t : ModuleTable} {importer : Path} {d : Spanned ImportDecl}
    {i : ResolvedImport} (h : (t.resolveImport importer d).resolved = some i) :
    i.span = d.span ∧ ∃ target, t.findTarget? importer.key d.node = some target ∧
      i.moduleName = target.1 := by
  unfold ModuleTable.resolveImport at h
  split at h
  · cases h
  · rename_i name qualifier hfind
    cases h
    exact ⟨rfl, _, hfind, rfl⟩

theorem exists_resolved {t : ModuleTable} {importer : Path} {d : Spanned ImportDecl}
    {target : String × Option String} (h : t.findTarget? importer.key d.node = some target) :
    ∃ i, (t.resolveImport importer d).resolved = some i ∧ i.moduleName = target.1 ∧
      i.span = d.span := by
  unfold ModuleTable.resolveImport
  rw [h]
  exact ⟨_, rfl, rfl, rfl⟩

/-- The edges of the graph are the imports of files. -/
theorem mem_importEdges {e : ImportEdge} :
    e ∈ importEdges p ↔ p.ImportsAt e.importer e.target e.span := by
  obtain ⟨u, v, span⟩ := e
  unfold importEdges resolvedFiles edgesOf
  simp only [List.mem_flatMap, List.mem_map, List.mem_filter, decide_eq_true_iff,
    ImportEdge.mk.injEq]
  constructor
  · rintro ⟨⟨key, r⟩, hr, i, hi, w, ⟨hw, hne⟩, rfl, rfl, rfl⟩
    rw [OrderedMap.mem_entries_iff, OrderedMap.get?_map, Option.map_eq_some_iff] at hr
    obtain ⟨f, hf, rfl⟩ := hr
    obtain ⟨d, hd, hres⟩ := mem_imports_resolveFile.mp hi
    obtain ⟨hspan, target, htarget, hname⟩ := resolved_resolveImport hres
    exact ⟨f, hf, d, hd, hspan.symm, target, htarget, hname ▸ hw, hne⟩
  · rintro ⟨f, hf, d, hd, rfl, target, htarget, hv, hne⟩
    obtain ⟨i, hi, hname, hspan⟩ := exists_resolved htarget
    refine ⟨(u, (ModuleTable.ofProgram p).resolveFile f), ?_, i,
      mem_imports_resolveFile.mpr ⟨d, hd, hi⟩, v, ⟨hname ▸ hv, hne⟩, rfl, rfl, hspan⟩
    rw [OrderedMap.mem_entries_iff, OrderedMap.get?_map, hf]
    rfl

theorem wellFormed_importGraph : (importGraph p).WellFormed := Digraph.wellFormed_ofSuccessors

theorem simple_importGraph : (importGraph p).Simple := Digraph.simple_ofSuccessors p.nodup_keys

theorem mem_dependenciesIn_importEdges {u v : FileKey} :
    v ∈ dependenciesIn (importEdges p) u ↔ p.Imports u v := by
  rw [mem_dependenciesIn]
  constructor
  · rintro ⟨e, he, rfl, rfl⟩
    exact ⟨e.span, mem_importEdges.mp he⟩
  · rintro ⟨span, h⟩
    exact ⟨⟨u, v, span⟩, mem_importEdges.mpr h, rfl, rfl⟩

/-- Imports lead from files of the program to files of the program. -/
theorem exists_files_of_imports {u v : FileKey} (h : p.Imports u v) :
    (∃ f, p.get? u = some f) ∧ ∃ f, p.get? v = some f := by
  obtain ⟨_, f, hf, -, -, -, _, -, hv, -⟩ := h
  obtain ⟨f', hf', -⟩ := ModuleTable.mem_of_mem_filesOf hv
  exact ⟨⟨f, hf⟩, f', hf'⟩

theorem mem_successors_importGraph {u v : FileKey} :
    v ∈ (importGraph p).successors u ↔ p.Imports u v := by
  unfold importGraph digraph
  rw [Digraph.mem_successors_ofSuccessors p.nodup_keys, mem_dependenciesIn_importEdges]
  refine ⟨fun h => h.2.2, fun h => ?_⟩
  obtain ⟨hu, hv⟩ := exists_files_of_imports h
  exact ⟨OrderedMap.mem_keys.mpr hu, OrderedMap.mem_keys.mpr hv, h⟩

/-- No file depends on itself. -/
theorem not_edge_self (i : Nat) : ¬ (importGraph p).Edge i i := by
  intro h
  obtain ⟨v, hv⟩ := Digraph.exists_vertex (wellFormed_importGraph.lt_size i i h)
  have hself : v ∈ (importGraph p).successors v :=
    (Digraph.mem_successors_iff simple_importGraph).mpr ⟨i, i, hv, h, hv⟩
  obtain ⟨_, _, _, _, _, _, _, _, _, hne⟩ := mem_successors_importGraph.mp hself
  exact hne rfl

/-- A fold whose steps take the next element or keep the one they have ends with one of the
elements, if there is one. -/
theorem mem_foldl_choice {step : Option Span → Span → Option Span}
    (h : ∀ best s, step best s = some s ∨ step best s = best ∧ best.isSome) {l : List Span}
    (hl : l ≠ []) : ∃ s ∈ l, l.foldl step none = some s := by
  have hfold : ∀ (l : List Span) (best : Option Span),
      (∃ s ∈ l, l.foldl step best = some s) ∨
        l.foldl step best = best ∧ (l = [] ∨ best.isSome) := by
    intro l
    induction l with
    | nil => exact fun best => .inr ⟨rfl, .inl rfl⟩
    | cons a l ih =>
      intro best
      rw [List.foldl_cons]
      rcases ih (step best a) with ⟨s, hs, heq⟩ | ⟨heq, -⟩
      · exact .inl ⟨s, List.mem_cons_of_mem _ hs, heq⟩
      · rcases h best a with hstep | ⟨hstep, hsome⟩
        · exact .inl ⟨a, List.mem_cons_self, heq.trans hstep⟩
        · exact .inr ⟨heq.trans hstep, .inr hsome⟩
  rcases hfold l none with hs | ⟨-, hnil | hsome⟩
  · exact hs
  · exact absurd hnil hl
  · cases hsome

/-- The place that is given for a dependency is that of an import which makes it. -/
theorem importsAt_edgeSpan {u v : FileKey} (h : p.Imports u v) :
    p.ImportsAt u v (edgeSpan (importEdges p) u v) := by
  obtain ⟨span, hspan⟩ := h
  -- the place is chosen among those of all imports of `v` by `u`, of which there is at least one
  have hmem : span ∈ ((importEdges p).filter fun e => e.importer == u && e.target == v).map
      (·.span) := List.mem_map.mpr ⟨⟨u, v, span⟩, List.mem_filter.mpr
        ⟨mem_importEdges.mpr hspan, by simp⟩, rfl⟩
  have hall : ∀ s ∈ ((importEdges p).filter fun e => e.importer == u && e.target == v).map
      (·.span), p.ImportsAt u v s := by
    intro s hs
    obtain ⟨e, he, rfl⟩ := List.mem_map.mp hs
    rw [List.mem_filter, Bool.and_eq_true, beq_iff_eq, beq_iff_eq] at he
    obtain ⟨he, rfl, rfl⟩ := he
    exact mem_importEdges.mp he
  unfold edgeSpan
  dsimp only
  generalize ((importEdges p).filter fun e => e.importer == u && e.target == v).map (·.span) = l
    at hmem hall
  -- whichever place is preferred, it is one of these
  have hchoice : ∀ step : Option Span → Span → Option Span,
      (∀ best s, step best s = some s ∨ step best s = best ∧ best.isSome) →
      p.ImportsAt u v ((l.foldl step none).getD .unset) := by
    intro step hstep
    obtain ⟨s, hs, heq⟩ := mem_foldl_choice hstep (List.ne_nil_of_mem hmem)
    rw [heq]
    exact hall s hs
  refine hchoice _ fun best s => ?_
  cases best with
  | none => exact .inl rfl
  | some b =>
    dsimp only
    split
    · exact .inl rfl
    · exact .inr ⟨rfl, rfl⟩

/-! ## Diagnostics -/

theorem getD_addDiagnostics (m : OrderedMap FileKey (List Diagnostic)) (k key : FileKey)
    (ds : List Diagnostic) :
    ((addDiagnostics m k ds).get? key).getD [] =
      (m.get? key).getD [] ++ if k = key then ds else [] := by
  unfold addDiagnostics
  by_cases hk : k = key
  · subst hk
    rw [if_pos rfl]
    cases ds with
    | nil => simp
    | cons d ds => simp
  · rw [if_neg hk, List.append_nil]
    split
    · rfl
    · rw [OrderedMap.get?_insert_of_ne (Ne.symm hk)]

/-- Diagnostics that are added to a file come behind those that it had. -/
theorem getD_foldl_addDiagnostics (l : List (FileKey × List Diagnostic))
    (m : OrderedMap FileKey (List Diagnostic)) (key : FileKey) :
    ((l.foldl (fun m (key, ds) => addDiagnostics m key ds) m).get? key).getD [] =
      (m.get? key).getD [] ++ (l.filter (·.1 == key)).flatMap (·.2) := by
  induction l generalizing m with
  | nil => exact (List.append_nil _).symm
  | cons e rest ih =>
    rw [List.foldl_cons, ih, getD_addDiagnostics, List.append_assoc]
    by_cases hk : e.1 = key
    · rw [if_pos hk, List.filter_cons_of_pos (by simpa using hk), List.flatMap_cons]
    · rw [if_neg hk, List.filter_cons_of_neg (by simpa using hk), List.nil_append]

/-- The cycles of a program, each without its last file. -/
def openCycles (p : Program) : List (List FileKey) := Cycle.all (importGraph p)

/-- The conflicts between the files of modules. -/
def moduleConflicts (p : Program) (policy : Policy) : List (FileKey × List Diagnostic) :=
  conflicts p policy (Cycle.files (importGraph p))

/-- What is found about files, in the order in which it is found. -/
def findings (p : Program) (policy : Policy) : List (FileKey × List Diagnostic) :=
  ((resolvedFiles p).entries.map fun e => (e.1, e.2.2))
    ++ ((openCycles p).map fun c =>
      (c.getLastD [], [(cycleDiagnostic p (importEdges p) c).2]))
    ++ moduleConflicts p policy

theorem diagnostics_build (p : Program) (policy : Policy) :
    (build p policy).diagnostics =
      (findings p policy).foldl (fun m (key, ds) => addDiagnostics m key ds) ∅ := rfl

/-- The diagnostics of a file are about its imports, about cycles that it closes and about conflicts
with other files of its module. -/
theorem diagnosticsOf_build (p : Program) (policy : Policy) (key : FileKey) :
    (build p policy).diagnosticsOf key =
      (((resolvedFiles p).get? key).map (·.2)).getD []
        ++ ((openCycles p).filter fun c => c.getLastD [] == key).map
          (fun c => (cycleDiagnostic p (importEdges p) c).2)
        ++ ((moduleConflicts p policy).filter (·.1 == key)).flatMap (·.2) := by
  unfold diagnosticsOf
  rw [diagnostics_build, getD_foldl_addDiagnostics]
  unfold findings
  rw [List.filter_append, List.filter_append, List.flatMap_append, List.flatMap_append,
    List.filter_map, List.filter_map, List.flatMap_map, List.flatMap_map]
  refine (List.nil_append _).trans (congrArg₂ (· ++ ·) (congrArg₂ (· ++ ·) ?_ ?_) rfl)
  · simp only [Function.comp_def]
    rw [OrderedMap.entries_filter_key (resolvedFiles p) (k := key) fun e => beq_iff_eq]
    cases (resolvedFiles p).get? key with
    | none => rfl
    | some r => exact List.append_nil r.2
  · exact List.map_eq_flatMap.symm

theorem of_mem_resolveImport {t : ModuleTable} {importer : Path} {i : Spanned ImportDecl}
    {d : Diagnostic} (h : d ∈ (t.resolveImport importer i).diagnostics) :
    d.rule = .unresolvedImport ∧ d.location.file = importer := by
  unfold ModuleTable.resolveImport at h
  split at h
  · rw [List.mem_singleton.mp h]
    exact ⟨rfl, rfl⟩
  · dsimp only at h
    split at h
    · exact absurd h List.not_mem_nil
    · exact absurd h List.not_mem_nil
    · obtain ⟨item, -, rfl⟩ := List.mem_map.mp h
      exact ⟨rfl, rfl⟩

/-- An import that fails is reported. -/
theorem failed_of_resolveImport_clean {t : ModuleTable} {importer : Path} {i : Spanned ImportDecl}
    (h : (t.resolveImport importer i).diagnostics = []) :
    (t.resolveImport importer i).failed = [] := by
  unfold ModuleTable.resolveImport at h ⊢
  split at h
  · cases h
  · dsimp only at h ⊢
    split at h
    · rfl
    · rfl
    · unfold ModuleTable.importNames at h ⊢
      dsimp only at h ⊢
      rw [List.map_eq_nil_iff.mp h]
      rfl

theorem failed_of_resolveFile_clean {t : ModuleTable} {f : SourceFile}
    (h : (t.resolveFile f).2 = []) : (t.resolveFile f).1.failed = [] := by
  refine List.flatMap_eq_nil_iff.mpr fun o ho => ?_
  obtain ⟨i, hi, rfl⟩ := List.mem_map.mp ho
  exact failed_of_resolveImport_clean (List.flatMap_eq_nil_iff.mp h _ ho)

theorem of_mem_resolvedFiles {key : FileKey} {d : Diagnostic}
    (h : d ∈ (((resolvedFiles p).get? key).map (·.2)).getD []) :
    ∃ f, p.get? key = some f ∧ d.rule = .unresolvedImport ∧ d.location.file = f.path := by
  unfold resolvedFiles at h
  rw [OrderedMap.get?_map] at h
  cases hf : p.get? key with
  | none =>
    rw [hf] at h
    exact absurd h List.not_mem_nil
  | some f =>
    rw [hf] at h
    obtain ⟨o, ho, hd⟩ := List.mem_flatMap.mp h
    obtain ⟨i, -, rfl⟩ := List.mem_map.mp ho
    exact ⟨f, rfl, of_mem_resolveImport hd⟩

/-! ## Conflicts -/

theorem of_mem_claim {policy : Policy} {name : String} {u : SourceUnit}
    {exports : List (Spanned String)} {o : Ownership}
    (ho : ∀ d ∈ o.conflicts, d.rule = .duplicateModule ∧ d.location.file = u.path) :
    ∀ d ∈ (exports.foldl (Ownership.claim policy name u) o).conflicts,
      d.rule = .duplicateModule ∧ d.location.file = u.path := by
  induction exports generalizing o with
  | nil => exact ho
  | cons e rest ih =>
    refine ih ?_
    unfold Ownership.claim
    split
    · exact ho
    · split
      · exact ho
      · split
        · exact ho
        · intro d hd
          rcases List.mem_append.mp hd with hd | hd
          · exact ho d hd
          · rw [List.mem_singleton.mp hd]
            exact ⟨rfl, rfl⟩

/-- A file has a conflict only if it is one of the files of the module and not halted before; there
is then a diagnostic in it. -/
theorem of_mem_conflictsIn {policy : Policy} {name : String} {halted : List FileKey}
    {units : List (FileKey × SourceUnit)} {e : FileKey × List Diagnostic}
    (h : e ∈ conflictsIn policy name halted units) :
    (∃ u, (e.1, u) ∈ units ∧
      ∀ d ∈ e.2, d.rule = .duplicateModule ∧ d.location.file = u.path) ∧
      e.1 ∉ halted ∧ e.2 ≠ [] := by
  have hfold : ∀ (live : List (FileKey × SourceUnit))
      (acc : List (String × Path) × List (FileKey × List Diagnostic)),
      e ∈ (live.foldl (fun acc x =>
        let o := x.2.exports.foldl (Ownership.claim policy name x.2) { owners := acc.1 }
        (o.owners, if o.conflicts.isEmpty then acc.2 else acc.2 ++ [(x.1, o.conflicts)])) acc).2 →
      e ∈ acc.2 ∨ ∃ u, (e.1, u) ∈ live ∧ e.2 ≠ [] ∧
        ∀ d ∈ e.2, d.rule = .duplicateModule ∧ d.location.file = u.path := by
    -- what was there before stays, and only files with conflicts are added
    intro live
    induction live with
    | nil => exact fun acc h => .inl h
    | cons x rest ih =>
      intro acc h
      rcases ih _ h with h | ⟨u, hmem, hrest⟩
      · dsimp only at h
        split at h
        · exact .inl h
        · rename_i hne
          rcases List.mem_append.mp h with h | h
          · exact .inl h
          · rw [List.mem_singleton.mp h]
            refine .inr ⟨x.2, List.mem_cons_self, fun hnil => hne (List.isEmpty_iff.mpr hnil), ?_⟩
            exact of_mem_claim fun d hd => absurd hd List.not_mem_nil
      · exact .inr ⟨u, List.mem_cons_of_mem _ hmem, hrest⟩
  unfold conflictsIn at h
  obtain h | ⟨u, hmem, hne, hrest⟩ := hfold _ _ h
  · exact absurd h List.not_mem_nil
  · rw [List.mem_filter, decide_eq_true_iff] at hmem
    exact ⟨⟨u, hmem.1, hrest⟩, hmem.2, hne⟩

theorem of_mem_moduleConflicts {policy : Policy} {e : FileKey × List Diagnostic}
    (h : e ∈ moduleConflicts p policy) :
    (∃ f, p.get? e.1 = some f ∧
      ∀ d ∈ e.2, d.rule = .duplicateModule ∧ d.location.file = f.unit.path) ∧
      e.1 ∉ Cycle.files (importGraph p) ∧ e.2 ≠ [] := by
  obtain ⟨name, -, h⟩ := List.mem_flatMap.mp h
  dsimp only at h
  split at h
  · exact absurd h List.not_mem_nil
  · obtain ⟨⟨u, hmem, hreports⟩, hlive⟩ := of_mem_conflictsIn h
    refine ⟨?_, hlive⟩
    obtain ⟨⟨key, f⟩, hf, heq⟩ := List.mem_map.mp hmem
    obtain ⟨rfl, rfl⟩ := Prod.mk.inj heq
    exact ⟨f, OrderedMap.mem_entries_iff.mp (List.mem_filter.mp hf).1, hreports⟩

/-! ## Cycles -/

theorem mem_files_importGraph {key : FileKey} :
    key ∈ Cycle.files (importGraph p) ↔ TransGen p.Imports key key := by
  rw [Cycle.mem_files_iff wellFormed_importGraph simple_importGraph not_edge_self]
  simp only [mem_successors_importGraph]

theorem halted_build (p : Program) (policy : Policy) :
    (build p policy).halted = (p.filter fun key _ => decide (key ∈ Cycle.files (importGraph p) ∨
      key ∈ (moduleConflicts p policy).map (·.1))).map fun key f =>
        if key ∈ Cycle.files (importGraph p) then f.path else f.unit.path := rfl

/-- The files that are halted: those on cycles and those with conflicts. -/
theorem isHalted_build (p : Program) (policy : Policy) (key : FileKey) :
    (build p policy).isHalted key = true ↔
      TransGen p.Imports key key ∨ key ∈ (moduleConflicts p policy).map (·.1) := by
  unfold isHalted
  rw [OrderedMap.contains_iff, halted_build, OrderedMap.get?_map, OrderedMap.get?_filter,
    ← mem_files_importGraph]
  constructor
  · rintro ⟨path, h⟩
    obtain ⟨f, hf, -⟩ := Option.map_eq_some_iff.mp h
    exact of_decide_eq_true (Option.filter_eq_some_iff.mp hf).2
  · intro h
    -- files on cycles and files with conflicts are files of the program
    have hf : ∃ f, p.get? key = some f := by
      rcases h with h | h
      · obtain ⟨v, ⟨_, f, hf, _⟩, -⟩ := TransGen.head'_iff.mp (mem_files_importGraph.mp h)
        exact ⟨f, hf⟩
      · obtain ⟨e, he, rfl⟩ := List.mem_map.mp h
        exact (of_mem_moduleConflicts he).1.imp fun f hf => hf.1
    obtain ⟨f, hf⟩ := hf
    rw [hf, Option.filter_some, if_pos (decide_eq_true h)]
    exact ⟨_, rfl⟩

theorem edges_build (p : Program) (policy : Policy) : (build p policy).edges = importEdges p := rfl

theorem cycles_build (p : Program) (policy : Policy) :
    (build p policy).cycles = (openCycles p).map fun c => c ++ c.take 1 := rfl

theorem isCycle_of_mem_openCycles {c : List FileKey} (hc : c ∈ openCycles p) :
    Cycle.IsCycle p.Imports (c ++ c.take 1) := by
  have h := Cycle.isCycle_of_mem_all wellFormed_importGraph simple_importGraph not_edge_self hc
  simp only [mem_successors_importGraph] at h
  exact h

/-- A reported cycle has a first file and one that closes it. -/
theorem openCycle_cases {c : List FileKey} (hc : c ∈ openCycles p) :
    ∃ front last, c = front ++ [last] ∧ ∃ first rest, c = first :: rest := by
  have hlong := (isCycle_of_mem_openCycles hc).long
  cases c with
  | nil => simp at hlong
  | cons first rest =>
    exact ⟨_, _, (List.dropLast_append_getLast (List.cons_ne_nil first rest)).symm, first, rest,
      rfl⟩

/-- The last file of a reported cycle imports its first file. -/
theorem closing_import {c : List FileKey} (hc : c ∈ openCycles p) :
    ∃ front last first, c = front ++ [last] ∧ c.take 1 = [first] ∧ p.Imports last first := by
  obtain ⟨front, last, hlast, first, rest, hfirst⟩ := openCycle_cases hc
  have htake : c.take 1 = [first] := by
    rw [hfirst]
    rfl
  have hsuffix : [last, first] <:+ c ++ c.take 1 := by
    rw [htake, hlast, List.append_assoc]
    exact List.suffix_append _ _
  have hpair := (isCycle_of_mem_openCycles hc).linked.suffix hsuffix
  exact ⟨front, last, first, hlast, htake, List.isChain_pair.mp hpair⟩

/-- Every import that is part of a cycle is on one that is reported. -/
theorem exists_mem_openCycles {u v : FileKey} (huv : p.Imports u v)
    (hvu : ReflTransGen p.Imports v u) : ∃ c ∈ openCycles p, [u, v] <:+: c ++ c.take 1 := by
  have hreaches : (importGraph p).Reaches v u := by
    rw [Digraph.reaches_iff_reflTransGen]
    simpa only [mem_successors_importGraph] using hvu
  exact Cycle.exists_mem_all wellFormed_importGraph simple_importGraph not_edge_self
    (mem_successors_importGraph.mpr huv) hreaches

/-- The report of a cycle: on the file that closes it, at the place of the import that does. -/
def cycleReport (p : Program) (c : List FileKey) : Diagnostic :=
  let last := c.dropLast.getLastD []
  (Finding.circularDependency (c.map (listedPath p))).report (listedPath p last)
    (edgeSpan (importEdges p) last (c.headD []))

theorem cycleDiagnostic_eq {c : List FileKey} (hc : c ∈ openCycles p) :
    (cycleDiagnostic p (importEdges p) c).2 = cycleReport p (c ++ c.take 1) := by
  obtain ⟨-, -, -, first, rest, rfl⟩ := openCycle_cases hc
  unfold cycleDiagnostic cycleReport
  rw [List.take_succ_cons, List.take_zero, List.dropLast_concat]
  rfl

/-- The diagnostics about cycles of a file are those of the cycles that it closes. -/
theorem filter_diagnosticsOf (p : Program) (policy : Policy) (key : FileKey) :
    ((build p policy).diagnosticsOf key).filter (·.rule == .circularDependency) =
      ((build p policy).cycles.filter fun c => c.dropLast.getLast? == some key).map
        (cycleReport p) := by
  rw [diagnosticsOf_build, List.filter_append, List.filter_append]
  -- diagnostics about imports and conflicts have other rules
  have himports : ((((resolvedFiles p).get? key).map (·.2)).getD []).filter
      (·.rule == .circularDependency) = [] := by
    refine List.filter_eq_nil_iff.mpr fun d hd => ?_
    obtain ⟨f, -, hrule, -⟩ := of_mem_resolvedFiles hd
    rw [hrule]
    decide
  have hconflicts : (((moduleConflicts p policy).filter (·.1 == key)).flatMap (·.2)).filter
      (·.rule == .circularDependency) = [] := by
    refine List.filter_eq_nil_iff.mpr fun d hd => ?_
    obtain ⟨e, he, hd⟩ := List.mem_flatMap.mp hd
    obtain ⟨⟨f, -, hreports⟩, -⟩ := of_mem_moduleConflicts (List.mem_filter.mp he).1
    rw [(hreports d hd).1]
    decide
  have hcycles : ∀ l : List (List FileKey),
      (l.map fun c => (cycleDiagnostic p (importEdges p) c).2).filter
        (·.rule == .circularDependency) =
      l.map fun c => (cycleDiagnostic p (importEdges p) c).2 := by
    refine fun l => List.filter_eq_self.mpr fun d hd => ?_
    obtain ⟨c, -, rfl⟩ := List.mem_map.mp hd
    rfl
  rw [himports, hconflicts, hcycles, List.nil_append, List.append_nil, cycles_build,
    List.filter_map, List.map_map]
  refine (List.map_congr_left fun c hc => cycleDiagnostic_eq (List.mem_filter.mp hc).1).trans ?_
  refine congrArg (List.map _) (List.filter_congr fun c hc => ?_)
  obtain ⟨front, last, rfl, first, rest, heq⟩ := openCycle_cases hc
  rw [Function.comp_apply, heq, List.take_succ_cons, List.take_zero, List.dropLast_concat, ← heq,
    List.getLastD_concat, List.getLast?_concat]
  rfl

theorem importsAt_of_mem_cycles {policy : Policy} {c : List FileKey}
    (hc : c ∈ (build p policy).cycles) :
    ∃ u v span, [u, v] <:+ c ∧ p.ImportsAt u v span ∧ cycleReport p c =
      (Finding.circularDependency (c.map (listedPath p))).report (listedPath p u) span := by
  rw [cycles_build] at hc
  obtain ⟨d, hd, rfl⟩ := List.mem_map.mp hc
  obtain ⟨front, last, first, rfl, htake, himports⟩ := closing_import hd
  have hsuffix : [last, first] <:+ front ++ [last] ++ [first] := by
    rw [List.append_assoc]
    exact List.suffix_append _ _
  have hhead : (front ++ [last] ++ [first]).headD [] = first := by
    cases front <;> cases htake <;> rfl
  rw [htake]
  refine ⟨last, first, _, hsuffix, importsAt_edgeSpan himports, ?_⟩
  unfold cycleReport
  rw [List.dropLast_concat, List.getLastD_concat, hhead]

/-! ## Files without diagnostics -/

/-- If no file has a diagnostic about modules, no file is halted. -/
theorem isHalted_of_clean {policy : Policy}
    (hclean : ∀ key f, p.get? key = some f → (build p policy).diagnosticsOf key = [])
    (key : FileKey) : (build p policy).isHalted key = false := by
  refine Bool.eq_false_iff.mpr fun hhalted => ?_
  rcases (isHalted_build p policy key).mp hhalted with hcycle | hconflict
  · -- the file that closes a cycle has the report of the cycle
    obtain ⟨v, huv, hvu⟩ := TransGen.head'_iff.mp hcycle
    obtain ⟨c, hc, -⟩ := exists_mem_openCycles huv hvu
    obtain ⟨front, last, first, rfl, -, _, f, hf, -⟩ := closing_import hc
    have hnil := hclean last f hf
    rw [diagnosticsOf_build, List.append_eq_nil_iff, List.append_eq_nil_iff,
      List.map_eq_nil_iff, List.filter_eq_nil_iff] at hnil
    exact hnil.1.2 _ hc (by rw [List.getLastD_concat]; exact beq_self_eq_true last)
  · -- a file with a conflict has a diagnostic that says so
    obtain ⟨e, he, rfl⟩ := List.mem_map.mp hconflict
    obtain ⟨⟨f, hf, -⟩, -, hne⟩ := of_mem_moduleConflicts he
    have hnil := hclean e.1 f hf
    rw [diagnosticsOf_build, List.append_eq_nil_iff, List.flatMap_eq_nil_iff] at hnil
    exact hne (hnil.2 e (List.mem_filter.mpr ⟨he, beq_self_eq_true e.1⟩))

/-- A file without a diagnostic about modules has no import that failed. -/
theorem failed_of_clean {policy : Policy} {key : FileKey}
    (hclean : (build p policy).diagnosticsOf key = []) :
    (((build p policy).resolution? key).getD {}).failed = [] := by
  have hresolution : (build p policy).resolution? key = ((resolvedFiles p).get? key).map (·.1) :=
    OrderedMap.get?_map _ _ key
  rw [diagnosticsOf_build, List.append_eq_nil_iff, List.append_eq_nil_iff, resolvedFiles,
    OrderedMap.get?_map] at hclean
  rw [hresolution, resolvedFiles, OrderedMap.get?_map]
  cases hf : p.get? key with
  | none => rfl
  | some f =>
    rw [hf] at hclean
    exact failed_of_resolveFile_clean hclean.1.1

/-! ## Reported cycles -/

/-- **Import cycles are reported**: what is reported are cycles of imports, every import that is
part of a cycle is on one that is reported, and no two of them are rotations of each other. There is
one diagnostic for each, on the file that closes it and at the place of an import which does. The
files that are halted for it are those that come to import themselves. -/
theorem cycles_reported (p : Program) (policy : Policy) :
    let g := build p policy
    (∀ e, e ∈ g.edges ↔ p.ImportsAt e.importer e.target e.span) ∧
    (∀ c ∈ g.cycles, Cycle.IsCycle p.Imports c) ∧
    (∀ u v, p.Imports u v → ReflTransGen p.Imports v u → ∃ c ∈ g.cycles, [u, v] <:+: c) ∧
    (g.cycles.Pairwise fun c d => ¬ c.dropLast ~r d.dropLast) ∧
    (∃ report : List FileKey → Diagnostic,
      (∀ key, (g.diagnosticsOf key).filter (·.rule == .circularDependency) =
        (g.cycles.filter fun c => c.dropLast.getLast? == some key).map report) ∧
      ∀ c ∈ g.cycles, ∃ u v span, [u, v] <:+ c ∧ p.ImportsAt u v span ∧ report c =
        (Finding.circularDependency (c.map (listedPath p))).report (listedPath p u) span) ∧
    (∀ key, key ∈ Cycle.files (digraph p g.edges) ↔ TransGen p.Imports key key) ∧
    ∀ key, g.isHalted key = true ↔ TransGen p.Imports key key ∨
      key ∈ (conflicts p policy (Cycle.files (digraph p g.edges))).map (·.1) := by
  intro g
  have hedges : g.edges = importEdges p := edges_build p policy
  have hcycles : g.cycles = (openCycles p).map fun c => c ++ c.take 1 := cycles_build p policy
  have hgraph : digraph p g.edges = importGraph p := congrArg (digraph p) hedges
  refine ⟨fun e => ?_, fun c hc => ?_, fun u v huv hvu => ?_, ?_,
    ⟨cycleReport p, filter_diagnosticsOf p policy, fun c hc => importsAt_of_mem_cycles hc⟩,
    fun key => ?_, fun key => ?_⟩
  · rw [hedges]
    exact mem_importEdges
  · rw [hcycles] at hc
    obtain ⟨d, hd, rfl⟩ := List.mem_map.mp hc
    exact isCycle_of_mem_openCycles hd
  · obtain ⟨c, hc, hpair⟩ := exists_mem_openCycles huv hvu
    rw [hcycles]
    exact ⟨_, List.mem_map.mpr ⟨c, hc, rfl⟩, hpair⟩
  · rw [hcycles]
    refine List.pairwise_map.mpr (List.Pairwise.imp_of_mem (fun {c d} hc hd hapart => ?_)
      (Cycle.pairwise_all wellFormed_importGraph simple_importGraph not_edge_self))
    -- without the last file, which repeats the first one, these are the open cycles
    obtain ⟨-, -, -, first, rest, rfl⟩ := openCycle_cases hc
    obtain ⟨-, -, -, first', rest', rfl⟩ := openCycle_cases hd
    rw [List.take_succ_cons, List.take_succ_cons, List.take_zero, List.take_zero,
      List.dropLast_concat, List.dropLast_concat]
    exact hapart
  · rw [hgraph]
    exact mem_files_importGraph
  · rw [hgraph]
    exact isHalted_build p policy key

/-- Three files, the first of which is on two cycles. -/
def overlap : Program :=
  let file (name : String) (imports : List String) : SourceUnit :=
    { path := ⟨name⟩
      imports := imports.map fun target => ⟨{ target := .module target }, ⟨0, 1, 1⟩⟩ }
  .ofUnits [file "a" ["b", "c"], file "b" ["a"], file "c" ["b"]]

theorem overlapping_cycles_reported :
    (build overlap {}).cycles.map (·.map (·.map Component.text)) =
      [[["a"], ["b"], ["a"]], [["a"], ["c"], ["b"], ["a"]]] ∧
    (∀ c ∈ (build overlap {}).cycles, Cycle.IsCycle overlap.Imports c) ∧
    (build overlap {}).cycles.Pairwise fun c d => ¬ c.dropLast ~r d.dropLast := by
  obtain ⟨-, hcycles, -, hapart, -⟩ := cycles_reported overlap {}
  exact ⟨by decide +kernel, hcycles, hapart⟩

end ModuleGraph

end EffectAudit
