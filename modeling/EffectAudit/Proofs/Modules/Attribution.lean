import EffectAudit.Proofs.Lists
import EffectAudit.Proofs.Modules.Order

/-!
# What the graph says about a file

The edges of a file come from its own imports, and its conflicts from the module that it declares.

## Main definitions

* `ModuleGraph.declaring`, `ModuleGraph.conflictsOf`: the files that declare a module, and the
  conflicts between them

## Main results

* `ModuleGraph.filter_importEdges`: the edges of a file
* `ModuleGraph.filter_conflicts`: the conflicts of a file
-/

namespace EffectAudit.ModuleGraph

variable {p : Program} {policy : Policy} {key : FileKey} {f : SourceFile}

theorem resolution?_build (p : Program) (policy : Policy) (key : FileKey) :
    (build p policy).resolution? key = ((resolvedFiles p).get? key).map (·.1) :=
  OrderedMap.get?_map _ _ key

/-! ## Edges -/

theorem filter_edgesOf (t : ModuleTable) (u key : FileKey) (r : ImportResolution) :
    (edgesOf t u r).filter (·.importer == key) = if u = key then edgesOf t u r else [] := by
  have himporter : ∀ e ∈ edgesOf t u r, e.importer = u := by
    intro e he
    obtain ⟨i, -, he⟩ := List.mem_flatMap.mp he
    obtain ⟨v, -, rfl⟩ := List.mem_map.mp he
    rfl
  split
  · rename_i hu
    exact List.filter_eq_self.mpr fun e he => by simp [himporter e he, hu]
  · rename_i hu
    exact List.filter_eq_nil_iff.mpr fun e he => by simp [himporter e he, hu]

/-- The edges of a file are those that its own imports make. -/
theorem filter_importEdges (hf : p.get? key = some f) :
    (importEdges p).filter (·.importer == key) =
      edgesOf (ModuleTable.ofProgram p) key ((ModuleTable.ofProgram p).resolveFile f).1 := by
  have hentry : (key, (ModuleTable.ofProgram p).resolveFile f) ∈ (resolvedFiles p).entries := by
    rw [OrderedMap.mem_entries_iff, resolvedFiles, OrderedMap.get?_map, hf]
    rfl
  have hnodup : (resolvedFiles p).entries.Nodup :=
    (resolvedFiles p).nodup_entries.imp fun hne he => hne (congrArg Prod.fst he)
  unfold importEdges
  rw [List.filter_flatMap, flatMap_eq_of_unique hnodup hentry fun e he hne => ?_]
  · exact (filter_edgesOf _ key key _).trans (if_pos rfl)
  · -- a key has only one entry
    refine (filter_edgesOf _ e.1 key e.2.1).trans (if_neg fun hkey => hne ?_)
    have hget := OrderedMap.mem_entries_iff.mp he
    rw [hkey, OrderedMap.mem_entries_iff.mp hentry] at hget
    exact Prod.ext hkey (Option.some.inj hget).symm

theorem edgeSpan_congr {edges edges' : List ImportEdge}
    (h : edges.filter (·.importer == key) = edges'.filter (·.importer == key)) (target : FileKey) :
    edgeSpan edges key target = edgeSpan edges' key target := by
  have hfilter : ∀ es : List ImportEdge,
      es.filter (fun e => e.importer == key && e.target == target) =
        (es.filter (·.importer == key)).filter (·.target == target) := by
    intro es
    rw [List.filter_filter]
    simp only [Bool.and_comm]
  unfold edgeSpan
  rw [hfilter, hfilter, h]

theorem get?_of_mem_openCycles {c : List FileKey} (hc : c ∈ openCycles p) (hkey : key ∈ c) :
    ∃ f, p.get? key = some f := by
  obtain ⟨places, -, rfl⟩ := List.mem_map.mp hc
  obtain ⟨i, -, hi⟩ := Digraph.mem_verticesAt.mp hkey
  rw [vertex_importGraph] at hi
  exact OrderedMap.mem_keys.mp (List.mem_of_getElem? hi)

/-! ## Conflicts -/

/-- The files that declare a module. -/
def declaring (p : Program) (m : String) : List (FileKey × SourceUnit) :=
  (p.entries.filter fun e => e.2.unit.declaredModule? == some m).map fun e => (e.1, e.2.unit)

/-- The conflicts between the files that declare a module. -/
def conflictsOf (p : Program) (policy : Policy) (halted : List FileKey) (m : String) :
    List (FileKey × List Diagnostic) :=
  if (declaring p m).length < 2 then [] else conflictsIn policy m halted (declaring p m)

theorem conflicts_eq (p : Program) (policy : Policy) (halted : List FileKey) :
    conflicts p policy halted = (declaredModules p).flatMap (conflictsOf p policy halted) := rfl

theorem of_mem_declaring {m : String} {e : FileKey × SourceUnit} (h : e ∈ declaring p m) :
    ∃ f, p.get? e.1 = some f ∧ f.unit.declaredModule? = some m := by
  obtain ⟨⟨key, f⟩, hf, rfl⟩ := List.mem_map.mp h
  rw [List.mem_filter, OrderedMap.mem_entries_iff, beq_iff_eq] at hf
  exact ⟨f, hf⟩

theorem mem_declaredModules {m : String} :
    m ∈ declaredModules p ↔ ∃ key f, p.get? key = some f ∧ f.unit.declaredModule? = some m := by
  unfold declaredModules sorted
  rw [mem_dropRepeats, mem_sortBy, List.mem_filterMap]
  simp only [OrderedMap.mem_values]
  exact ⟨fun ⟨f, ⟨key, hf⟩, hm⟩ => ⟨key, f, hf, hm⟩, fun ⟨key, f, hf, hm⟩ => ⟨f, ⟨key, hf⟩, hm⟩⟩

theorem nodup_declaredModules (p : Program) : (declaredModules p).Nodup :=
  nodup_dropRepeats_sorted _

/-- The conflicts of a file are those in the module that it declares. -/
theorem filter_conflicts (hf : p.get? key = some f) (halted : List FileKey) :
    (conflicts p policy halted).filter (·.1 == key) =
      (f.unit.declaredModule?.map fun m =>
        (conflictsOf p policy halted m).filter (·.1 == key)).getD [] := by
  -- a file has no conflicts in a module that it does not declare
  have hother : ∀ m, f.unit.declaredModule? ≠ some m →
      (conflictsOf p policy halted m).filter (·.1 == key) = [] := by
    intro m hne
    refine List.filter_eq_nil_iff.mpr fun e he hkey => hne ?_
    obtain rfl := beq_iff_eq.mp hkey
    unfold conflictsOf at he
    split at he
    · exact absurd he List.not_mem_nil
    · obtain ⟨⟨u, hmem, -⟩, -⟩ := of_mem_conflictsIn he
      obtain ⟨f', hf', hm⟩ := of_mem_declaring hmem
      rw [hf] at hf'
      cases hf'
      exact hm
  rw [conflicts_eq, List.filter_flatMap]
  cases hd : f.unit.declaredModule? with
  | none => exact List.flatMap_eq_nil_iff.mpr fun m _ => hother m (by simp [hd])
  | some m =>
    have hm : m ∈ declaredModules p := mem_declaredModules.mpr ⟨key, f, hf, hd⟩
    exact flatMap_eq_of_unique (nodup_declaredModules p) hm fun m' _ hne =>
      hother m' (by simp [hd, Ne.symm hne])

theorem conflictsIn_congr {m : String} {halted halted' : List FileKey}
    {units : List (FileKey × SourceUnit)} (h : ∀ e ∈ units, e.1 ∈ halted ↔ e.1 ∈ halted') :
    conflictsIn policy m halted units = conflictsIn policy m halted' units := by
  have hlive : units.filter (·.1 ∉ halted) = units.filter (·.1 ∉ halted') :=
    List.filter_congr fun e he => by simp [h e he]
  unfold conflictsIn
  rw [hlive]

end EffectAudit.ModuleGraph
