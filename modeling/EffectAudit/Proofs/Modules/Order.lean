import EffectAudit.Proofs.Modules.Graph
import EffectAudit.Proofs.Modules.Schedule

/-!
# Compilation order

The files that are not halted are put into an order, dependencies first. Files on cycles are halted,
so no file waits for itself and all of them find a place. There is only one such order that always
goes on with the first file in path order that can come next.

## Main definitions

* `Program.Ready`: files that can come next

## Main results

* `ModuleGraph.order_build`: the order as a schedule counted down
* `ModuleGraph.order_canonical`: what is listed, and why each file comes when it does
-/

namespace EffectAudit

open Relation

/-- A file can come next behind some others: it is not halted and not one of them, but all files
that it depends on are, as far as they are not halted. -/
def Program.Ready (p : Program) (halted : FileKey → Bool) (before : List FileKey) (key : FileKey) :
    Prop :=
  (∃ f, p.get? key = some f) ∧ halted key = false ∧ key ∉ before ∧
    ∀ dep, p.Imports key dep → halted dep = false → dep ∈ before

namespace ModuleGraph

variable {p : Program} {policy : Policy}

theorem vertex_importGraph {i : Nat} : (importGraph p).vertices[i]? = p.keys[i]? :=
  Digraph.vertex_ofSuccessors

theorem exists_place_importGraph {key : FileKey} (h : ∃ f, p.get? key = some f) :
    ∃ i : Nat, (importGraph p).vertices[i]? = some key := by
  obtain ⟨i, hi⟩ := List.mem_iff_getElem?.mp (OrderedMap.mem_keys.mpr h)
  exact ⟨i, vertex_importGraph.trans hi⟩

/-! ## The schedule of a program -/

/-- The files that are not halted. -/
def isLive (p : Program) (policy : Policy) (key : FileKey) : Bool := !(build p policy).isHalted key

theorem isLive_iff {key : FileKey} :
    isLive p policy key = true ↔ (build p policy).isHalted key = false := by
  unfold isLive
  rw [Bool.not_eq_true']

theorem order_build (p : Program) (policy : Policy) :
    (build p policy).order =
      (Schedule.start (importEdges p) (isLive p policy) p.keys).list (importEdges p) := by
  have hlive : isLive p policy = fun key =>
      !decide (key ∈ Cycle.files (importGraph p) ∨ key ∈ (moduleConflicts p policy).map (·.1)) := by
    funext key
    unfold isLive
    rw [Bool.not_inj_iff, Bool.eq_iff_iff, isHalted_build, decide_eq_true_iff,
      mem_files_importGraph]
  rw [hlive]
  rfl

theorem stands_order (p : Program) (policy : Policy) :
    (Schedule.start (importEdges p) (isLive p policy) p.keys).Stands (importEdges p)
      (isLive p policy) p.keys [] := Schedule.stands_start p.nodup_keys

/-- No file that is not halted comes to import itself. -/
theorem not_transGen_live {key : FileKey} (hlive : isLive p policy key = true) :
    ¬ TransGen (fun u v => v ∈ dependenciesIn (importEdges p) u) key key := by
  intro hcycle
  have himports : TransGen p.Imports key key :=
    TransGen.mono (fun _ _ h => mem_dependenciesIn_importEdges.mp h) _ _ hcycle
  have hhalted := (isHalted_build p policy key).mpr (.inl himports)
  rw [isLive_iff.mp hlive] at hhalted
  cases hhalted

/-- All files that are not halted are listed, each once. -/
theorem order_spec (p : Program) (policy : Policy) :
    (build p policy).order.Nodup ∧ ∀ key, key ∈ (build p policy).order ↔
      Schedule.Left (isLive p policy) p.keys [] key := by
  rw [order_build]
  apply (stands_order p policy).mem_list
  · intro u _ v hv
    exact OrderedMap.mem_keys.mpr (exists_files_of_imports (mem_dependenciesIn_importEdges.mp hv)).2
  · exact fun key hkey => not_transGen_live hkey.2.1

theorem mem_order_iff {key : FileKey} :
    key ∈ (build p policy).order ↔
      (∃ f, p.get? key = some f) ∧ (build p policy).isHalted key = false := by
  rw [(order_spec p policy).2, Schedule.Left, OrderedMap.mem_keys, isLive_iff]
  simp

/-! ## Each file in its turn -/

theorem next_iff_ready {before : List FileKey} {key : FileKey} :
    Schedule.Next (importEdges p) (isLive p policy) p.keys before key ↔
      p.Ready (build p policy).isHalted before key := by
  simp only [Schedule.Next, Schedule.Left, Program.Ready, OrderedMap.mem_keys, isLive_iff,
    mem_dependenciesIn_importEdges, and_assoc]

/-- Every file that is listed is the first one in path order that can come next. -/
theorem ready_of_order {before after : List FileKey} {key : FileKey}
    (horder : (build p policy).order = before ++ key :: after) :
    p.Ready (build p policy).isHalted before key ∧
      ∀ other, p.Ready (build p policy).isHalted before other → compare key other ≠ .gt := by
  rw [order_build] at horder
  obtain ⟨hnext, hfirst⟩ := (stands_order p policy).list_next horder
  rw [List.nil_append] at hnext hfirst
  refine ⟨next_iff_ready.mp hnext, fun other hother => ?_⟩
  exact Ordering.isLE_iff_ne_gt.mp (hfirst other (next_iff_ready.mpr hother))

/-- **The compilation order is the canonical one**: every file that is not halted is listed, once,
and no other file is. A file comes behind the files that it depends on, and always the first file in
path order comes next that can. -/
theorem order_canonical (p : Program) (policy : Policy) :
    let g := build p policy
    g.order.Nodup ∧
    (∀ key, key ∈ g.order ↔ (∃ f, p.get? key = some f) ∧ g.isHalted key = false) ∧
    (∀ u v, p.Imports u v → g.isHalted u = false → g.isHalted v = false →
      List.Sublist [v, u] g.order) ∧
    ∀ before key after, g.order = before ++ key :: after →
      p.Ready g.isHalted before key ∧
        ∀ other, p.Ready g.isHalted before other → compare key other ≠ .gt := by
  intro g
  refine ⟨(order_spec p policy).1, fun key => mem_order_iff, ?_,
    fun before key after => ready_of_order⟩
  intro u v himports hu hv
  obtain ⟨_, f, hf, -⟩ := id himports
  obtain ⟨before, after, horder⟩ := List.append_of_mem (mem_order_iff.mpr ⟨⟨f, hf⟩, hu⟩)
  obtain ⟨⟨-, -, -, hdeps⟩, -⟩ := ready_of_order horder
  have hbefore : List.Sublist [v] before := List.singleton_sublist.mpr (hdeps v himports hv)
  have hafter : List.Sublist [u] (u :: after) := List.singleton_sublist.mpr List.mem_cons_self
  rw [horder]
  exact hbefore.append hafter

/-- Two files on a cycle, two files of one module that export the same name, and files that depend
on these. -/
def partlyHalted : Program :=
  let file (name : String) (imports : List String) : SourceUnit :=
    { path := ⟨name⟩
      imports := imports.map fun target => ⟨{ target := .module target }, ⟨0, 1, 1⟩⟩ }
  let part (name : String) : SourceUnit :=
    { path := ⟨name⟩
      moduleDecl := some ⟨"m", ⟨0, 1, 1⟩⟩
      declarations := [⟨.function { name := "f", returns := .named "Unit" }, ⟨0, 1, 1⟩⟩]
      exports := [⟨"f", ⟨0, 1, 1⟩⟩] }
  .ofUnits [file "a" ["d", "b"], file "b" ["c"], file "c" ["b"], file "d" ["m"], part "e", part "f",
    file "g" []]

theorem partlyHalted_order_canonical :
    let g := build partlyHalted {}
    g.order.map (·.map Component.text) = [["e"], ["d"], ["a"], ["g"]] ∧
    partlyHalted.Ready g.isHalted (g.order.take 1) (Path.key ⟨"d"⟩) ∧
    ¬ partlyHalted.Ready g.isHalted (g.order.take 1) (Path.key ⟨"a"⟩) := by
  intro g
  obtain ⟨-, -, -, hturns⟩ := order_canonical partlyHalted {}
  have horder : g.order =
      [Path.key ⟨"e"⟩, Path.key ⟨"d"⟩, Path.key ⟨"a"⟩, Path.key ⟨"g"⟩] := by decide +kernel
  have hturn := hturns [Path.key ⟨"e"⟩] (Path.key ⟨"d"⟩) _ horder
  refine ⟨by decide +kernel, ?_, ?_⟩
  · rw [horder]
    exact hturn.1
  · rw [horder]
    intro hready
    exact hturn.2 _ hready (by decide +kernel)

end ModuleGraph

end EffectAudit
