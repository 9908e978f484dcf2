import EffectAudit.Proofs.Digraph.Embedding
import EffectAudit.Proofs.Lists
import EffectAudit.Proofs.Modules.Cycle

/-!
# The cycles of a file

The cycles that a file closes are found in its component and nowhere else. In a set of files that no
edge leads out of they are therefore found just as they are in the whole graph: the edges to be
covered come in the same order, the ways back are the same, and so are the cycles that are left out
because a rotation of them was found before.

## Main results

* `Cycle.rotated_map`, `Cycle.ofComponent_map`: cycles of places that stand for others
* `Cycle.filter_all`: the cycles that a vertex closes are those of its component
* `Cycle.filter_all_eq`: they are the same in a graph that is inside another one
-/

namespace EffectAudit.Cycle

variable {place : Nat → Nat}

/-! ## Places that stand for others -/

theorem edges_map (c : List Nat) : edges (c.map place) = (edges c).map (Prod.map place place) := by
  unfold edges
  rw [← List.map_drop, ← List.map_take, ← List.map_append, List.zip_map]

section Order

variable (hmono : StrictMono place)

include hmono

theorem least?_map (c : List Nat) : least? (c.map place) = (least? c).map place := by
  induction c using List.reverseRecOn with
  | nil => rfl
  | append_singleton c i ih =>
    rw [List.map_append, List.map_singleton, least?_concat, least?_concat, ih]
    cases least? c with
    | none => rfl
    | some b => exact congrArg some (hmono.monotone.map_min).symm

theorem rotated_map (c : List Nat) : rotated (c.map place) = (rotated c).map place := by
  unfold rotated
  rw [least?_map hmono]
  cases least? c with
  | none => rfl
  | some i =>
    have htest : (fun j => decide (j ≠ place i)) ∘ place = fun j => decide (j ≠ i) := by
      funext j
      simp [hmono.injective.eq_iff]
    simp only [Option.map_some, List.dropWhile_map, List.takeWhile_map, htest, List.map_append]

end Order

/-- A search for cycles with other places in place of its own. -/
def Search.map (place : Nat → Nat) (s : Search) : Search where
  covered := s.covered.map (Prod.map place place)
  found := s.found.map (·.map place)

section Embedded

variable {h g : Digraph FileKey} (hg : h.Embeds g place)

include hg

theorem cover_map {inside inside' : NumberSet} (hinside : Digraph.SameMembers place inside inside')
    (s : Search) {edge : Nat × Nat} {back : List Nat}
    (hback : h.pathWithin? inside edge.2 edge.1 = some back) :
    (s.map place).cover g inside' (Prod.map place place edge) =
      (s.cover h inside edge).map place := by
  have hinj := hg.strictMono.injective
  have hcovered : Prod.map place place edge ∈ (s.map place).covered ↔ edge ∈ s.covered :=
    List.mem_map_of_injective (hinj.prodMap hinj)
  have hback' := hg.pathWithin?_eq hinside hback
  unfold Search.cover
  by_cases hedge : edge ∈ s.covered
  · rw [if_pos hedge, if_pos (hcovered.mpr hedge)]
  · rw [if_neg hedge, if_neg fun hin => hedge (hcovered.mp hin), hback]
    simp only [Prod.map_fst, Prod.map_snd]
    rw [hback']
    -- the same cycle, and the same answer to whether it was found before
    have hcycle : place edge.1 :: (back.map place).dropLast =
        (edge.1 :: back.dropLast).map place := by
      rw [List.map_cons, List.map_dropLast]
    have hany : ((s.map place).found.any fun c =>
        rotated c == rotated ((edge.1 :: back.dropLast).map place)) =
        s.found.any fun c => rotated c == rotated (edge.1 :: back.dropLast) := by
      simp only [Search.map, List.any_map, Function.comp_def, rotated_map hg.strictMono]
      refine congrArg s.found.any (funext fun c => ?_)
      exact Bool.eq_iff_iff.mpr (by simp [(List.map_injective_iff.mpr hinj).eq_iff])
    simp only [hcycle, hany, edges_map]
    unfold Search.map
    split <;> simp

theorem foldl_cover_map {inside inside' : NumberSet}
    (hinside : Digraph.SameMembers place inside inside') {es : List (Nat × Nat)}
    (hback : ∀ e ∈ es, ∃ back, h.pathWithin? inside e.2 e.1 = some back) (s : Search) :
    (es.map (Prod.map place place)).foldl (·.cover g inside' ·) (s.map place) =
      (es.foldl (·.cover h inside ·) s).map place := by
  induction es generalizing s with
  | nil => rfl
  | cons e rest ih =>
    obtain ⟨⟨back, hback⟩, hrest⟩ := List.forall_mem_cons.mp hback
    rw [List.map_cons, List.foldl_cons, List.foldl_cons, cover_map hg hinside s hback]
    exact ih hrest _

/-- **The cycles of a component are found in the larger graph as well.** -/
theorem ofComponent_map (hh : h.WellFormed) {c : List Nat} (hc : c ∈ h.componentPlaces) :
    ofComponent g (c.map place) = (ofComponent h c).map (·.map place) := by
  have hinside := Digraph.sameMembers_ofList hg.strictMono.injective c
  have hedges : ((c.map place).flatMap fun i =>
      ((g.nextOf i).filter (· ∈ NumberSet.ofList (c.map place))).map (i, ·)) =
      (c.flatMap fun i => ((h.nextOf i).filter (· ∈ NumberSet.ofList c)).map (i, ·)).map
        (Prod.map place place) := by
    rw [List.flatMap_map, List.map_flatMap]
    refine List.flatMap_congr fun i _ => ?_
    have htest : (fun j => decide (j ∈ NumberSet.ofList (c.map place))) ∘ place =
        fun j => decide (j ∈ NumberSet.ofList c) :=
      funext fun j => decide_eq_decide.mpr (hinside j)
    rw [hg.next, List.filter_map, htest, List.map_map, List.map_map]
    rfl
  have hback : ∀ e ∈ c.flatMap fun i =>
      ((h.nextOf i).filter (· ∈ NumberSet.ofList c)).map (i, ·),
      ∃ back, h.pathWithin? (.ofList c) e.2 e.1 = some back := by
    intro e he
    obtain ⟨i, hi, hedge⟩ := List.mem_flatMap.mp he
    obtain ⟨j, hj, rfl⟩ := List.mem_map.mp hedge
    obtain ⟨hedge, hj⟩ := Digraph.mem_ends.mp hj
    exact Digraph.exists_pathWithin? hh (hh.lt_size i j hedge)
      (leads_inside hh hc (NumberSet.mem_ofList.mp hj) hi)
  unfold ofComponent
  dsimp only
  rw [hedges]
  exact congrArg Search.found (foldl_cover_map hg hinside hback {})

end Embedded

/-! ## The cycles that a file closes -/

section Closing

variable {g : Digraph FileKey} (hg : g.WellFormed) (hloop : ∀ i, ¬ g.Edge i i)

include hg hloop

/-- A component of one place has no cycles. -/
theorem ofComponent_eq_nil {c : List Nat} (hc : c ∈ g.componentPlaces) (hshort : ¬ 1 < c.length) :
    ofComponent g c = [] := by
  refine List.eq_nil_iff_forall_not_mem.mpr fun r hr => hshort ?_
  have hring := (ofComponent_spec hg hloop hc).1 r hr
  have hsub : r ⊆ c := fun i hi => NumberSet.mem_ofList.mp (hring.inside i hi)
  have hlong := hring.long
  have hle := (hring.nodup.subperm hsub).length_le
  omega

/-- The cycles of places that end at a place are those of its component. -/
theorem filter_rings {i : Nat} (hi : i < g.size) :
    (rings g).filter (·.getLast? == some i) =
      (ofComponent g (g.component i)).filter (·.getLast? == some i) := by
  have hcomponent := Digraph.component_mem_componentPlaces hg hi
  -- a cycle that ends at `i` is a cycle of the component with `i`
  have honly : ∀ c ∈ components g, c ≠ g.component i →
      (ofComponent g c).filter (·.getLast? == some i) = [] := by
    intro c hc hne
    refine List.filter_eq_nil_iff.mpr fun r hr hlast => hne ?_
    obtain ⟨hc, -⟩ := mem_components_iff.mp hc
    have hring := (ofComponent_spec hg hloop hc).1 r hr
    have hmem : i ∈ r := List.mem_of_getLast? (eq_of_beq hlast)
    exact (Digraph.mem_of_componentPlaces hg hc (NumberSet.mem_ofList.mp (hring.inside i hmem))).2
  unfold rings
  rw [List.filter_flatMap]
  by_cases hlong : 1 < (g.component i).length
  · exact flatMap_eq_of_unique nodup_components (mem_components_iff.mpr ⟨hcomponent, hlong⟩) honly
  · rw [ofComponent_eq_nil hg hloop hcomponent hlong]
    refine List.flatMap_eq_nil_iff.mpr fun c hc => honly c hc ?_
    rintro rfl
    exact hlong (mem_components_iff.mp hc).2

/-- **The cycles that a vertex closes are those of its component.** -/
theorem filter_all (hs : g.Simple) {i : Nat} {v : FileKey} (hv : g.vertices[i]? = some v) :
    (all g).filter (fun c => c.getLastD [] == v) =
      ((ofComponent g (g.component i)).filter (·.getLast? == some i)).map g.verticesAt := by
  rw [← filter_rings hg hloop (Digraph.lt_size_of_vertex hv)]
  have hall : all g = (rings g).map g.verticesAt := rfl
  rw [hall, List.filter_map]
  refine congrArg _ (List.filter_congr fun r hr => ?_)
  have hsize := lt_size_of_mem_rings hg hloop hr
  obtain ⟨c, -, hring⟩ := isRing_of_mem_rings hg hloop hr
  obtain ⟨front, last, rfl⟩ : ∃ front last, r = front ++ [last] := by
    rcases List.eq_nil_or_concat r with rfl | ⟨front, last, rfl⟩
    · exact absurd hring.long (by simp)
    · exact ⟨front, last, by simp⟩
  -- the last vertex is `v` if and only if the last place is that of `v`
  have hlast : vertexAt g last = v ↔ last = i := by
    have hvertex := vertex_eq (hsize last (by simp))
    constructor
    · intro heq
      exact hs.eq_of_vertex (heq ▸ hvertex) hv
    · rintro rfl
      exact Option.some.inj (hvertex.symm.trans hv)
  rw [Function.comp_apply, verticesAt_eq_map hsize, List.map_append, List.map_singleton,
    List.getLastD_concat, List.getLast?_concat]
  exact Bool.eq_iff_iff.mpr (by simp [hlast])

end Closing

/-- **The cycles that a vertex closes are the same in a graph that is inside another one.** -/
theorem filter_all_eq {h g : Digraph FileKey} (hembeds : h.Embeds g place) (hh : h.WellFormed)
    (hg : g.WellFormed) (hsimple : h.Simple) (hsimple' : g.Simple) (hloop : ∀ i, ¬ h.Edge i i)
    (hloop' : ∀ i, ¬ g.Edge i i) {i : Nat} {v : FileKey} (hv : h.vertices[i]? = some v) :
    (all g).filter (fun c => c.getLastD [] == v) = (all h).filter fun c => c.getLastD [] == v := by
  have hi : i < h.size := Digraph.lt_size_of_vertex hv
  rw [filter_all hg hloop' hsimple' ((hembeds.vertex i).trans hv), filter_all hh hloop hsimple hv,
    hembeds.component_eq hh hg hi,
    ofComponent_map hembeds hh (Digraph.component_mem_componentPlaces hh hi), List.filter_map,
    List.map_map]
  have htest : ((·.getLast? == some (place i)) ∘ fun r : List Nat => r.map place) =
      fun r : List Nat => r.getLast? == some i := by
    funext r
    simp only [Function.comp_apply, List.getLast?_map]
    cases r.getLast? with
    | none => rfl
    | some j => exact Bool.eq_iff_iff.mpr (by simp [hembeds.strictMono.injective.eq_iff])
  rw [htest]
  exact List.map_congr_left fun r _ => hembeds.verticesAt_eq r

end EffectAudit.Cycle
