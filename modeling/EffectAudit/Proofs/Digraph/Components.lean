import EffectAudit.Proofs.Digraph.Vertices
import EffectAudit.Proofs.Sorting

/-!
# Components

The components of a graph are the classes of places that edges lead between in both directions. They
are listed successors first: a component reaches more places than any other component that it leads
to, and the list is in the order of these numbers.

## Main definitions

* `Digraph.SuccessorsFirst`: the components of a graph, each after those that it leads to

## Main results

* `Digraph.mem_componentPlaces_iff`: what the components are
* `Digraph.successorsFirst_components`: the computed components are complete and in order
-/

namespace EffectAudit.Digraph

open Relation

variable {α : Type} {g : Digraph α}

/-- The places that a place reaches and that reach it. -/
def component (g : Digraph α) (i : Nat) : List Nat := g.componentIn g.reachTable i

theorem getD_reachTable {i : Nat} (hi : i < g.size) : g.reachTable.getD i ∅ = g.reach [i] := by
  unfold reachTable places
  rw [Array.getD_eq_getD_getElem?, List.getElem?_toArray, List.getElem?_map,
    List.getElem?_range hi]
  rfl

theorem mem_reach_singleton (hg : g.WellFormed) {i j : Nat} :
    j ∈ g.reach [i] ↔ g.Leads i j := by
  rw [mem_reach_iff hg]
  simp

theorem mem_component (hg : g.WellFormed) {i j : Nat} (hi : i < g.size) :
    j ∈ g.component i ↔ g.Leads i j ∧ g.Leads j i := by
  unfold component componentIn
  rw [List.mem_filter, mem_places, decide_eq_true_eq, getD_reachTable hi, mem_reach_singleton hg]
  constructor
  · rintro ⟨hj, hij, hji⟩
    rw [getD_reachTable hj, mem_reach_singleton hg] at hji
    exact ⟨hij, hji⟩
  · rintro ⟨hij, hji⟩
    have hj : j < g.size := hg.lt_size_of_leads hij hi
    rw [getD_reachTable hj, mem_reach_singleton hg]
    exact ⟨hj, hij, hji⟩

theorem pairwise_lt_component (i : Nat) : (g.component i).Pairwise (· < ·) :=
  List.pairwise_lt_range.filter _

/-- Places that lead to each other have one component. -/
theorem component_eq (hg : g.WellFormed) {i j : Nat} (hi : i < g.size) (hij : g.Leads i j)
    (hji : g.Leads j i) : g.component j = g.component i := by
  have hj : j < g.size := hg.lt_size_of_leads hij hi
  unfold component componentIn
  refine List.filter_congr fun k hk => ?_
  -- both lists keep some of the places in their order, so it is enough that they keep the same
  have hmem : k ∈ g.component j ↔ k ∈ g.component i := by
    rw [mem_component hg hj, mem_component hg hi]
    exact ⟨fun h => ⟨hij.trans h.1, h.2.trans hji⟩, fun h => ⟨hji.trans h.1, h.2.trans hij⟩⟩
  unfold component componentIn at hmem
  rw [List.mem_filter, List.mem_filter] at hmem
  refine Bool.eq_iff_iff.mpr ⟨fun h => (hmem.mp ⟨hk, h⟩).2, fun h => (hmem.mpr ⟨hk, h⟩).2⟩

/-! ## The list of components -/

/-- The number of places that a place reaches. -/
def weight (g : Digraph α) (i : Nat) : Nat := (g.visitedPlaces (g.reach [i])).card

/-- The components by number of places that they reach, each with this number. -/
def weighedComponents (g : Digraph α) : List (Nat × List Nat) :=
  ((g.places.map fun i => (i, g.component i)).filter fun e => e.2.head? = some e.1).map
    fun e => (g.weight e.1, e.2)

theorem mem_weighedComponents {n : Nat} {c : List Nat} :
    (n, c) ∈ g.weighedComponents ↔
      ∃ i < g.size, n = g.weight i ∧ c = g.component i ∧ c.head? = some i := by
  unfold weighedComponents
  simp only [List.mem_map, List.mem_filter, mem_places, decide_eq_true_eq, Prod.exists]
  constructor
  · rintro ⟨i, c, ⟨⟨i', hi, he⟩, hh⟩, he'⟩
    cases he
    cases he'
    exact ⟨i, hi, rfl, rfl, hh⟩
  · rintro ⟨i, hi, rfl, rfl, hh⟩
    exact ⟨i, _, ⟨⟨i, hi, rfl⟩, hh⟩, rfl⟩

theorem componentPlaces_eq :
    g.componentPlaces = (sortBy (fun c d => c.1 ≤ d.1) g.weighedComponents).map (·.2) := by
  have hw : g.weighedComponents = ((g.places.map fun i => (i, g.component i)).filter
      fun e => e.2.head? = some e.1).map fun e =>
        ((g.places.filter (· ∈ g.reachTable.getD e.1 ∅)).length, e.2) := by
    refine List.map_congr_left fun e he => ?_
    obtain ⟨i, hi, rfl⟩ := List.mem_map.mp (List.mem_filter.mp he).1
    simp only [getD_reachTable (mem_places.mp hi)]
    rfl
  rw [hw]
  rfl

/-- The components are those that start at their own place. -/
theorem mem_componentPlaces_iff {c : List Nat} :
    c ∈ g.componentPlaces ↔ ∃ i < g.size, c = g.component i ∧ c.head? = some i := by
  rw [componentPlaces_eq]
  simp only [List.mem_map, mem_sortBy, Prod.exists, mem_weighedComponents]
  constructor
  · rintro ⟨_, c, ⟨i, hi, -, hc, hh⟩, rfl⟩
    exact ⟨i, hi, hc, hh⟩
  · rintro ⟨i, hi, hc, hh⟩
    exact ⟨_, c, ⟨i, hi, rfl, hc, hh⟩, rfl⟩

theorem mem_of_componentPlaces (hg : g.WellFormed) {c : List Nat} (hc : c ∈ g.componentPlaces)
    {i : Nat} (hi : i ∈ c) : i < g.size ∧ c = g.component i := by
  obtain ⟨m, hm, rfl, -⟩ := mem_componentPlaces_iff.mp hc
  obtain ⟨hmi, him⟩ := (mem_component hg hm).mp hi
  exact ⟨hg.lt_size_of_leads hmi hm, (component_eq hg hm hmi him).symm⟩

/-- Every place is in a component. -/
theorem component_mem_componentPlaces (hg : g.WellFormed) {i : Nat} (hi : i < g.size) :
    g.component i ∈ g.componentPlaces := by
  have hself : i ∈ g.component i := (mem_component hg hi).mpr ⟨.refl, .refl⟩
  -- the component is listed for its first place, which need not be `i`
  obtain ⟨m, rest, hc⟩ := List.exists_cons_of_ne_nil (List.ne_nil_of_mem hself)
  have hm : m ∈ g.component i := hc ▸ List.mem_cons_self
  obtain ⟨him, hmi⟩ := (mem_component hg hi).mp hm
  refine mem_componentPlaces_iff.mpr ⟨m, hg.lt_size_of_leads him hi, ?_, by rw [hc]; rfl⟩
  exact (component_eq hg hi him hmi).symm

theorem mem_of_mem_componentPlaces (hg : g.WellFormed) {c : List Nat} (hc : c ∈ g.componentPlaces)
    {i j : Nat} (hi : i ∈ c) : j ∈ c ↔ g.Leads i j ∧ g.Leads j i := by
  obtain ⟨hlt, hci⟩ := mem_of_componentPlaces hg hc hi
  rw [hci, mem_component hg hlt]

/-! ## The order of components -/

theorem weight_lt (hg : g.WellFormed) {i j : Nat} (hi : i < g.size) (hij : g.Leads i j)
    (hji : ¬ g.Leads j i) : g.weight j < g.weight i := by
  refine card_visitedPlaces_lt (fun k hk => ?_) hi ?_ ?_
  · rw [mem_reach_singleton hg] at hk ⊢
    exact hij.trans hk
  · rwa [mem_reach_singleton hg]
  · rw [mem_reach_singleton hg]
    exact .refl

theorem nodup_componentPlaces : g.componentPlaces.Nodup := by
  rw [componentPlaces_eq]
  refine ((perm_sortBy _ _).map _).nodup_iff.mpr ?_
  -- a component is listed for one place only, the first one in it
  have hnd : (g.places.map fun i => (i, g.component i)).Pairwise fun d e => d.1 ≠ e.1 :=
    List.pairwise_map.mpr List.nodup_range
  refine List.pairwise_map.mpr (List.pairwise_map.mpr ?_)
  refine (hnd.filter _).imp_of_mem fun hd he hne heq => hne ?_
  have hhd := of_decide_eq_true (List.mem_filter.mp hd).2
  have hhe := of_decide_eq_true (List.mem_filter.mp he).2
  rw [heq, hhe] at hhd
  exact (Option.some_inj.mp hhd).symm

theorem pairwise_weight_componentPlaces :
    g.componentPlaces.Pairwise fun c d =>
      ∀ i ∈ c.head?, ∀ j ∈ d.head?, g.weight i ≤ g.weight j := by
  have hw : ∀ {c : Nat × List Nat} {i : Nat},
      c ∈ sortBy (fun c d => c.1 ≤ d.1) g.weighedComponents → i ∈ c.2.head? →
      c.1 = g.weight i := by
    intro c i hc hi
    obtain ⟨k, -, hk, -, hh⟩ := mem_weighedComponents.mp (mem_sortBy.mp hc)
    exact hk.trans (congrArg g.weight (Option.some_inj.mp (hh.symm.trans hi)))
  have hsorted := pairwise_sortBy (fun c d : Nat × List Nat => decide (c.1 ≤ d.1))
    (fun a b => by simp only [decide_eq_true_eq]; omega)
    (fun a b c => by simp only [decide_eq_true_eq]; omega) g.weighedComponents
  rw [componentPlaces_eq]
  refine List.pairwise_map.mpr (hsorted.imp_of_mem fun hc hd hle i hi j hj => ?_)
  rw [← hw hc hi, ← hw hd hj]
  exact of_decide_eq_true hle

/-- A component does not lead to those that are listed behind it. -/
theorem pairwise_componentPlaces (hg : g.WellFormed) :
    g.componentPlaces.Pairwise fun c d => ∀ i ∈ c, ∀ j ∈ d, ¬ g.Leads i j := by
  refine (pairwise_weight_componentPlaces.and nodup_componentPlaces).imp_of_mem
    fun {c d} hc hd h i hi j hj hij => ?_
  obtain ⟨m, hm, rfl, hcm⟩ := mem_componentPlaces_iff.mp hc
  obtain ⟨n, hn, rfl, hdn⟩ := mem_componentPlaces_iff.mp hd
  obtain ⟨hmi, him⟩ := (mem_component hg hm).mp hi
  obtain ⟨hnj, hjn⟩ := (mem_component hg hn).mp hj
  have hmn : g.Leads m n := (hmi.trans hij).trans hjn
  -- if `c` led to `d`, it would reach more places than `d`, and be listed behind it
  by_cases hnm : g.Leads n m
  · exact h.2 (component_eq hg hm hmn hnm).symm
  · have hle := h.1 m hcm n hdn
    have hlt := weight_lt hg hm hmn hnm
    omega

/-! ## Components of vertices -/

/-- The components of a graph in an order in which each comes after those that it leads to: every
vertex is in one of them, the members of one reach each other, and no member reaches a member of a
later one. -/
structure SuccessorsFirst [DecidableEq α] (g : Digraph α) (components : List (List α)) : Prop where
  covers : ∀ v, v ∈ g.vertices.toList ↔ ∃ c ∈ components, v ∈ c
  connected : ∀ c ∈ components, ∀ v ∈ c, ∀ w ∈ c, g.Reaches v w
  ordered : components.Pairwise fun c d => ∀ v ∈ c, ∀ w ∈ d, ¬ g.Reaches v w

/-- **Components come after their successors.** -/
theorem successorsFirst_components [DecidableEq α] (hg : g.WellFormed) (hs : g.Simple) :
    g.SuccessorsFirst g.components where
  covers v := by
    simp only [components, List.mem_map]
    constructor
    · intro hv
      obtain ⟨i, hi⟩ := exists_place hv
      have hlt := lt_size_of_vertex hi
      refine ⟨_, ⟨_, component_mem_componentPlaces hg hlt, rfl⟩, ?_⟩
      exact mem_verticesAt.mpr ⟨i, (mem_component hg hlt).mpr ⟨.refl, .refl⟩, hi⟩
    · rintro ⟨_, ⟨c, -, rfl⟩, hv⟩
      obtain ⟨i, -, hi⟩ := mem_verticesAt.mp hv
      exact mem_vertices_of_place hi
  connected := by
    intro c hc v hv w hw
    obtain ⟨places, hp, rfl⟩ := List.mem_map.mp hc
    obtain ⟨i, hi, hvi⟩ := mem_verticesAt.mp hv
    obtain ⟨j, hj, hwj⟩ := mem_verticesAt.mp hw
    rw [reaches_iff_leads hg hs hvi hwj]
    exact ((mem_of_mem_componentPlaces hg hp hi).mp hj).1
  ordered := by
    refine List.pairwise_map.mpr ((pairwise_componentPlaces hg).imp fun {c d} h v hv w hw hr => ?_)
    obtain ⟨i, hi, hvi⟩ := mem_verticesAt.mp hv
    obtain ⟨j, hj, hwj⟩ := mem_verticesAt.mp hw
    exact h i hi j hj ((reaches_iff_leads hg hs hvi hwj).mp hr)

/-- No component has a vertex twice. -/
theorem nodup_of_mem_components (hs : g.Simple) {c : List α} (hc : c ∈ g.components) : c.Nodup := by
  obtain ⟨places, hp, rfl⟩ := List.mem_map.mp hc
  obtain ⟨i, -, rfl, -⟩ := mem_componentPlaces_iff.mp hp
  refine List.Nodup.filterMap (fun i j v hi hj => hs.eq_of_vertex hi hj) ?_
  exact (pairwise_lt_component i).imp Nat.ne_of_lt

end EffectAudit.Digraph
