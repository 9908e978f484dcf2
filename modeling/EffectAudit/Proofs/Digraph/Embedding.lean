import EffectAudit.Proofs.Digraph.Components
import EffectAudit.Proofs.Digraph.Paths
import Mathlib.Data.List.NodupEquivFin
import Mathlib.Data.List.Sort
import Mathlib.Order.WellFounded

/-!
# Graphs inside other graphs

A set of vertices that no edge leads out of makes a graph of its own. Its places are numbered anew,
but in the order that they had, and searches that start inside it run just as they do in the larger
graph: they come to the same vertices in the same order. Only the number of rounds that they may
take is another one, which makes no difference to a search that finds what it looks for.

## Main definitions

* `Digraph.Embeds`: a graph inside another one, with the places that its own places stand for

## Main results

* `Digraph.Embeds.pathWithin?_eq`: shortest paths in both graphs
* `Digraph.Embeds.component_eq`: components in both graphs
* `Digraph.exists_embeds`: the graph of a set of vertices that no edge leads out of
-/

namespace EffectAudit.Digraph

open Relation

variable {α : Type} {h g : Digraph α} {place : Nat → Nat}

/-- The places of a graph stand for places of another one: these are in the same order, have the
same vertices, and edges lead from them to the same places. -/
structure Embeds (h g : Digraph α) (place : Nat → Nat) : Prop where
  strictMono : StrictMono place
  vertex : ∀ i : Nat, g.vertices[place i]? = h.vertices[i]?
  next : ∀ i, g.nextOf (place i) = (h.nextOf i).map place

/-- A set of places and the set of places that these stand for. -/
def SameMembers (place : Nat → Nat) (s s' : NumberSet) : Prop := ∀ i, place i ∈ s' ↔ i ∈ s

/-! ## Searches -/

section Searches

variable {s s' inside inside' visited visited' : NumberSet}

theorem sameMembers_ofList (hinj : Function.Injective place) (l : List Nat) :
    SameMembers place (.ofList l) (.ofList (l.map place)) := by
  intro i
  rw [NumberSet.mem_ofList, NumberSet.mem_ofList]
  exact List.mem_map_of_injective hinj

theorem visit_map (hinj : Function.Injective place) (hs : SameMembers place s s') (l : List Nat) :
    (visit (l.map place) s').1 = (visit l s).1.map place ∧
      SameMembers place (visit l s).2 (visit (l.map place) s').2 := by
  constructor
  · induction l generalizing s s' with
    | nil => rfl
    | cons i rest ih =>
      rw [List.map_cons]
      unfold visit
      by_cases hi : i ∈ s
      · rw [if_pos hi, if_pos ((hs i).mpr hi)]
        exact ih hs
      · rw [if_neg hi, if_neg fun h => hi ((hs i).mp h)]
        refine congrArg (place i :: ·) (ih fun j => ?_)
        rw [NumberSet.mem_insert, NumberSet.mem_insert, hinj.eq_iff, hs j]
  · intro j
    rw [mem_visit_snd, mem_visit_snd, hs j, List.mem_map_of_injective hinj]

variable (hg : h.Embeds g place) (hinside : SameMembers place inside inside')

include hg hinside

theorem Embeds.extend_map (hv : SameMembers place visited visited') (paths : List (List Nat)) :
    (g.extend inside' (paths.map (·.map place)) visited').1 =
        (h.extend inside paths visited).1.map (·.map place) ∧
      SameMembers place (h.extend inside paths visited).2
        (g.extend inside' (paths.map (·.map place)) visited').2 := by
  induction paths generalizing visited visited' with
  | nil => exact ⟨rfl, hv⟩
  | cons path rest ih =>
    rw [List.map_cons]
    cases path with
    | nil => exact ih hv
    | cons i path =>
      -- from the end of the first path, and then from the others
      have hends : (g.nextOf (place i)).filter (· ∈ inside') =
          ((h.nextOf i).filter (· ∈ inside)).map place := by
        rw [hg.next, List.filter_map]
        refine congrArg _ (List.filter_congr fun j _ => ?_)
        exact decide_eq_decide.mpr (hinside j)
      obtain ⟨hfresh, hv'⟩ :=
        visit_map hg.strictMono.injective hv ((h.nextOf i).filter (· ∈ inside))
      obtain ⟨hrest, hv''⟩ := ih hv'
      rw [List.map_cons, extend_cons_cons, extend_cons_cons]
      dsimp only
      rw [hends, hfresh, hrest]
      refine ⟨?_, hv''⟩
      simp [Function.comp_def]

/-- A search that takes the same number of rounds finds the same path. -/
theorem Embeds.searchPath_map (goal : Nat) (rounds : Nat) (paths : List (List Nat))
    (hv : SameMembers place visited visited') :
    g.searchPath inside' (place goal) rounds (paths.map (·.map place)) visited' =
      (h.searchPath inside goal rounds paths visited).map (·.map place) := by
  induction rounds generalizing paths visited visited' with
  | zero => rfl
  | succ rounds ih =>
    have hfind : (paths.map (·.map place)).find? (·.head? == some (place goal)) =
        (paths.find? (·.head? == some goal)).map (·.map place) := by
      rw [List.find?_map]
      refine congrArg (Option.map _) (congrArg (List.find? · paths) (funext fun path => ?_))
      cases path with
      | nil => rfl
      | cons i rest => simp [hg.strictMono.injective.eq_iff]
    obtain ⟨hnext, hv'⟩ := hg.extend_map hinside hv paths
    unfold searchPath
    rw [hfind]
    cases paths.find? (·.head? == some goal) with
    | some path => simp
    | none =>
      generalize g.extend inside' (paths.map (·.map place)) visited' = round' at hnext hv'
      generalize h.extend inside paths visited = round at hnext hv'
      obtain ⟨paths', visited'⟩ := round'
      obtain ⟨paths, visited⟩ := round
      dsimp only at hnext hv'
      subst hnext
      cases paths with
      | nil => rfl
      | cons path rest => exact ih (path :: rest) hv'

end Searches

/-- More rounds do not change the path that is found. -/
theorem searchPath_mono {inside : NumberSet} {goal rounds rounds' : Nat} {paths : List (List Nat)}
    {visited : NumberSet} {path : List Nat} (hle : rounds ≤ rounds')
    (hpath : g.searchPath inside goal rounds paths visited = some path) :
    g.searchPath inside goal rounds' paths visited = some path := by
  induction rounds generalizing rounds' paths visited with
  | zero => cases hpath
  | succ rounds ih =>
    obtain ⟨rounds', rfl⟩ : ∃ n, rounds' = n + 1 := ⟨rounds' - 1, by omega⟩
    unfold searchPath at hpath ⊢
    split at hpath
    · exact hpath
    · split at hpath
      · cases hpath
      · exact ih (by omega) hpath

namespace Embeds

variable (hg : h.Embeds g place)

include hg

theorem lt_size_iff {i : Nat} : place i < g.size ↔ i < h.size := by
  have hvertex := hg.vertex i
  constructor
  · intro hi
    obtain ⟨v, hv⟩ := exists_vertex hi
    exact lt_size_of_vertex (hvertex.symm.trans hv)
  · intro hi
    obtain ⟨v, hv⟩ := exists_vertex hi
    exact lt_size_of_vertex (hvertex.trans hv)

theorem size_le : h.size ≤ g.size := by
  by_contra hlt
  have hlast : place g.size < g.size := hg.lt_size_iff.mpr (by omega)
  have hle : g.size ≤ place g.size := StrictMono.le_apply hg.strictMono
  omega

/-- **A shortest path inside a graph is one in the larger graph.** -/
theorem pathWithin?_eq {inside inside' : NumberSet} (hinside : SameMembers place inside inside')
    {start goal : Nat} {path : List Nat} (hpath : h.pathWithin? inside start goal = some path) :
    g.pathWithin? inside' (place start) (place goal) = some (path.map place) := by
  have hvisited : SameMembers place (.ofList [start]) (.ofList [place start]) :=
    sameMembers_ofList hg.strictMono.injective [start]
  have hsearch := hg.searchPath_map hinside goal (h.size + 1) [[start]] hvisited
  have hsize := hg.size_le
  unfold pathWithin? at hpath
  rw [hpath] at hsearch
  exact searchPath_mono (by omega) hsearch

/-! ## Components -/

theorem edge_iff {i k : Nat} : g.Edge (place i) k ↔ ∃ j, h.Edge i j ∧ place j = k := by
  unfold Edge
  rw [hg.next, List.mem_map]

/-- No edge leads out of the graph. -/
theorem leads_iff {i k : Nat} : g.Leads (place i) k ↔ ∃ j, h.Leads i j ∧ place j = k := by
  constructor
  · intro hl
    induction hl with
    | refl => exact ⟨i, .refl, rfl⟩
    | tail _ hedge ih =>
      obtain ⟨j, hj, rfl⟩ := ih
      obtain ⟨l, hl, rfl⟩ := hg.edge_iff.mp hedge
      exact ⟨l, hj.tail hl, rfl⟩
  · rintro ⟨j, hj, rfl⟩
    induction hj with
    | refl => exact .refl
    | tail _ hedge ih => exact ih.tail (hg.edge_iff.mpr ⟨_, hedge, rfl⟩)

theorem leads_place_iff {i j : Nat} : g.Leads (place i) (place j) ↔ h.Leads i j := by
  rw [hg.leads_iff]
  constructor
  · rintro ⟨k, hk, heq⟩
    rw [← hg.strictMono.injective heq]
    exact hk
  · intro hj
    exact ⟨j, hj, rfl⟩

/-- **A component of a graph is one of the larger graph.** -/
theorem component_eq (hh : h.WellFormed) (hwf : g.WellFormed) {i : Nat} (hi : i < h.size) :
    g.component (place i) = (h.component i).map place := by
  have hsorted : ((h.component i).map place).Pairwise (· < ·) :=
    List.pairwise_map.mpr ((pairwise_lt_component i).imp fun hlt => hg.strictMono hlt)
  have hmem : ∀ k, k ∈ g.component (place i) ↔ k ∈ (h.component i).map place := by
    intro k
    rw [mem_component hwf (hg.lt_size_iff.mpr hi), List.mem_map]
    simp only [mem_component hh hi]
    constructor
    · rintro ⟨hik, hki⟩
      obtain ⟨j, hj, rfl⟩ := hg.leads_iff.mp hik
      exact ⟨j, ⟨hj, hg.leads_place_iff.mp hki⟩, rfl⟩
    · rintro ⟨j, ⟨hij, hji⟩, rfl⟩
      exact ⟨hg.leads_place_iff.mpr hij, hg.leads_place_iff.mpr hji⟩
  -- two ascending lists with the same members
  have hperm : (g.component (place i)).Perm ((h.component i).map place) :=
    (List.perm_ext_iff_of_nodup ((pairwise_lt_component _).imp Nat.ne_of_lt)
      (hsorted.imp Nat.ne_of_lt)).mpr hmem
  exact hperm.eq_of_pairwise (fun _ _ _ _ hab hba => absurd hab (Nat.lt_asymm hba))
    (pairwise_lt_component _) hsorted

theorem verticesAt_eq (places : List Nat) :
    g.verticesAt (places.map place) = h.verticesAt places := by
  unfold verticesAt
  rw [List.filterMap_map]
  exact List.filterMap_congr fun i _ => hg.vertex i

end Embeds

/-! ## Closed sets of vertices -/

section Closed

variable [DecidableEq α]

theorem nextOf_ofSuccessors {vs : List α} {succ : α → List α} {i : Nat} :
    (ofSuccessors vs succ).nextOf i =
      ((vs[i]?).map fun v => (succ v).filterMap fun w => vs.idxOf? w).getD [] := by
  unfold nextOf ofSuccessors
  rw [Array.getD_eq_getD_getElem?, List.getElem?_toArray, List.getElem?_map]

/-- **The vertices that pass a test make a graph of their own**, if no edge leads from one of them
to a vertex that does not. -/
theorem exists_embeds {vs : List α} (hnodup : vs.Nodup) {keep : α → Bool} {succ succ' : α → List α}
    (hsame : ∀ v ∈ vs, keep v = true → succ' v = succ v)
    (hclosed : ∀ v ∈ vs, keep v = true → ∀ w ∈ succ v, w ∈ vs → keep w = true) :
    ∃ place, (ofSuccessors (vs.filter keep) succ').Embeds (ofSuccessors vs succ) place := by
  obtain ⟨place, hplace⟩ :=
    List.sublist_iff_exists_orderEmbedding_getElem?_eq.mp
      (List.filter_sublist (p := keep) (l := vs))
  -- a vertex that is kept has the place that its new place stands for
  have hidx : ∀ w, (w ∈ vs → keep w = true) →
      vs.idxOf? w = ((vs.filter keep).idxOf? w).map place := by
    intro w hw
    cases hj : (vs.filter keep).idxOf? w with
    | none =>
      have hnot : w ∉ vs := by
        intro hmem
        rw [List.idxOf?_eq_none_iff] at hj
        exact hj (List.mem_filter.mpr ⟨hmem, hw hmem⟩)
      exact List.idxOf?_eq_none_iff.mpr hnot
    | some j =>
      obtain ⟨hlt, hget, -⟩ := List.idxOf?_eq_some_iff.mp hj
      have hvertex : vs[place j]? = some w := by
        rw [← hplace, List.getElem?_eq_getElem hlt, hget]
      have hs : (ofSuccessors vs succ).Simple := simple_ofSuccessors hnodup
      exact (place?_eq_some_iff hs).mpr (vertex_ofSuccessors.trans hvertex)
  refine ⟨place, place.strictMono, ?_, ?_⟩
  · intro i
    rw [vertex_ofSuccessors, vertex_ofSuccessors]
    exact (hplace i).symm
  · intro i
    rw [nextOf_ofSuccessors, nextOf_ofSuccessors, ← hplace]
    cases hv : (vs.filter keep)[i]? with
    | none => rfl
    | some v =>
      obtain ⟨hmem, hkeep⟩ := List.mem_filter.mp (List.mem_of_getElem? hv)
      simp only [Option.map_some, Option.getD_some, List.map_filterMap, hsame v hmem hkeep]
      exact List.filterMap_congr fun w hw => hidx w (hclosed v hmem hkeep w hw)

end Closed

end EffectAudit.Digraph
