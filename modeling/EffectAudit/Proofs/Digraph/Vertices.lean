import EffectAudit.Proofs.Digraph.Reach
import EffectAudit.Proofs.Lists

/-!
# Vertices and their places

In a graph whose vertices are all different a vertex has one place, and what holds between places
holds between the vertices at them.

## Main results

* `Digraph.reaches_iff_leads`: vertices reach each other as edges lead between their places
* `Digraph.mem_predecessors_iff`: predecessors and successors
* `Digraph.mem_successors_ofSuccessors`: the edges of a graph that is given by successors
-/

namespace EffectAudit.Digraph

open Relation

variable {α : Type} {g : Digraph α}

theorem mem_places {i : Nat} : i ∈ g.places ↔ i < g.size := List.mem_range

theorem mem_verticesAt {places : List Nat} {v : α} :
    v ∈ g.verticesAt places ↔ ∃ i ∈ places, g.vertices[i]? = some v := List.mem_filterMap

theorem lt_size_of_vertex {i : Nat} {v : α} (h : g.vertices[i]? = some v) : i < g.size :=
  (Array.getElem?_eq_some_iff.mp h).1

theorem exists_vertex {i : Nat} (h : i < g.size) : ∃ v, g.vertices[i]? = some v :=
  ⟨_, Array.getElem?_eq_getElem h⟩

/-- Different places hold different vertices. -/
def Simple (g : Digraph α) : Prop := g.vertices.toList.Nodup

theorem Simple.eq_of_vertex (hs : g.Simple) {i j : Nat} {v : α} (hi : g.vertices[i]? = some v)
    (hj : g.vertices[j]? = some v) : i = j := by
  rw [← Array.getElem?_toList] at hi hj
  have hlt : i < g.vertices.toList.length := (List.getElem?_eq_some_iff.mp hi).1
  exact (List.getElem?_inj hlt hs).mp (hi.trans hj.symm)

theorem exists_place {v : α} (h : v ∈ g.vertices.toList) : ∃ i : Nat, g.vertices[i]? = some v := by
  obtain ⟨i, hi, hv⟩ := List.mem_iff_getElem.mp h
  exact ⟨i, by rw [← Array.getElem?_toList, List.getElem?_eq_getElem hi, hv]⟩

theorem mem_vertices_of_place {i : Nat} {v : α} (h : g.vertices[i]? = some v) :
    v ∈ g.vertices.toList := by
  rw [← Array.getElem?_toList] at h
  exact List.mem_of_getElem? h

theorem verticesAt_cons {i : Nat} {v : α} (h : g.vertices[i]? = some v) (places : List Nat) :
    g.verticesAt (i :: places) = v :: g.verticesAt places := List.filterMap_cons_some h

/-! ## Places of vertices -/

section Places

variable [DecidableEq α]

theorem place?_eq_some_iff (hs : g.Simple) {v : α} {i : Nat} :
    g.place? v = some i ↔ g.vertices[i]? = some v := by
  unfold place?
  rw [idxOf?_eq_some_iff_of_nodup hs, Array.getElem?_toList]

theorem mem_successors_iff (hs : g.Simple) {v w : α} :
    w ∈ g.successors v ↔
      ∃ i j, g.vertices[i]? = some v ∧ g.Edge i j ∧ g.vertices[j]? = some w := by
  unfold successors
  cases hp : g.place? v with
  | none =>
    refine ⟨fun h => absurd h List.not_mem_nil, ?_⟩
    rintro ⟨i, -, hi, -, -⟩
    rw [← place?_eq_some_iff hs, hp] at hi
    cases hi
  | some i =>
    rw [place?_eq_some_iff hs] at hp
    rw [Option.map_some, Option.getD_some, mem_verticesAt]
    constructor
    · rintro ⟨j, hj, hw⟩
      exact ⟨i, j, hp, hj, hw⟩
    · rintro ⟨i', j, hi', hj, hw⟩
      exact ⟨j, hs.eq_of_vertex hi' hp ▸ hj, hw⟩

/-- The predecessors of a vertex are those of which it is a successor. -/
theorem mem_predecessors_iff (hg : g.WellFormed) (hs : g.Simple) {v w : α} :
    w ∈ g.predecessors v ↔ v ∈ g.successors w := by
  rw [mem_successors_iff hs]
  unfold predecessors
  cases hp : g.place? v with
  | none =>
    refine ⟨fun h => absurd h List.not_mem_nil, ?_⟩
    rintro ⟨-, j, -, -, hj⟩
    rw [← place?_eq_some_iff hs, hp] at hj
    cases hj
  | some j =>
    rw [place?_eq_some_iff hs] at hp
    rw [Option.map_some, Option.getD_some, mem_verticesAt]
    constructor
    · rintro ⟨i, hi, hw⟩
      have hnext : j ∈ g.nextOf i := of_decide_eq_true (List.mem_filter.mp hi).2
      exact ⟨i, j, hw, hnext, hp⟩
    · rintro ⟨i, j', hw, hedge, hj'⟩
      obtain rfl := hs.eq_of_vertex hj' hp
      have hnext : j' ∈ g.nextOf i := hedge
      have hplace := mem_places.mpr (hg.lt_size_left hedge)
      exact ⟨i, List.mem_filter.mpr ⟨hplace, decide_eq_true hnext⟩, hw⟩

theorem reaches_iff_reflTransGen {v w : α} :
    g.Reaches v w ↔ ReflTransGen (fun a b => b ∈ g.successors a) v w := by
  constructor
  · intro h
    induction h with
    | refl a => exact .refl
    | step hb _ ih => exact .head hb ih
  · intro h
    induction h using ReflTransGen.head_induction_on with
    | refl => exact .refl _
    | head hb _ ih => exact .step hb ih

theorem Reaches.trans {u v w : α} (h : g.Reaches u v) (h' : g.Reaches v w) : g.Reaches u w :=
  reaches_iff_reflTransGen.mpr
    ((reaches_iff_reflTransGen.mp h).trans (reaches_iff_reflTransGen.mp h'))

theorem Reaches.single {v w : α} (h : w ∈ g.successors v) : g.Reaches v w :=
  .step h (.refl w)

/-- Vertices reach each other as edges lead between their places. -/
theorem reaches_iff_leads (hg : g.WellFormed) (hs : g.Simple) {v w : α} {i j : Nat}
    (hv : g.vertices[i]? = some v) (hw : g.vertices[j]? = some w) :
    g.Reaches v w ↔ g.Leads i j := by
  constructor
  · intro h
    induction h generalizing i with
    | refl a => exact hs.eq_of_vertex hv hw ▸ .refl
    | step hb _ ih =>
      obtain ⟨i', k, hi', he, hk⟩ := (mem_successors_iff hs).mp hb
      exact .head (hs.eq_of_vertex hi' hv ▸ he) (ih hk hw)
  · intro h
    induction h using ReflTransGen.head_induction_on generalizing v with
    | refl =>
      rw [hv, Option.some.injEq] at hw
      exact hw ▸ .refl v
    | head he _ ih =>
      obtain ⟨u, hu⟩ := exists_vertex (hg.lt_size _ _ he)
      exact .step ((mem_successors_iff hs).mpr ⟨_, _, hv, he, hu⟩) (ih hu)

/-- What a vertex reaches is a vertex. -/
theorem Reaches.exists_vertex (hs : g.Simple) {v w : α} {i : Nat} (hv : g.vertices[i]? = some v)
    (h : g.Reaches v w) : ∃ j : Nat, g.vertices[j]? = some w := by
  rcases ReflTransGen.cases_tail (reaches_iff_reflTransGen.mp h) with rfl | ⟨u, -, hu⟩
  · exact ⟨i, hv⟩
  · obtain ⟨-, j, -, -, hj⟩ := (mem_successors_iff hs).mp hu
    exact ⟨j, hj⟩

/-! ## Graphs given by successors -/

section OfSuccessors

variable {vs : List α} {succ : α → List α}

theorem simple_ofSuccessors (h : vs.Nodup) : (ofSuccessors vs succ).Simple := h

theorem vertex_ofSuccessors {i : Nat} :
    (ofSuccessors vs succ).vertices[i]? = vs[i]? := by
  simp [ofSuccessors]

theorem size_ofSuccessors : (ofSuccessors vs succ).size = vs.length := by
  simp [size, ofSuccessors]

theorem edge_ofSuccessors {i j : Nat} :
    (ofSuccessors vs succ).Edge i j ↔
      ∃ v ∈ vs[i]?, ∃ w ∈ succ v, vs.idxOf? w = some j := by
  unfold Edge nextOf ofSuccessors
  rw [Array.getD_eq_getD_getElem?, List.getElem?_toArray, List.getElem?_map]
  cases vs[i]? with
  | none => simp
  | some v => simp [List.mem_filterMap]

theorem wellFormed_ofSuccessors : (ofSuccessors vs succ).WellFormed where
  next_size := by simp [size, ofSuccessors]
  lt_size i j h := by
    obtain ⟨v, -, w, -, hj⟩ := edge_ofSuccessors.mp h
    rw [size_ofSuccessors]
    exact (List.idxOf?_eq_some_iff.mp hj).1

/-- The edges of a graph that is given by successors: those that lead to a vertex. -/
theorem mem_successors_ofSuccessors (h : vs.Nodup) {v w : α} :
    w ∈ (ofSuccessors vs succ).successors v ↔ v ∈ vs ∧ w ∈ vs ∧ w ∈ succ v := by
  have hs : (ofSuccessors vs succ).Simple := simple_ofSuccessors h
  rw [mem_successors_iff hs]
  simp only [vertex_ofSuccessors, edge_ofSuccessors]
  constructor
  · rintro ⟨i, j, hi, ⟨v', hv', w', hw', hidx⟩, hj⟩
    have hvv : v' = v := Option.some_inj.mp (hv'.symm.trans hi)
    obtain ⟨hlt, hat, -⟩ := List.idxOf?_eq_some_iff.mp hidx
    have hww : w' = w := by
      rw [List.getElem?_eq_getElem hlt, hat] at hj
      exact Option.some_inj.mp hj
    exact ⟨List.mem_of_getElem? hi, List.mem_of_getElem? hj, hww ▸ hvv ▸ hw'⟩
  · rintro ⟨hv, hw, hsucc⟩
    obtain ⟨i, hi⟩ := List.mem_iff_getElem?.mp hv
    obtain ⟨j, hj⟩ := exists_place (g := ofSuccessors vs succ) hw
    refine ⟨i, j, hi, ⟨v, hi, w, hsucc, (place?_eq_some_iff hs).mpr hj⟩, ?_⟩
    rwa [vertex_ofSuccessors] at hj

end OfSuccessors

end Places

end EffectAudit.Digraph
