import EffectAudit.Data.NumberSet
import EffectAudit.Data.Sorting

/-!
# Directed graphs

Graphs on finitely many vertices. The vertices stand in a fixed order, and an edge is kept by the
place of the vertex that it leads to, so that searches work on places alone. They run in rounds: a
round visits the successors of what the round before found. A search that goes on finds a new vertex
in every round, so there are at most as many rounds as vertices.

## Main definitions

* `Digraph`, `Digraph.Reaches`: graphs, and reachability by edges
* `Digraph.upstream`: the vertices that reach one of the given ones
* `Digraph.components`: the strongly connected components, successors first
* `Digraph.pathWithin?`: a shortest path
-/

namespace EffectAudit

/-- A directed graph. -/
structure Digraph (α : Type) where
  vertices : Array α
  /-- The places of the successors of each vertex. -/
  next : Array (List Nat)

namespace Digraph

variable {α : Type}

/-- The graph on the vertices of a list, where edges that lead elsewhere are left out. -/
def ofSuccessors [DecidableEq α] (vertices : List α) (successors : α → List α) : Digraph α where
  vertices := vertices.toArray
  next := (vertices.map fun v => (successors v).filterMap fun w => vertices.idxOf? w).toArray

/-- The number of vertices. -/
def size (g : Digraph α) : Nat := g.vertices.size

/-- The places of all vertices. -/
def places (g : Digraph α) : List Nat := List.range g.size

/-- The place of a vertex. -/
def place? [DecidableEq α] (g : Digraph α) (v : α) : Option Nat := g.vertices.toList.idxOf? v

/-- The vertices at given places. -/
def verticesAt (g : Digraph α) (places : List Nat) : List α := places.filterMap (g.vertices[·]?)

/-- The places of the successors of the vertex at a place. -/
def nextOf (g : Digraph α) (i : Nat) : List Nat := g.next.getD i []

/-- The places of the predecessors of the vertex at a place. -/
def previousOf (g : Digraph α) (i : Nat) : List Nat :=
  g.places.filter fun j => i ∈ g.nextOf j

/-- The vertices that an edge leads to from a vertex. -/
def successors [DecidableEq α] (g : Digraph α) (v : α) : List α :=
  ((g.place? v).map fun i => g.verticesAt (g.nextOf i)).getD []

/-- The vertices from which an edge leads to a vertex. -/
def predecessors [DecidableEq α] (g : Digraph α) (v : α) : List α :=
  ((g.place? v).map fun i => g.verticesAt (g.previousOf i)).getD []

/-- `g.Reaches a b` holds when a sequence of edges, possibly empty, leads from `a` to `b`. -/
inductive Reaches [DecidableEq α] (g : Digraph α) : α → α → Prop
  | refl (a : α) : Reaches g a a
  | step {a b c : α} : b ∈ g.successors a → Reaches g b c → Reaches g a c

/-! ## Reachability -/

/-- Adds places to those that were visited, and lists the ones that are new. -/
def visit : List Nat → NumberSet → List Nat × NumberSet
  | [], visited => ([], visited)
  | i :: rest, visited =>
    if i ∈ visited then visit rest visited
    else
      let (fresh, visited) := visit rest (visited.insert i)
      (i :: fresh, visited)

/-- What has been visited after the given number of rounds, where `frontier` is what the last round
found. -/
def search (g : Digraph α) : Nat → List Nat → NumberSet → NumberSet
  | 0, _, visited => visited
  | rounds + 1, frontier, visited =>
    match visit (frontier.flatMap g.nextOf) visited with
    | ([], visited) => visited
    | (fresh, visited) => search g rounds fresh visited

/-- The places reachable from given ones, these included. -/
def reach (g : Digraph α) (start : List Nat) : NumberSet :=
  let (fresh, visited) := visit start ∅
  g.search g.size fresh visited

/-! ## Reachability backwards -/

section Upstream

variable [DecidableEq α]

/-- What a vertex can put on a stack, and the vertex itself, unless it has been seen. -/
def cost (g : Digraph α) (seen : List α) (v : α) : Nat :=
  if v ∈ seen then 0 else (g.predecessors v).length + 1

/-- What all vertices together can put on a stack. -/
def unseen (g : Digraph α) (seen : List α) : Nat :=
  g.vertices.toList.foldr (fun v n => g.cost seen v + n) 0

theorem cost_cons_le (g : Digraph α) (seen : List α) (u v : α) :
    g.cost (v :: seen) u ≤ g.cost seen u := by
  unfold cost
  by_cases hu : u ∈ seen
  · exact Nat.le_of_eq ((if_pos (List.mem_cons_of_mem _ hu)).trans (if_pos hu).symm)
  · rw [if_neg hu]
    split
    · exact Nat.zero_le _
    · exact Nat.le_refl _

theorem predecessors_of_not_mem {g : Digraph α} {v : α} (h : v ∉ g.vertices.toList) :
    g.predecessors v = [] := by
  have hplace : g.place? v = none := List.idxOf?_eq_none_iff.mpr h
  unfold predecessors
  rw [hplace]
  rfl

/-- A vertex that is seen for the first time makes up for what it puts on the stack. -/
theorem unseen_cons {g : Digraph α} {v : α} {seen : List α} (h : v ∉ seen) :
    g.unseen (v :: seen) + (g.predecessors v).length ≤ g.unseen seen := by
  have hle : ∀ l : List α, l.foldr (fun u n => g.cost (v :: seen) u + n) 0 ≤
      l.foldr (fun u n => g.cost seen u + n) 0 := by
    intro l
    induction l with
    | nil => exact Nat.le_refl 0
    | cons u rest ih => exact Nat.add_le_add (g.cost_cons_le seen u v) ih
  have hmem : ∀ l : List α, v ∈ l → l.foldr (fun u n => g.cost (v :: seen) u + n) 0
      + (g.predecessors v).length ≤ l.foldr (fun u n => g.cost seen u + n) 0 := by
    intro l
    induction l with
    | nil => exact fun hv => absurd hv List.not_mem_nil
    | cons u rest ih =>
      intro hv
      simp only [List.foldr_cons]
      rcases List.mem_cons.mp hv with rfl | hv
      · have hseen : g.cost (v :: seen) v = 0 := if_pos List.mem_cons_self
        have hunseen : g.cost seen v = (g.predecessors v).length + 1 := if_neg h
        have hrest := hle rest
        omega
      · have hhead := g.cost_cons_le seen u v
        have hrest := ih hv
        omega
  by_cases hv : v ∈ g.vertices.toList
  · exact hmem _ hv
  · rw [predecessors_of_not_mem hv]
    exact hle _

/-- What has been seen when the stack is empty. The vertex on top of the stack is taken off and,
unless it has been seen already, its predecessors are put on. -/
def gatherUpstream (g : Digraph α) : List α → List α → List α
  | [], seen => seen
  | v :: stack, seen =>
    if v ∈ seen then gatherUpstream g stack seen
    else
      let fresh := (g.predecessors v).filter (· ∉ v :: seen)
      gatherUpstream g (fresh.reverse ++ stack) (v :: seen)
termination_by stack seen => g.unseen seen + stack.length
decreasing_by
  · simp only [List.length_cons]
    omega
  · rename_i hv
    have hseen := unseen_cons (g := g) hv
    have hfresh := List.length_filter_le (· ∉ v :: seen) (g.predecessors v)
    simp only [List.length_append, List.length_reverse, List.length_cons]
    omega

/-- The given vertices and those that reach one of them. -/
def upstream (g : Digraph α) (start : List α) : List α := g.gatherUpstream start.reverse []

end Upstream

/-! ## Components -/

/-- What is reachable from each place. -/
def reachTable (g : Digraph α) : Array NumberSet := (g.places.map fun i => g.reach [i]).toArray

/-- The places that a place reaches and that reach it, according to a table. -/
def componentIn (g : Digraph α) (table : Array NumberSet) (i : Nat) : List Nat :=
  let reached := table.getD i ∅
  g.places.filter fun j => j ∈ reached ∧ i ∈ table.getD j ∅

/-- The places of the strongly connected components, each in ascending order. A component that
reaches fewer vertices comes first, so that a component comes after those it leads to. -/
def componentPlaces (g : Digraph α) : List (List Nat) :=
  let table := g.reachTable
  let first := (g.places.map fun i => (i, g.componentIn table i)).filter fun (i, c) =>
    c.head? = some i
  let weighed := first.map fun (i, c) =>
    let reached := table.getD i ∅
    ((g.places.filter (· ∈ reached)).length, c)
  (sortBy (fun c d => c.1 ≤ d.1) weighed).map (·.2)

/-- The strongly connected components, each in the order of the vertices, and each after those it
leads to. -/
def components (g : Digraph α) : List (List α) := g.componentPlaces.map g.verticesAt

/-! ## Shortest paths -/

/-- The paths of the next round of a search inside a set of places, and what has been visited then.
Paths stand with their last place first. A place is visited by the first path that comes to it. -/
def extend (g : Digraph α) (inside : NumberSet) :
    List (List Nat) → NumberSet → List (List Nat) × NumberSet
  | [], visited => ([], visited)
  | path :: rest, visited =>
    let ends := match path with
      | [] => []
      | i :: _ => (g.nextOf i).filter (· ∈ inside)
    let (fresh, visited) := visit ends visited
    let (paths, visited) := extend g inside rest visited
    (fresh.map (· :: path) ++ paths, visited)

/-- The first path to the goal that is found in the given number of rounds. -/
def searchPath (g : Digraph α) (inside : NumberSet) (goal : Nat) :
    Nat → List (List Nat) → NumberSet → Option (List Nat)
  | 0, _, _ => none
  | rounds + 1, paths, visited =>
    match paths.find? (·.head? == some goal) with
    | some path => some path.reverse
    | none =>
      match g.extend inside paths visited with
      | ([], _) => none
      | (next, visited) => searchPath g inside goal rounds next visited

/-- A shortest path between two places through a set of places, both ends included. Of several
shortest paths it is the one that a search finds first which follows successors in their order. -/
def pathWithin? (g : Digraph α) (inside : NumberSet) (start goal : Nat) : Option (List Nat) :=
  g.searchPath inside goal (g.size + 1) [[start]] (.ofList [start])

end Digraph

end EffectAudit
