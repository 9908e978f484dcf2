import EffectAudit.Data.Digraph
import EffectAudit.Path.Basic

/-!
# Import cycles

The files on import cycles are those of the components with more than one file. Each import edge
inside a component is covered by a cycle that is reported: the edge followed by a shortest way back.
A cycle is reported once, wherever on it one starts. Files are given by their places in path order.

## Main definitions

* `Cycle.rotated`: the form of a cycle that starts at its first file in path order
* `Cycle.Search`, `Cycle.all`: the cycles that are reported
-/

namespace EffectAudit.Cycle

/-- The pairs of neighbours on a closed path, given without its last vertex. -/
def edges (cycle : List Nat) : List (Nat × Nat) := cycle.zip (cycle.drop 1 ++ cycle.take 1)

/-- The least of some places. -/
def least? (places : List Nat) : Option Nat :=
  places.foldl (fun best i =>
    match best with
    | none => some i
    | some b => if i < b then some i else some b) none

/-- The cycle from its least place on. -/
def rotated (cycle : List Nat) : List Nat :=
  match least? cycle with
  | none => cycle
  | some i => cycle.dropWhile (· ≠ i) ++ cycle.takeWhile (· ≠ i)

/-- The state of looking for cycles: edges that need no further cycle, and the cycles so far. -/
structure Search where
  covered : List (Nat × Nat) := []
  found : List (List Nat) := []

/-- Covers one edge inside a component. -/
def Search.cover (s : Search) (g : Digraph FileKey) (inside : NumberSet) (edge : Nat × Nat) :
    Search :=
  if edge ∈ s.covered then s
  else
    match g.pathWithin? inside edge.2 edge.1 with
    | none => s
    | some back =>
      let cycle := edge.1 :: back.dropLast
      { covered := s.covered ++ edges cycle
        found :=
          if s.found.any fun c => rotated c == rotated cycle then s.found
          else s.found ++ [cycle] }

/-- The cycles inside one component, found edge by edge in path order. -/
def ofComponent (g : Digraph FileKey) (component : List Nat) : List (List Nat) :=
  let inside := NumberSet.ofList component
  let all := component.flatMap fun i => ((g.nextOf i).filter (· ∈ inside)).map (i, ·)
  (all.foldl (·.cover g inside ·) ({} : Search)).found

/-- The components with more than one file, in the path order of their first files. -/
def components (g : Digraph FileKey) : List (List Nat) :=
  sortBy (fun c d => c.headD 0 ≤ d.headD 0) (g.componentPlaces.filter fun c => 1 < c.length)

/-- The files on a cycle. -/
def files (g : Digraph FileKey) : List FileKey := g.verticesAt (components g).flatten

/-- The cycles that are reported, each without its last file. -/
def all (g : Digraph FileKey) : List (List FileKey) :=
  ((components g).flatMap (ofComponent g)).map g.verticesAt

end EffectAudit.Cycle
