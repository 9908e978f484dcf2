import EffectAudit.Data.OrderedMap
import EffectAudit.Data.Sorting
import EffectAudit.Path.Basic
import EffectAudit.Syntax.Span

/-!
# Compilation order

Files are put into an order in which each comes after the files that it depends on. Every file has a
count of the files that it still waits for. When a file is listed, it is counted off for all files
that depend on it, and those whose count comes down to zero can come next; of these the first in
path order does. One import may make several dependencies and several imports may make the same one;
a dependency counts once.

## Main definitions

* `ImportEdge`: a dependency between files
* `Schedule`: the files that wait and those that can come next
* `Schedule.list`: the files in the order in which they come up

## Main results

* `Schedule.size_foldl_release`: counting files off loses none
-/

namespace EffectAudit

/-- A dependency of one file on another through an import. -/
structure ImportEdge where
  importer : FileKey
  target : FileKey
  /-- The place of the import. -/
  span : Span
  deriving DecidableEq

namespace ModuleGraph

/-- The files that a file depends on, in path order. -/
def dependenciesIn (edges : List ImportEdge) (key : FileKey) : List FileKey :=
  dropRepeats (sorted ((edges.filter (·.importer == key)).map (·.target)))

/-- The files that depend on a file, in path order. -/
def dependentsIn (edges : List ImportEdge) (key : FileKey) : List FileKey :=
  dropRepeats (sorted ((edges.filter (·.target == key)).map (·.importer)))

end ModuleGraph

/-- Files that are not listed yet. -/
structure Schedule where
  /-- The files that have to wait, each with the number of files that it waits for. -/
  waiting : OrderedMap FileKey Nat := ∅
  /-- The files that can come next, in path order. -/
  ready : List FileKey := []

namespace Schedule

/-- The number of files that are not listed yet. -/
def size (s : Schedule) : Nat := s.ready.length + s.waiting.entries.length

/-- Puts a file among those that can come next. -/
def push (s : Schedule) (key : FileKey) : Schedule :=
  { s with ready := insertBy atMost key s.ready }

/-- Takes in a file. It waits for the live files that it depends on. -/
def enter (edges : List ImportEdge) (isLive : FileKey → Bool) (s : Schedule) (key : FileKey) :
    Schedule :=
  let count := ((ModuleGraph.dependenciesIn edges key).filter isLive).length
  if count = 0 then s.push key else { s with waiting := s.waiting.insert key count }

/-- The schedule of the live files among the given ones. -/
def start (edges : List ImportEdge) (isLive : FileKey → Bool) (files : List FileKey) : Schedule :=
  (files.filter isLive).foldl (enter edges isLive) {}

/-- Counts a listed file off for a file that depends on it, if that file waits. -/
def release (s : Schedule) (key : FileKey) : Schedule :=
  match s.waiting.get? key with
  | none => s
  | some count =>
    if count - 1 = 0 then ({ s with waiting := s.waiting.erase key } : Schedule).push key
    else { s with waiting := s.waiting.insert key (count - 1) }

theorem length_insertBy {α : Type} (le : α → α → Bool) (a : α) (l : List α) :
    (insertBy le a l).length = l.length + 1 := by
  induction l with
  | nil => rfl
  | cons b rest ih =>
    unfold insertBy
    split
    · rfl
    · rw [List.length_cons, ih, List.length_cons]

/-- A file that need not wait any more can come next instead. -/
theorem size_release (s : Schedule) (key : FileKey) : (s.release key).size = s.size := by
  unfold release
  split
  · rfl
  · rename_i count hcount
    split
    · have herase := OrderedMap.length_entries_erase hcount
      simp only [size, push, length_insertBy]
      omega
    · simp only [size, OrderedMap.length_entries_insert hcount]

theorem size_foldl_release (s : Schedule) (keys : List FileKey) :
    (keys.foldl release s).size = s.size := by
  induction keys generalizing s with
  | nil => rfl
  | cons key rest ih => rw [List.foldl_cons, ih, size_release]

/-- The files in the order in which they come up, until none can come next. -/
def list (edges : List ImportEdge) : Schedule → List FileKey
  | ⟨_, []⟩ => []
  | ⟨waiting, key :: ready⟩ =>
    key :: list edges ((ModuleGraph.dependentsIn edges key).foldl release ⟨waiting, ready⟩)
termination_by s => s.size
decreasing_by
  rw [size_foldl_release]
  simp only [size, List.length_cons]
  omega

end Schedule

end EffectAudit
