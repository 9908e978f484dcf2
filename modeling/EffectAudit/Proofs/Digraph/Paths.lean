import EffectAudit.Proofs.Digraph.Reach
import Mathlib.Data.List.Chain

/-!
# Searches for paths

A search for a path keeps, for every place that it came to in the last round, the path by which it
came there. These paths come to no place twice, as each round goes on to places that were not
visited before. If a path to the goal exists, the search ends with one: as long as it goes on it
visits new places, and once it visits no new ones it has visited all that can be reached.

## Main definitions

* `Digraph.IsPath`: paths inside a set of places
* `Digraph.Explores`, `Digraph.Seeks`: the invariants of a search, of what it has found and of what
  it can still find

## Main results

* `Digraph.isPath_of_pathWithin?`: what is found is a path
* `Digraph.exists_pathWithin?`: if the goal can be reached, a path is found
-/

namespace EffectAudit.Digraph

open Relation

variable {α : Type} {g : Digraph α} {inside : NumberSet}

/-- An edge leads from one place to another one that is in a set. -/
def EdgeInto (g : Digraph α) (inside : NumberSet) (i j : Nat) : Prop := g.Edge i j ∧ j ∈ inside

/-- Edges into a set lead from one place to another by way of the given ones, both ends included,
and come to none of them twice. -/
structure IsPath (g : Digraph α) (inside : NumberSet) (start goal : Nat) (path : List Nat) :
    Prop where
  head : path.head? = some start
  last : path.getLast? = some goal
  nodup : path.Nodup
  edges : path.IsChain (g.EdgeInto inside)

theorem isPath_singleton (i : Nat) : g.IsPath inside i i [i] :=
  ⟨rfl, rfl, List.nodup_singleton i, .singleton i⟩

theorem IsPath.concat {start i j : Nat} {path : List Nat} (h : g.IsPath inside start i path)
    (he : g.EdgeInto inside i j) (hj : j ∉ path) : g.IsPath inside start j (path ++ [j]) where
  head := by rw [List.head?_append, h.head, Option.some_or]
  last := List.getLast?_concat
  nodup := List.nodup_append.mpr ⟨h.nodup, List.nodup_singleton j, fun a ha b hb hab =>
    hj (List.mem_singleton.mp hb ▸ hab ▸ ha)⟩
  edges := by
    refine h.edges.append (.singleton j) fun a ha b hb => ?_
    rw [h.last, Option.mem_some_iff] at ha
    rw [List.head?_cons, Option.mem_some_iff] at hb
    exact ha ▸ hb ▸ he

/-! ## One round -/

/-- One of some paths, given with their last places first, comes to a place. -/
def EndsAt (paths : List (List Nat)) (i : Nat) : Prop := ∃ path ∈ paths, path.head? = some i

section Extend

variable {paths : List (List Nat)} {visited : NumberSet}

theorem extend_nil_cons :
    g.extend inside ([] :: paths) visited = g.extend inside paths visited := rfl

theorem extend_cons_cons (i : Nat) (path : List Nat) :
    g.extend inside ((i :: path) :: paths) visited =
      let round := visit ((g.nextOf i).filter (· ∈ inside)) visited
      let rest := g.extend inside paths round.2
      (round.1.map (· :: i :: path) ++ rest.1, rest.2) := rfl

theorem mem_ends {i j : Nat} :
    j ∈ (g.nextOf i).filter (· ∈ inside) ↔ g.EdgeInto inside i j := by
  rw [List.mem_filter, decide_eq_true_iff]
  rfl

theorem endsAt_cons_cons {i j : Nat} {path : List Nat} :
    EndsAt ((i :: path) :: paths) j ↔ i = j ∨ EndsAt paths j := by
  unfold EndsAt
  rw [List.exists_mem_cons_iff, List.head?_cons, Option.some.injEq]

theorem endsAt_nil_cons {j : Nat} : EndsAt ([] :: paths) j ↔ EndsAt paths j := by
  unfold EndsAt
  rw [List.exists_mem_cons_iff]
  exact or_iff_right (nomatch ·)

/-- A round goes on from the ends of paths to places that were not visited. -/
theorem of_mem_extend {path : List Nat} (h : path ∈ (g.extend inside paths visited).1) :
    ∃ i j rest, i :: rest ∈ paths ∧ g.EdgeInto inside i j ∧ j ∉ visited ∧
      path = j :: i :: rest := by
  induction paths generalizing visited with
  | nil => exact absurd h List.not_mem_nil
  | cons first paths ih =>
    cases first with
    | nil =>
      obtain ⟨i, j, rest, hmem, hrest⟩ := ih h
      exact ⟨i, j, rest, List.mem_cons_of_mem _ hmem, hrest⟩
    | cons i rest =>
      rw [extend_cons_cons] at h
      rcases List.mem_append.mp h with h | h
      · obtain ⟨j, hj, rfl⟩ := List.mem_map.mp h
        obtain ⟨he, hv⟩ := mem_visit_fst.mp hj
        exact ⟨i, j, rest, List.mem_cons_self, mem_ends.mp he, hv, rfl⟩
      · obtain ⟨i', j, rest', hmem, he, hv, rfl⟩ := ih h
        exact ⟨i', j, rest', List.mem_cons_of_mem _ hmem, he,
          fun hn => hv (mem_visit_snd.mpr (.inr hn)), rfl⟩

/-- A round visits all places that edges into the set lead to from the ends of paths. -/
theorem mem_extend_snd {j : Nat} :
    j ∈ (g.extend inside paths visited).2 ↔
      j ∈ visited ∨ ∃ i, EndsAt paths i ∧ g.EdgeInto inside i j := by
  induction paths generalizing visited with
  | nil => exact ⟨.inl, fun h => h.elim id fun ⟨_, ⟨_, hp, _⟩, _⟩ => absurd hp List.not_mem_nil⟩
  | cons first paths ih =>
    cases first with
    | nil =>
      rw [extend_nil_cons, ih]
      simp only [endsAt_nil_cons]
    | cons i rest =>
      rw [extend_cons_cons]
      dsimp only
      rw [ih, mem_visit_snd, mem_ends]
      simp only [endsAt_cons_cons, or_and_right, exists_or, exists_eq_left']
      tauto

/-- The places that a round visits for the first time are those that its paths come to. -/
theorem endsAt_extend {j : Nat} :
    EndsAt (g.extend inside paths visited).1 j ↔
      j ∈ (g.extend inside paths visited).2 ∧ j ∉ visited := by
  constructor
  · rintro ⟨path, hp, hj⟩
    obtain ⟨i, j', rest, hmem, he, hv, rfl⟩ := of_mem_extend hp
    cases hj
    exact ⟨mem_extend_snd.mpr (.inr ⟨i, ⟨_, hmem, rfl⟩, he⟩), hv⟩
  · induction paths generalizing visited with
    | nil => exact fun h => absurd h.1 h.2
    | cons first paths ih =>
      cases first with
      | nil => exact ih
      | cons i rest =>
        rw [extend_cons_cons]
        rintro ⟨hj, hv⟩
        by_cases hround : j ∈ (visit ((g.nextOf i).filter (· ∈ inside)) visited).2
        · -- the first path goes on to the place
          have hfresh := (mem_visit_snd.mp hround).resolve_right hv
          exact ⟨j :: i :: rest, List.mem_append_left _
            (List.mem_map.mpr ⟨j, mem_visit_fst.mpr ⟨hfresh, hv⟩, rfl⟩), rfl⟩
        · obtain ⟨path, hp, hhead⟩ := ih ⟨hj, hround⟩
          exact ⟨path, List.mem_append_right _ hp, hhead⟩

end Extend

/-! ## What is found -/

/-- The paths of a search start at one place and have visited their places. -/
structure Explores (g : Digraph α) (inside : NumberSet) (start : Nat) (paths : List (List Nat))
    (visited : NumberSet) : Prop where
  isPath : ∀ i path, i :: path ∈ paths → g.IsPath inside start i (i :: path).reverse
  visited : ∀ path ∈ paths, ∀ i ∈ path, i ∈ visited

theorem Explores.extend {start : Nat} {paths : List (List Nat)} {visited : NumberSet}
    (h : g.Explores inside start paths visited) :
    g.Explores inside start (g.extend inside paths visited).1
      (g.extend inside paths visited).2 where
  isPath j path hp := by
    obtain ⟨i, j', rest, hmem, he, hv, heq⟩ := of_mem_extend hp
    cases heq
    rw [List.reverse_cons]
    exact (h.isPath i rest hmem).concat he fun hj =>
      hv (h.visited _ hmem j (List.mem_reverse.mp hj))
  visited path hp j hj := by
    obtain ⟨i, j', rest, hmem, he, -, rfl⟩ := of_mem_extend hp
    rcases List.mem_cons.mp hj with rfl | hj
    · exact mem_extend_snd.mpr (.inr ⟨i, ⟨_, hmem, rfl⟩, he⟩)
    · exact mem_extend_snd.mpr (.inl (h.visited _ hmem j hj))

theorem isPath_of_searchPath {start goal rounds : Nat} {paths : List (List Nat)}
    {visited : NumberSet} (h : g.Explores inside start paths visited) {path : List Nat}
    (hpath : g.searchPath inside goal rounds paths visited = some path) :
    g.IsPath inside start goal path := by
  induction rounds generalizing paths visited with
  | zero => cases hpath
  | succ rounds ih =>
    unfold searchPath at hpath
    split at hpath
    · rename_i found hfind
      cases hpath
      have hgoal : found.head? = some goal := by simpa using List.find?_some hfind
      obtain ⟨rest, rfl⟩ := List.head?_eq_some_iff.mp hgoal
      exact h.isPath goal rest (List.mem_of_find?_eq_some hfind)
    · have hext := h.extend
      split at hpath
      · cases hpath
      · rename_i next visited' _ heq
        rw [heq] at hext
        exact ih hext hpath

/-- **What is found is a path.** -/
theorem isPath_of_pathWithin? {start goal : Nat} {path : List Nat}
    (h : g.pathWithin? inside start goal = some path) : g.IsPath inside start goal path := by
  refine isPath_of_searchPath ⟨fun i rest hp => ?_, fun path hp i hi => ?_⟩ h
  · cases List.mem_singleton.mp hp
    exact isPath_singleton start
  · rw [List.mem_singleton.mp hp] at hi
    exact NumberSet.mem_ofList.mpr hi

/-! ## That a path is found -/

theorem card_visitedPlaces_le (visited : NumberSet) : (g.visitedPlaces visited).card ≤ g.size := by
  unfold visitedPlaces
  exact (Finset.card_filter_le _ _).trans (Finset.card_range g.size).le

/-- A search for a path has visited its start, has gone on from all places that it visited but the
ends of its paths, and has not gone on from the goal. -/
structure Seeks (g : Digraph α) (inside : NumberSet) (start goal : Nat) (paths : List (List Nat))
    (visited : NumberSet) : Prop where
  start_mem : start ∈ visited
  closed : ∀ i j, i ∈ visited → ¬ EndsAt paths i → g.EdgeInto inside i j → j ∈ visited
  goal_ends : goal ∈ visited → EndsAt paths goal

namespace Seeks

variable {start goal : Nat} {paths : List (List Nat)} {visited : NumberSet}

theorem extend (h : g.Seeks inside start goal paths visited) (hmissed : goal ∉ visited) :
    g.Seeks inside start goal (g.extend inside paths visited).1
      (g.extend inside paths visited).2 where
  start_mem := mem_extend_snd.mpr (.inl h.start_mem)
  closed i j hi hend he := by
    have hv : i ∈ visited := by
      by_contra hv
      exact hend (endsAt_extend.mpr ⟨hi, hv⟩)
    by_cases hold : EndsAt paths i
    · exact mem_extend_snd.mpr (.inr ⟨i, hold, he⟩)
    · exact mem_extend_snd.mpr (.inl (h.closed i j hv hold he))
  goal_ends hgoal := endsAt_extend.mpr ⟨hgoal, hmissed⟩

/-- A search comes to its end without a path only if the goal cannot be reached. -/
theorem not_reaches (h : g.Seeks inside start goal [] visited) :
    ¬ ReflTransGen (g.EdgeInto inside) start goal := by
  intro hreach
  have hend : ∀ i, ¬ EndsAt [] i := fun i ⟨_, hp, _⟩ => List.not_mem_nil hp
  have hall : ∀ j, ReflTransGen (g.EdgeInto inside) start j → j ∈ visited := by
    intro j hj
    induction hj with
    | refl => exact h.start_mem
    | tail _ he ih => exact h.closed _ _ ih (hend _) he
  exact hend goal (h.goal_ends (hall goal hreach))

end Seeks

/-- A search that has rounds left for all places it has not visited finds a path, if the goal can be
reached. -/
theorem exists_searchPath (hg : g.WellFormed) {start goal rounds : Nat} {paths : List (List Nat)}
    {visited : NumberSet} (hreach : ReflTransGen (g.EdgeInto inside) start goal)
    (h : g.Seeks inside start goal paths visited)
    (hr : g.size < rounds + (g.visitedPlaces visited).card) :
    ∃ path, g.searchPath inside goal rounds paths visited = some path := by
  induction rounds generalizing paths visited with
  | zero =>
    have := g.card_visitedPlaces_le visited
    omega
  | succ rounds ih =>
    unfold searchPath
    split
    · exact ⟨_, rfl⟩
    · rename_i hfind
      have hmissed : goal ∉ visited := by
        intro hv
        obtain ⟨path, hp, hhead⟩ := h.goal_ends hv
        exact List.find?_eq_none.mp hfind path hp (by simp [hhead])
      have hext := h.extend hmissed
      split
      · rename_i visited' heq
        rw [heq] at hext
        exact absurd hreach hext.not_reaches
      · -- a path goes on to a new place, so fewer places are left than before
        rename_i next visited' hne heq
        obtain ⟨path, hpath⟩ := List.exists_mem_of_ne_nil next hne
        have hlonger : path ∈ (g.extend inside paths visited).1 := by rwa [heq]
        obtain ⟨i, j, rest, -, he, hv, rfl⟩ := of_mem_extend hlonger
        have hj : j ∈ (g.extend inside paths visited).2 :=
          (endsAt_extend.mp ⟨_, hlonger, rfl⟩).1
        have hcard := g.card_visitedPlaces_lt (fun k hk => mem_extend_snd.mpr (.inl hk))
          (hg.lt_size i j he.1) hv hj
        rw [heq] at hext hcard
        exact ih hext (by dsimp only at hcard; omega)

/-- **A path is found** if edges into the set lead to the goal. -/
theorem exists_pathWithin? (hg : g.WellFormed) {start goal : Nat} (hs : start < g.size)
    (h : ReflTransGen (g.EdgeInto inside) start goal) :
    ∃ path, g.pathWithin? inside start goal = some path := by
  have hmem : start ∈ NumberSet.ofList [start] :=
    NumberSet.mem_ofList.mpr (List.mem_singleton_self start)
  have hends : ∀ i, i ∈ NumberSet.ofList [start] → EndsAt [[start]] i := by
    intro i hi
    rw [List.mem_singleton.mp (NumberSet.mem_ofList.mp hi)]
    exact ⟨[start], List.mem_singleton_self _, rfl⟩
  have hcard : 0 < (g.visitedPlaces (.ofList [start])).card :=
    Finset.card_pos.mpr ⟨start, mem_visitedPlaces.mpr ⟨hs, hmem⟩⟩
  exact exists_searchPath hg h ⟨hmem, fun i j hi hend => absurd (hends i hi) hend, hends goal⟩
    (by omega)

end EffectAudit.Digraph
