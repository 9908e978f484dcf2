import EffectAudit.Data.Digraph
import Mathlib.Data.Finset.Card
import Mathlib.Logic.Relation

/-!
# Searches find what is reachable

A search visits every place that edges lead to, and no other. It runs for as many rounds as there
are vertices, and this is enough: a round that does not end the search visits a place for the first
time.

## Main definitions

* `Digraph.WellFormed`: every vertex has its list of successors, and edges lead to vertices
* `Digraph.Edge`, `Digraph.Leads`: edges and sequences of edges between places
* `Digraph.Searches`: the invariant of a search

## Main results

* `Digraph.Searches.round`: what a round keeps
* `Digraph.mem_search_iff`: what a search has visited when it ends
* `Digraph.mem_reach_iff`: a place is found if and only if edges lead to it
-/

namespace EffectAudit.Digraph

open Relation

variable {α : Type}

/-- An edge leads from the vertex at one place to the vertex at another. -/
def Edge (g : Digraph α) (i j : Nat) : Prop := j ∈ g.nextOf i

/-- A sequence of edges, possibly empty, leads from one place to another. -/
def Leads (g : Digraph α) : Nat → Nat → Prop := ReflTransGen g.Edge

/-- Every vertex has its list of successors, and edges lead to vertices of the graph. -/
structure WellFormed (g : Digraph α) : Prop where
  next_size : g.next.size = g.size
  lt_size : ∀ i j, g.Edge i j → j < g.size

theorem WellFormed.lt_size_left {g : Digraph α} (hg : g.WellFormed) {i j : Nat}
    (h : g.Edge i j) : i < g.size := by
  by_contra hi
  have hn : g.nextOf i = [] := by
    unfold nextOf
    rw [Array.getD_eq_getD_getElem?, Array.getElem?_eq_none (by rw [hg.next_size]; omega)]
    rfl
  rw [Edge, hn] at h
  exact List.not_mem_nil h

theorem WellFormed.lt_size_of_leads {g : Digraph α} (hg : g.WellFormed) {i j : Nat}
    (h : g.Leads i j) (hi : i < g.size) : j < g.size := by
  rcases ReflTransGen.cases_tail h with rfl | ⟨k, -, hk⟩
  · exact hi
  · exact hg.lt_size k j hk

/-! ## One round -/

section Visit

variable {places : List Nat} {visited : NumberSet} {i : Nat}

theorem mem_visit_fst : i ∈ (visit places visited).1 ↔ i ∈ places ∧ i ∉ visited := by
  induction places generalizing visited with
  | nil => simp [visit]
  | cons j rest ih =>
    unfold visit
    split
    · rename_i hj
      rw [ih, List.mem_cons]
      constructor
      · rintro ⟨hi, hv⟩
        exact ⟨.inr hi, hv⟩
      · rintro ⟨rfl | hi, hv⟩
        · exact absurd hj hv
        · exact ⟨hi, hv⟩
    · rename_i hj
      simp only [List.mem_cons, ih, NumberSet.mem_insert, not_or]
      constructor
      · rintro (rfl | ⟨hi, -, hv⟩)
        · exact ⟨.inl rfl, hj⟩
        · exact ⟨.inr hi, hv⟩
      · rintro ⟨rfl | hi, hv⟩
        · exact .inl rfl
        · by_cases he : i = j
          · exact .inl he
          · exact .inr ⟨hi, he, hv⟩

theorem mem_visit_snd : i ∈ (visit places visited).2 ↔ i ∈ places ∨ i ∈ visited := by
  induction places generalizing visited with
  | nil => simp [visit]
  | cons j rest ih =>
    unfold visit
    split
    · rename_i hj
      rw [ih, List.mem_cons, or_assoc]
      refine ⟨.inr, ?_⟩
      rintro (rfl | h)
      · exact .inr hj
      · exact h
    · simp only [ih, NumberSet.mem_insert, List.mem_cons]
      exact or_left_comm.trans or_assoc.symm

end Visit

/-! ## All rounds -/

section Search

variable (g : Digraph α)

/-- The places of the graph that have been visited. -/
def visitedPlaces (visited : NumberSet) : Finset Nat :=
  (Finset.range g.size).filter (· ∈ visited)

variable {g}

theorem mem_visitedPlaces {visited : NumberSet} {i : Nat} :
    i ∈ g.visitedPlaces visited ↔ i < g.size ∧ i ∈ visited := by
  simp [visitedPlaces]

/-- A round that finds a place of the graph has visited more places than the round before. -/
theorem card_visitedPlaces_lt {visited visited' : NumberSet} {i : Nat}
    (hsub : ∀ j, j ∈ visited → j ∈ visited') (hi : i < g.size) (hv : i ∉ visited)
    (hv' : i ∈ visited') : (g.visitedPlaces visited).card < (g.visitedPlaces visited').card := by
  refine Finset.card_lt_card (Finset.ssubset_iff_of_subset ?_ |>.mpr ⟨i, ?_, ?_⟩)
  · intro j hj
    obtain ⟨hlt, hmem⟩ := mem_visitedPlaces.mp hj
    exact mem_visitedPlaces.mpr ⟨hlt, hsub j hmem⟩
  · exact mem_visitedPlaces.mpr ⟨hi, hv'⟩
  · exact fun h => hv (mem_visitedPlaces.mp h).2

/-- When as many places have been visited as there are, all have been. -/
theorem mem_of_size_le_card {visited : NumberSet}
    (h : g.size ≤ (g.visitedPlaces visited).card) {i : Nat} (hi : i < g.size) : i ∈ visited := by
  have hsub : g.visitedPlaces visited ⊆ Finset.range g.size := Finset.filter_subset _ _
  have heq := Finset.eq_of_subset_of_card_le hsub (by rwa [Finset.card_range])
  exact (mem_visitedPlaces.mp (heq ▸ Finset.mem_range.mpr hi)).2

/-- Edges do not lead out of a set that is closed under them. -/
theorem mem_of_leads {s : Nat → Prop} (hs : ∀ i j, s i → g.Edge i j → s j) {i j : Nat}
    (h : g.Leads i j) (hi : s i) : s j := by
  induction h with
  | refl => exact hi
  | tail _ he ih => exact hs _ _ ih he

/-- A set that is closed under edges is all that edges lead to from it. -/
theorem mem_iff_of_closed {visited : NumberSet}
    (hs : ∀ i j, i ∈ visited → g.Edge i j → j ∈ visited) (j : Nat) :
    j ∈ visited ↔ ∃ i, i ∈ visited ∧ g.Leads i j := by
  refine ⟨fun h => ⟨j, h, .refl⟩, ?_⟩
  rintro ⟨i, hi, h⟩
  exact mem_of_leads (s := (· ∈ visited)) hs h hi

/-- A search has visited its frontier, and has looked behind every other place that it has
visited. -/
structure Searches (g : Digraph α) (frontier : List Nat) (visited : NumberSet) : Prop where
  subset : ∀ i ∈ frontier, i ∈ visited
  closed : ∀ i j, i ∈ visited → i ∉ frontier → g.Edge i j → j ∈ visited

section Round

variable {frontier : List Nat} {visited : NumberSet} {k : Nat}

theorem mem_round_fst : k ∈ (visit (frontier.flatMap g.nextOf) visited).1 ↔
    (∃ i ∈ frontier, g.Edge i k) ∧ k ∉ visited := by
  rw [mem_visit_fst, List.mem_flatMap]
  rfl

theorem mem_round_snd : k ∈ (visit (frontier.flatMap g.nextOf) visited).2 ↔
    (∃ i ∈ frontier, g.Edge i k) ∨ k ∈ visited := by
  rw [mem_visit_snd, List.mem_flatMap]
  rfl

variable (h : g.Searches frontier visited)

include h

/-- After a round, what is left to look behind are the places that it visited for the first time. -/
theorem Searches.round : g.Searches (visit (frontier.flatMap g.nextOf) visited).1
    (visit (frontier.flatMap g.nextOf) visited).2 where
  subset i hi := mem_round_snd.mpr (.inl (mem_round_fst.mp hi).1)
  closed i k hi hfresh he := by
    have hv : i ∈ visited := by
      by_contra hv
      exact hfresh (mem_round_fst.mpr ⟨(mem_round_snd.mp hi).resolve_right hv, hv⟩)
    by_cases hf : i ∈ frontier
    · exact mem_round_snd.mpr (.inl ⟨i, hf, he⟩)
    · exact mem_round_snd.mpr (.inr (h.closed i k hv hf he))

/-- A round visits only places that edges lead to anyway. -/
theorem Searches.leads_round_iff {j : Nat} :
    (∃ i, i ∈ (visit (frontier.flatMap g.nextOf) visited).2 ∧ g.Leads i j) ↔
      ∃ i, i ∈ visited ∧ g.Leads i j := by
  constructor
  · rintro ⟨i, hi, hij⟩
    rcases mem_round_snd.mp hi with ⟨k, hk, he⟩ | hi
    · exact ⟨k, h.subset k hk, .head he hij⟩
    · exact ⟨i, hi, hij⟩
  · rintro ⟨i, hi, hij⟩
    exact ⟨i, mem_round_snd.mpr (.inr hi), hij⟩

end Round

/-- A search that has rounds left for all places it has not visited ends with the places that edges
lead to from those it has. -/
theorem mem_search_iff (hg : g.WellFormed) {rounds : Nat} {frontier : List Nat}
    {visited : NumberSet} (h : g.Searches frontier visited)
    (hr : g.size ≤ rounds + (g.visitedPlaces visited).card) (j : Nat) :
    j ∈ g.search rounds frontier visited ↔ ∃ i, i ∈ visited ∧ g.Leads i j := by
  induction rounds generalizing frontier visited with
  | zero =>
    -- no round is left because every place has been visited
    rw [search]
    refine mem_iff_of_closed (fun i k hi he => ?_) j
    exact mem_of_size_le_card (by omega) (hg.lt_size i k he)
  | succ rounds ih =>
    have hround := h.round
    rw [← h.leads_round_iff]
    unfold search
    split
    · -- nothing is new, so there is nothing left to look behind
      rename_i visited' heq
      rw [heq] at hround ⊢
      exact mem_iff_of_closed (fun i k hi he => hround.closed i k hi List.not_mem_nil he) j
    · -- a place is new, so fewer places are left than before
      rename_i fresh visited' hne heq
      obtain ⟨new, hnew⟩ := List.exists_mem_of_ne_nil fresh hne
      have hfirst : new ∈ (visit (frontier.flatMap g.nextOf) visited).1 := by rwa [heq]
      obtain ⟨⟨i, -, he⟩, hv⟩ := mem_round_fst.mp hfirst
      have hcard := card_visitedPlaces_lt (fun k hk => mem_round_snd.mpr (.inr hk))
        (hg.lt_size i new he) hv (hround.subset new hfirst)
      rw [heq] at hround hcard ⊢
      exact ih hround (by dsimp only at hcard; omega)

/-- **Searches are exact.** A place is found from given ones if and only if edges lead to it. -/
theorem mem_reach_iff (hg : g.WellFormed) {start : List Nat} {j : Nat} :
    j ∈ g.reach start ↔ ∃ i ∈ start, g.Leads i j := by
  have hv : ∀ i, i ∈ (visit start ∅).2 ↔ i ∈ start := fun i => by
    rw [mem_visit_snd]
    simp
  have hf : ∀ i, i ∈ (visit start ∅).1 ↔ i ∈ start := fun i => by
    rw [mem_visit_fst]
    simp
  have h : j ∈ g.search g.size (visit start ∅).1 (visit start ∅).2 ↔
      ∃ i, i ∈ (visit start ∅).2 ∧ g.Leads i j :=
    mem_search_iff hg ⟨fun i hi => (hv i).mpr ((hf i).mp hi),
      fun i k hi hif _ => absurd ((hf i).mpr ((hv i).mp hi)) hif⟩ (by omega) j
  simp only [hv] at h
  exact h

end Search

end EffectAudit.Digraph
