import EffectAudit.Modules.Cycle
import EffectAudit.Proofs.Digraph.Components
import EffectAudit.Proofs.Digraph.Paths
import Mathlib.Data.List.Rotate
import Mathlib.Data.List.TakeWhile

/-!
# The cycles of a graph

The cycles that are reported are cycles, none is a rotation of another one, and every edge that is
part of a cycle is on one that is reported. The argument is about cycles of places in one component:
an edge is covered by the cycle that it closes, or by an earlier one; a cycle is left out only if a
rotation of it was found before, which has the same edges.

## Main definitions

* `Cycle.IsRing`: closed paths, given without their last place
* `Cycle.Search.Sound`: the invariant of looking for cycles

## Main results

* `Cycle.rotated_eq_iff`: cycles with one normal form are rotations of each other
* `Cycle.sound_cover`: covering an edge keeps the invariant
* `Cycle.isRing_of_mem_rings`, `Cycle.pairwise_rings`, `Cycle.exists_ring`: the cycles of places
* `Cycle.isCycle_of_mem_all`, `Cycle.pairwise_all`, `Cycle.exists_mem_all`: the cycles of vertices
* `Cycle.mem_files_iff`: the files on cycles are those that lead back to themselves
-/

namespace EffectAudit.Cycle

open Relation

/-! ## Rotations -/

section Rotations

variable {c d : List Nat}

theorem edges_eq_zip (c : List Nat) : edges c = c.zip (c.rotate 1) := by
  cases c with
  | nil => rfl
  | cons i rest =>
    rw [List.rotate_cons_succ, List.rotate_zero]
    rfl

theorem edges_rotate (c : List Nat) (n : Nat) : edges (c.rotate n) = (edges c).rotate n := by
  rw [edges_eq_zip, edges_eq_zip, List.zip_eq_zipWith, List.zip_eq_zipWith,
    List.zipWith_rotate_distrib _ _ _ _ (List.length_rotate c 1).symm, List.rotate_rotate,
    List.rotate_rotate, Nat.add_comm]

/-- Rotations have the same edges. -/
theorem mem_edges_of_isRotated (h : c ~r d) {e : Nat × Nat} (he : e ∈ edges c) : e ∈ edges d := by
  obtain ⟨n, rfl⟩ := h
  rw [edges_rotate]
  exact List.mem_rotate.mpr he

/-- The edges of a cycle are the neighbours on the closed path. -/
theorem mem_edges_iff {i j : Nat} : (i, j) ∈ edges c ↔ [i, j] <:+: c ++ c.take 1 := by
  have h : ∀ (rest : List Nat) (first last : Nat),
      (i, j) ∈ (first :: rest).zip (rest ++ [last]) ↔ [i, j] <:+: first :: rest ++ [last] := by
    -- for any closing place: the rest of a cycle is not closed by its own first place
    intro rest
    induction rest with
    | nil => simp [List.infix_cons_iff]
    | cons k rest ih =>
      intro first last
      refine List.mem_cons.trans ((or_congr ?_ (ih k last)).trans List.infix_cons_iff.symm)
      simp
  cases c with
  | nil => simp [edges]
  | cons first rest => exact h rest first first

theorem least?_concat (c : List Nat) (i : Nat) :
    least? (c ++ [i]) = some ((least? c).elim i (min · i)) := by
  unfold least?
  rw [List.foldl_append, List.foldl_cons, List.foldl_nil]
  generalize c.foldl _ none = best
  cases best with
  | none => rfl
  | some b =>
    dsimp only [Option.elim]
    split <;> congr 1 <;> omega

theorem least?_eq_min? (c : List Nat) : least? c = c.min? := by
  cases c with
  | nil => rfl
  | cons i rest =>
    rw [List.min?_cons']
    induction rest using List.reverseRecOn with
    | nil => rfl
    | append_singleton rest j ih =>
      rw [← List.cons_append, least?_concat, ih, List.foldl_append]
      rfl

theorem isRotated_rotated (c : List Nat) : c ~r rotated c := by
  unfold rotated
  split
  · exact .refl c
  · rename_i i _
    refine ⟨(c.takeWhile (· ≠ i)).length, ?_⟩
    nth_rewrite 1 [← List.takeWhile_append_dropWhile (p := (· ≠ i)) (l := c)]
    exact List.rotate_append_length_eq _ _

theorem head?_rotated (c : List Nat) : (rotated c).head? = c.min? := by
  unfold rotated
  rw [least?_eq_min?]
  cases h : c.min? with
  | none => rw [List.min?_eq_none_iff.mp h]; rfl
  | some i =>
    -- the least place is not dropped, so what remains starts there
    have hdrop : c.dropWhile (· ≠ i) ≠ [] := by
      rw [Ne, List.dropWhile_eq_nil_iff]
      exact fun hall => by simpa using hall i (List.min?_mem h)
    have hhead : (c.dropWhile (· ≠ i)).head hdrop = i := by
      simpa using List.head_dropWhile_not (· ≠ i) hdrop
    rw [List.head?_append, List.head?_eq_some_head hdrop, hhead, Option.some_or]

theorem eq_of_isRotated_of_head? (hc : c.Nodup) (h : c ~r d) (hh : c.head? = d.head?) :
    c = d := by
  obtain ⟨n, rfl⟩ := h
  rcases c.eq_nil_or_concat with rfl | hne
  · rw [List.rotate_nil]
  have hlen : 0 < c.length := by
    obtain ⟨rest, i, rfl⟩ := hne
    simp
  -- the first place of the rotation stands at `n`, and no place occurs twice
  have hn : 0 = n % c.length := by
    refine (List.getElem?_inj hlen hc).mp ?_
    rw [← List.head?_rotate (Nat.mod_lt n hlen), List.rotate_mod, ← hh, List.head?_eq_getElem?]
  rw [← List.rotate_mod, ← hn, List.rotate_zero]

/-- **Cycles with one normal form are rotations of each other**, and only these. -/
theorem rotated_eq_iff (hc : c.Nodup) : rotated c = rotated d ↔ c ~r d := by
  constructor
  · intro h
    exact (isRotated_rotated c).trans (h ▸ (isRotated_rotated d).symm)
  · intro h
    -- both normal forms start at the least place
    have hmin : c.min? = d.min? := by
      ext m
      simp only [List.min?_eq_some_iff, h.mem_iff]
    refine eq_of_isRotated_of_head? ((isRotated_rotated c).nodup_iff.mp hc)
      ((isRotated_rotated c).symm.trans (h.trans (isRotated_rotated d))) ?_
    rw [head?_rotated, head?_rotated, hmin]

end Rotations

/-! ## Rings -/

section Rings

variable {α : Type} {g : Digraph α} {inside : NumberSet}

/-- A closed path through different places of a set, given without its last place. -/
structure IsRing (g : Digraph α) (inside : NumberSet) (c : List Nat) : Prop where
  long : 2 ≤ c.length
  nodup : c.Nodup
  edges : ∀ e ∈ edges c, g.Edge e.1 e.2
  inside : ∀ i ∈ c, i ∈ inside

theorem mem_of_isChain {i : Nat} {path : List Nat}
    (h : (i :: path).IsChain (g.EdgeInto inside)) : ∀ j ∈ path, j ∈ inside := by
  induction path generalizing i with
  | nil => exact fun j hj => absurd hj List.not_mem_nil
  | cons k rest ih =>
    obtain ⟨he, hrest⟩ := List.isChain_cons_cons.mp h
    exact List.forall_mem_cons.mpr ⟨he.2, ih hrest⟩

/-- An edge and a path back make a ring, and the edge is on it. -/
theorem isRing_of_isPath {i j : Nat} {back : List Nat} (hi : i ∈ inside) (hne : i ≠ j)
    (he : g.EdgeInto inside i j) (h : g.IsPath inside j i back) :
    IsRing g inside (i :: back.dropLast) ∧ (i, j) ∈ edges (i :: back.dropLast) := by
  have hback : back.dropLast ++ [i] = back := by
    obtain ⟨front, rfl⟩ := List.getLast?_eq_some_iff.mp h.last
    rw [List.dropLast_concat]
  have hclosed : i :: back.dropLast ++ (i :: back.dropLast).take 1 = i :: back := by
    rw [List.take_succ_cons, List.take_zero, List.cons_append, hback]
  have hchain : (i :: back).IsChain (g.EdgeInto inside) := by
    refine List.isChain_cons.mpr ⟨fun k hk => ?_, h.edges⟩
    rw [h.head, Option.mem_some_iff] at hk
    exact hk ▸ he
  have hnodup := h.nodup
  rw [← hback, List.nodup_append] at hnodup
  refine ⟨⟨?_, ?_, ?_, ?_⟩, ?_⟩
  · -- the way back is not empty, since its ends are different
    cases hd : back.dropLast with
    | nil =>
      have hhead := h.head
      rw [← hback, hd] at hhead
      exact absurd (Option.some.inj hhead) hne
    | cons k rest => simp
  · exact List.nodup_cons.mpr
      ⟨fun hmem => hnodup.2.2 i hmem i (List.mem_singleton_self i) rfl, hnodup.1⟩
  · rintro ⟨a, b⟩ hab
    rw [mem_edges_iff, hclosed] at hab
    have hpair := List.IsChain.infix hchain hab
    exact (List.isChain_pair.mp hpair).1
  · refine List.forall_mem_cons.mpr ⟨hi, fun k hk => ?_⟩
    exact mem_of_isChain hchain k (List.mem_of_mem_dropLast hk)
  · obtain ⟨rest, rfl⟩ := List.head?_eq_some_iff.mp h.head
    rw [mem_edges_iff, hclosed]
    exact List.IsPrefix.isInfix ⟨rest, rfl⟩

end Rings

/-! ## Looking for cycles -/

section Covering

variable {g : Digraph FileKey} {inside : NumberSet}

/-- What was found are rings and no rotations of each other, and the covered edges are on them. -/
structure Search.Sound (g : Digraph FileKey) (inside : NumberSet) (s : Search) : Prop where
  rings : ∀ c ∈ s.found, IsRing g inside c
  apart : s.found.Pairwise fun c d => ¬ c ~r d
  covered : ∀ e ∈ s.covered, ∃ c ∈ s.found, e ∈ edges c

theorem sound_empty : Search.Sound g inside {} where
  rings _ hc := absurd hc List.not_mem_nil
  apart := .nil
  covered _ he := absurd he List.not_mem_nil

/-- Adding a ring, unless a rotation of it was found before, covers its edges. -/
theorem Search.Sound.add {s : Search} (hs : s.Sound g inside) {c : List Nat}
    (hc : IsRing g inside c) :
    Search.Sound g inside
      { covered := s.covered ++ edges c
        found := if s.found.any fun d => rotated d == rotated c then s.found
          else s.found ++ [c] } := by
  by_cases hany : (s.found.any fun d => rotated d == rotated c) = true
  · -- a rotation was found before, which covers the same edges
    rw [if_pos hany]
    obtain ⟨d, hd, heq⟩ := List.any_eq_true.mp hany
    have hrot : d ~r c := (rotated_eq_iff (hs.rings d hd).nodup).mp (eq_of_beq heq)
    refine ⟨hs.rings, hs.apart, fun e he => ?_⟩
    rcases List.mem_append.mp he with he | he
    · exact hs.covered e he
    · exact ⟨d, hd, mem_edges_of_isRotated hrot.symm he⟩
  · -- the ring is new, and so it is found
    rw [if_neg hany]
    have hapart : ∀ d ∈ s.found, ¬ d ~r c := fun d hd hrot =>
      hany (List.any_eq_true.mpr ⟨d, hd, by simp [(rotated_eq_iff (hs.rings d hd).nodup).mpr hrot]⟩)
    refine ⟨fun d hd => ?_, ?_, fun e he => ?_⟩
    · rcases List.mem_append.mp hd with hd | hd
      · exact hs.rings d hd
      · exact List.mem_singleton.mp hd ▸ hc
    · refine List.pairwise_append.mpr ⟨hs.apart, List.pairwise_singleton _ _, fun d hd c' hc' => ?_⟩
      exact List.mem_singleton.mp hc' ▸ hapart d hd
    · rcases List.mem_append.mp he with he | he
      · obtain ⟨d, hd, hed⟩ := hs.covered e he
        exact ⟨d, List.mem_append_left _ hd, hed⟩
      · exact ⟨c, List.mem_append_right _ (List.mem_singleton_self c), he⟩

/-- **Covering an edge keeps the invariant.** -/
theorem sound_cover {s : Search} (hs : s.Sound g inside) {i j : Nat} (hi : i ∈ inside)
    (hne : i ≠ j) (he : g.EdgeInto inside i j) : (s.cover g inside (i, j)).Sound g inside := by
  unfold Search.cover
  split
  · exact hs
  · split
    · exact hs
    · rename_i back hback
      exact hs.add (isRing_of_isPath hi hne he (Digraph.isPath_of_pathWithin? hback)).1

theorem covered_cover (s : Search) (edge : Nat × Nat) :
    s.covered ⊆ (s.cover g inside edge).covered := by
  unfold Search.cover
  split
  · exact List.Subset.refl _
  · split
    · exact List.Subset.refl _
    · exact List.subset_append_left _ _

/-- An edge with a way back is covered. -/
theorem mem_covered_cover (hg : g.WellFormed) (s : Search) {i j : Nat} (hi : i ∈ inside)
    (hne : i ≠ j) (he : g.EdgeInto inside i j) (hback : ReflTransGen (g.EdgeInto inside) j i) :
    (i, j) ∈ (s.cover g inside (i, j)).covered := by
  unfold Search.cover
  split
  · assumption
  · obtain ⟨back, hpath⟩ := Digraph.exists_pathWithin? hg (hg.lt_size i j he.1) hback
    rw [hpath]
    exact List.mem_append_right _
      (isRing_of_isPath hi hne he (Digraph.isPath_of_pathWithin? hpath)).2

/-- Covering edges with ways back keeps the invariant and covers them all. -/
theorem cover_all (hg : g.WellFormed) {es : List (Nat × Nat)}
    (h : ∀ e ∈ es, e.1 ∈ inside ∧ e.1 ≠ e.2 ∧ g.EdgeInto inside e.1 e.2 ∧
      ReflTransGen (g.EdgeInto inside) e.2 e.1) {s : Search} (hs : s.Sound g inside) :
    (es.foldl (·.cover g inside ·) s).Sound g inside ∧
      s.covered ++ es ⊆ (es.foldl (·.cover g inside ·) s).covered := by
  induction es generalizing s with
  | nil => exact ⟨hs, fun e he => List.append_nil s.covered ▸ he⟩
  | cons e es ih =>
    obtain ⟨⟨hi, hne, he, hback⟩, hrest⟩ := List.forall_mem_cons.mp h
    obtain ⟨hsound, hcovered⟩ := ih hrest (sound_cover hs hi hne he)
    obtain ⟨hbefore, hes⟩ := List.append_subset.mp hcovered
    refine ⟨hsound, List.append_subset.mpr ⟨?_, List.cons_subset.mpr ⟨?_, hes⟩⟩⟩
    · exact List.Subset.trans (covered_cover s e) hbefore
    · exact hbefore (mem_covered_cover hg s hi hne he hback)

end Covering

/-! ## Cycles of places -/

section Components

variable {g : Digraph FileKey} (hg : g.WellFormed)

/-- The cycles that are reported, by places. -/
def rings (g : Digraph FileKey) : List (List Nat) := (components g).flatMap (ofComponent g)

theorem mem_components_iff {c : List Nat} :
    c ∈ components g ↔ c ∈ g.componentPlaces ∧ 1 < c.length := by
  unfold components
  rw [mem_sortBy, List.mem_filter, decide_eq_true_iff]

theorem one_lt_length_iff {l : List Nat} (hl : l.Nodup) {i : Nat} (hi : i ∈ l) :
    1 < l.length ↔ ∃ j ∈ l, i ≠ j := by
  match l with
  | [] => exact absurd hi List.not_mem_nil
  | [k] => simp [List.mem_singleton.mp hi]
  | k :: k' :: rest =>
    refine iff_of_true (by simp) ?_
    have hne : k ≠ k' := fun h => (List.nodup_cons.mp hl).1 (h ▸ List.mem_cons_self)
    by_cases hik : i = k
    · exact ⟨k', List.mem_cons_of_mem _ List.mem_cons_self, hik ▸ hne⟩
    · exact ⟨k, List.mem_cons_self, hik⟩

theorem nodup_component (i : Nat) : (g.component i).Nodup :=
  (Digraph.pairwise_lt_component i).imp Nat.ne_of_lt

theorem nodup_components : (components g).Nodup :=
  (perm_sortBy _ _).nodup_iff.mpr (Digraph.nodup_componentPlaces.filter _)

include hg

/-- Inside a component edges lead from any place to any other. -/
theorem leads_inside {c : List Nat} (hc : c ∈ g.componentPlaces) {i j : Nat} (hi : i ∈ c)
    (hj : j ∈ c) : ReflTransGen (g.EdgeInto (.ofList c)) i j := by
  obtain ⟨-, hij⟩ := (Digraph.mem_of_mem_componentPlaces hg hc hj).mp hi
  refine ReflTransGen.head_induction_on
    (motive := fun k _ => k ∈ c → ReflTransGen (g.EdgeInto (.ofList c)) k j) hij
    (fun _ => .refl) (fun {k l} hkl hlj ih hk => ?_) hi
  -- the way does not leave the component: every place on it leads back to `j`
  have hl : l ∈ c := (Digraph.mem_of_mem_componentPlaces hg hc hj).mpr
    ⟨((Digraph.mem_of_mem_componentPlaces hg hc hj).mp hk).1.tail hkl, hlj⟩
  exact .head ⟨hkl, NumberSet.mem_ofList.mpr hl⟩ (ih hl)

variable (hloop : ∀ i, ¬ g.Edge i i)

include hloop

theorem ofComponent_spec {c : List Nat} (hc : c ∈ g.componentPlaces) :
    (∀ r ∈ ofComponent g c, IsRing g (.ofList c) r) ∧
      (ofComponent g c).Pairwise (fun r r' => ¬ r ~r r') ∧
      ∀ i ∈ c, ∀ j ∈ c, g.Edge i j → ∃ r ∈ ofComponent g c, (i, j) ∈ edges r := by
  -- the edges to be covered are those inside the component
  have hmem : ∀ i j, (i, j) ∈ (c.flatMap fun i =>
      ((g.nextOf i).filter (· ∈ NumberSet.ofList c)).map (i, ·)) ↔
      i ∈ c ∧ g.EdgeInto (.ofList c) i j := by
    intro i j
    simp only [List.mem_flatMap, List.mem_map, Digraph.mem_ends, Prod.mk.injEq]
    exact ⟨fun ⟨a, ha, b, hab, hai, hbj⟩ => hai ▸ hbj ▸ ⟨ha, hab⟩,
      fun ⟨hi, hij⟩ => ⟨i, hi, j, hij, rfl, rfl⟩⟩
  have hall : ∀ e ∈ c.flatMap fun i =>
      ((g.nextOf i).filter (· ∈ NumberSet.ofList c)).map (i, ·),
      e.1 ∈ NumberSet.ofList c ∧ e.1 ≠ e.2 ∧ g.EdgeInto (.ofList c) e.1 e.2 ∧
        ReflTransGen (g.EdgeInto (.ofList c)) e.2 e.1 := by
    rintro ⟨i, j⟩ he
    obtain ⟨hi, hij⟩ := (hmem i j).mp he
    have hne : i ≠ j := fun h => hloop i (h ▸ hij.1)
    exact ⟨NumberSet.mem_ofList.mpr hi, hne, hij,
      leads_inside hg hc (NumberSet.mem_ofList.mp hij.2) hi⟩
  obtain ⟨hsound, hcovered⟩ := cover_all hg hall sound_empty
  refine ⟨hsound.rings, hsound.apart, fun i hi j hj hij => ?_⟩
  exact hsound.covered (i, j) (hcovered (List.mem_append_right _
    ((hmem i j).mpr ⟨hi, hij, NumberSet.mem_ofList.mpr hj⟩)))

theorem isRing_of_mem_rings {r : List Nat} (hr : r ∈ rings g) :
    ∃ c ∈ components g, IsRing g (.ofList c) r := by
  obtain ⟨c, hc, hr⟩ := List.mem_flatMap.mp hr
  exact ⟨c, hc, (ofComponent_spec hg hloop (mem_components_iff.mp hc).1).1 r hr⟩

/-- Rings of different components have no place in common. -/
theorem pairwise_rings : (rings g).Pairwise fun r r' => ¬ r ~r r' := by
  refine List.pairwise_flatMap.mpr ⟨fun c hc => ?_, ?_⟩
  · exact (ofComponent_spec hg hloop (mem_components_iff.mp hc).1).2.1
  · refine List.Pairwise.imp_of_mem ?_ nodup_components
    intro c d hc hd hcd r hr r' hr' hrot
    have hcp := (mem_components_iff.mp hc).1
    have hdp := (mem_components_iff.mp hd).1
    have hring := (ofComponent_spec hg hloop hcp).1 r hr
    have hring' := (ofComponent_spec hg hloop hdp).1 r' hr'
    -- a place on both rings is in both components
    obtain ⟨i, hi⟩ : ∃ i, i ∈ r := List.exists_mem_of_length_pos (by have := hring.long; omega)
    have hic := NumberSet.mem_ofList.mp (hring.inside i hi)
    have hid := NumberSet.mem_ofList.mp (hring'.inside i (hrot.mem_iff.mp hi))
    rw [(Digraph.mem_of_componentPlaces hg hcp hic).2,
      (Digraph.mem_of_componentPlaces hg hdp hid).2] at hcd
    exact hcd rfl

omit hloop in
/-- A place is in a component with others if edges lead away from it and back. -/
theorem mem_components_of_ne {i j : Nat} (hi : i < g.size) (hne : i ≠ j) (hij : g.Leads i j)
    (hji : g.Leads j i) : g.component i ∈ components g ∧ i ∈ g.component i ∧ j ∈ g.component i := by
  have hmi : i ∈ g.component i := (Digraph.mem_component hg hi).mpr ⟨.refl, .refl⟩
  have hmj : j ∈ g.component i := (Digraph.mem_component hg hi).mpr ⟨hij, hji⟩
  refine ⟨mem_components_iff.mpr ⟨Digraph.component_mem_componentPlaces hg hi, ?_⟩, hmi, hmj⟩
  exact (one_lt_length_iff (nodup_component i) hmi).mpr ⟨j, hmj, hne⟩

/-- An edge that is part of a cycle is on a ring. -/
theorem exists_ring {i j : Nat} (hij : g.Edge i j) (hji : g.Leads j i) :
    ∃ r ∈ rings g, (i, j) ∈ edges r := by
  have hne : i ≠ j := fun h => hloop i (h ▸ hij)
  obtain ⟨hc, hi, hj⟩ := mem_components_of_ne hg (hg.lt_size_left hij) hne (.single hij) hji
  obtain ⟨r, hr, he⟩ :=
    (ofComponent_spec hg hloop (mem_components_iff.mp hc).1).2.2 i hi j hj hij
  exact ⟨r, List.mem_flatMap.mpr ⟨_, hc, hr⟩, he⟩

/-- The components with more than one place hold the places that lead back to themselves. -/
theorem mem_flatten_components {i : Nat} :
    i ∈ (components g).flatten ↔ TransGen g.Edge i i := by
  constructor
  · intro h
    obtain ⟨c, hc, hi⟩ := List.mem_flatten.mp h
    obtain ⟨hc, hlen⟩ := mem_components_iff.mp hc
    obtain ⟨hsize, rfl⟩ := Digraph.mem_of_componentPlaces hg hc hi
    obtain ⟨j, hj, hne⟩ := (one_lt_length_iff (nodup_component i) hi).mp hlen
    obtain ⟨hij, hji⟩ := (Digraph.mem_component hg hsize).mp hj
    exact ((reflTransGen_iff_eq_or_transGen.mp hij).resolve_left (Ne.symm hne)).trans_left hji
  · intro h
    obtain ⟨j, hij, hji⟩ := TransGen.head'_iff.mp h
    have hne : i ≠ j := fun h => hloop i (h ▸ hij)
    obtain ⟨hc, hi, -⟩ := mem_components_of_ne hg (hg.lt_size_left hij) hne (.single hij) hji
    exact List.mem_flatten.mpr ⟨_, hc, hi⟩

end Components

/-! ## Cycles of vertices -/

/-- A list of vertices, each related to the next one: the last one is the first one, and there are
at least two, all different. -/
structure IsCycle {α : Type} (r : α → α → Prop) (c : List α) : Prop where
  long : 3 ≤ c.length
  closed : c.getLast? = c.head?
  nodup : c.dropLast.Nodup
  linked : c.IsChain r

theorem isCycle_close {α : Type} {r : α → α → Prop} {c : List α} (hlong : 2 ≤ c.length)
    (hnodup : c.Nodup) (hlinked : (c ++ c.take 1).IsChain r) : IsCycle r (c ++ c.take 1) := by
  cases c with
  | nil => simp at hlong
  | cons v rest =>
    refine ⟨?_, ?_, ?_, hlinked⟩
    · simpa using hlong
    · exact List.getLast?_concat
    · rw [List.take_succ_cons, List.take_zero, List.dropLast_concat]
      exact hnodup

section Vertices

variable {g : Digraph FileKey}

/-- The vertex at a place. -/
def vertexAt (g : Digraph FileKey) (i : Nat) : FileKey := (g.vertices[i]?).getD []

theorem vertex_eq {i : Nat} (hi : i < g.size) : g.vertices[i]? = some (vertexAt g i) := by
  obtain ⟨v, hv⟩ := Digraph.exists_vertex hi
  rw [vertexAt, hv]
  rfl

theorem verticesAt_eq_map {places : List Nat} (h : ∀ i ∈ places, i < g.size) :
    g.verticesAt places = places.map (vertexAt g) := by
  induction places with
  | nil => rfl
  | cons i rest ih =>
    obtain ⟨hi, hrest⟩ := List.forall_mem_cons.mp h
    rw [Digraph.verticesAt_cons (vertex_eq hi), ih hrest, List.map_cons]

variable (hg : g.WellFormed) (hs : g.Simple) (hloop : ∀ i, ¬ g.Edge i i)

include hg hloop in
theorem lt_size_of_mem_rings {r : List Nat} (hr : r ∈ rings g) : ∀ i ∈ r, i < g.size := by
  obtain ⟨c, hc, hring⟩ := isRing_of_mem_rings hg hloop hr
  exact fun i hi => (Digraph.mem_of_componentPlaces hg (mem_components_iff.mp hc).1
    (NumberSet.mem_ofList.mp (hring.inside i hi))).1

include hg hloop in
theorem mem_all_iff {c : List FileKey} :
    c ∈ all g ↔ ∃ r ∈ rings g, c = r.map (vertexAt g) := by
  refine List.mem_map.trans (exists_congr fun r => and_congr_right fun hr => ?_)
  rw [verticesAt_eq_map (lt_size_of_mem_rings hg hloop hr)]
  exact eq_comm

include hs in
theorem vertexAt_inj {i j : Nat} (hi : i < g.size) (hj : j < g.size)
    (h : vertexAt g i = vertexAt g j) : i = j :=
  hs.eq_of_vertex (vertex_eq hi) (h ▸ vertex_eq hj)

include hs in
theorem map_place_map_vertexAt {places : List Nat} (h : ∀ i ∈ places, i < g.size) :
    (places.map (vertexAt g)).map (fun v => (g.place? v).getD 0) = places := by
  rw [List.map_map]
  refine (List.map_congr_left fun i hi => ?_).trans (List.map_id places)
  rw [Function.comp_apply, (Digraph.place?_eq_some_iff hs).mpr (vertex_eq (h i hi))]
  rfl

include hg hs in
theorem mem_successors_vertexAt {i j : Nat} (h : g.Edge i j) :
    vertexAt g j ∈ g.successors (vertexAt g i) :=
  (Digraph.mem_successors_iff hs).mpr
    ⟨i, j, vertex_eq (hg.lt_size_left h), h, vertex_eq (hg.lt_size i j h)⟩

include hg hs hloop

/-- **What is reported are cycles.** -/
theorem isCycle_of_mem_all {c : List FileKey} (hc : c ∈ all g) :
    IsCycle (fun v w => w ∈ g.successors v) (c ++ c.take 1) := by
  obtain ⟨r, hr, rfl⟩ := (mem_all_iff hg hloop).mp hc
  obtain ⟨d, -, hring⟩ := isRing_of_mem_rings hg hloop hr
  have hsize := lt_size_of_mem_rings hg hloop hr
  refine isCycle_close ?_ ?_ ?_
  · rw [List.length_map]
    exact hring.long
  · exact List.Nodup.map_on (fun i hi j hj => vertexAt_inj hs (hsize i hi) (hsize j hj)) hring.nodup
  · rw [← List.map_take, ← List.map_append]
    refine List.isChain_map_of_isChain _ (fun i j => mem_successors_vertexAt hg hs) ?_
    exact (List.isChain_isInfix _).imp fun i j hij => hring.edges (i, j) (mem_edges_iff.mpr hij)

/-- **No two cycles are rotations of each other.** -/
theorem pairwise_all : (all g).Pairwise fun c d => ¬ c ~r d := by
  refine List.pairwise_map.mpr ((pairwise_rings hg hloop).imp_of_mem ?_)
  intro r r' hr hr' hapart hrot
  have hsize := lt_size_of_mem_rings hg hloop hr
  have hsize' := lt_size_of_mem_rings hg hloop hr'
  -- a vertex stands at one place only, so a rotation of vertices is one of places
  rw [verticesAt_eq_map hsize, verticesAt_eq_map hsize'] at hrot
  have hplaces := hrot.map fun v => (g.place? v).getD 0
  rw [map_place_map_vertexAt hs hsize, map_place_map_vertexAt hs hsize'] at hplaces
  exact hapart hplaces

/-- **Every edge that is part of a cycle is on one that is reported.** -/
theorem exists_mem_all {v w : FileKey} (hvw : w ∈ g.successors v) (hwv : g.Reaches w v) :
    ∃ c ∈ all g, [v, w] <:+: c ++ c.take 1 := by
  obtain ⟨i, j, hi, hij, hj⟩ := (Digraph.mem_successors_iff hs).mp hvw
  obtain ⟨r, hr, he⟩ := exists_ring hg hloop hij
    ((Digraph.reaches_iff_leads hg hs hj hi).mp hwv)
  refine ⟨_, (mem_all_iff hg hloop).mpr ⟨r, hr, rfl⟩, ?_⟩
  have hpair : [i, j].map (vertexAt g) = [v, w] := by simp [vertexAt, hi, hj]
  rw [← List.map_take, ← List.map_append, ← hpair]
  exact (mem_edges_iff.mp he).map _

/-- **The files on cycles are those that lead back to themselves.** -/
theorem mem_files_iff {v : FileKey} :
    v ∈ files g ↔ TransGen (fun v w => w ∈ g.successors v) v v := by
  rw [TransGen.head'_iff]
  simp only [← Digraph.reaches_iff_reflTransGen]
  unfold files
  rw [Digraph.mem_verticesAt]
  constructor
  · rintro ⟨i, hi, hv⟩
    obtain ⟨j, hij, hji⟩ := TransGen.head'_iff.mp ((mem_flatten_components hg hloop).mp hi)
    obtain ⟨w, hw⟩ := Digraph.exists_vertex (hg.lt_size i j hij)
    exact ⟨w, (Digraph.mem_successors_iff hs).mpr ⟨i, j, hv, hij, hw⟩,
      (Digraph.reaches_iff_leads hg hs hw hv).mpr hji⟩
  · rintro ⟨w, hvw, hwv⟩
    obtain ⟨i, j, hi, hij, hj⟩ := (Digraph.mem_successors_iff hs).mp hvw
    exact ⟨i, (mem_flatten_components hg hloop).mpr (TransGen.head'_iff.mpr
      ⟨j, hij, (Digraph.reaches_iff_leads hg hs hj hi).mp hwv⟩), hi⟩

end Vertices

end EffectAudit.Cycle
