import EffectAudit.Proofs.CallGraph
import EffectAudit.Proofs.Lists
import EffectAudit.Proofs.Sorting
import Mathlib.Data.List.Sort

/-!
# Choice of groups

Groups of functions are found by the place of each function's group. The places of the groups of
some functions, in order and each once, give the groups that have one of these functions as a
member.

## Main results

* `LinkedProgram.get?_groupIndex`: the place of a function's group
* `LinkedProgram.pairwise_groupPlaces`, `LinkedProgram.mem_groupPlaces`: the places that are chosen
* `LinkedProgram.chooseGroups_eq`: the groups that are chosen
* `LinkedProgram.CalleesFirst.mem_group_iff`: which functions share a group
-/

namespace EffectAudit.LinkedProgram

open Relation

section Places

variable {groups : List (List FunctionRef)}

theorem mem_zipIdx_flatMap {f : FunctionRef} {i : Nat} :
    (f, i) ∈ (groups.zipIdx.flatMap fun e => e.1.map fun f => (f, e.2)) ↔
      ∃ group, groups[i]? = some group ∧ f ∈ group := by
  rw [List.mem_flatMap]
  constructor
  · rintro ⟨⟨group, j⟩, hj, hf⟩
    obtain ⟨f', hf', heq⟩ := List.mem_map.mp hf
    cases heq
    exact ⟨group, List.mem_zipIdx_iff_getElem?.mp hj, hf'⟩
  · rintro ⟨group, hi, hf⟩
    exact ⟨(group, i), List.mem_zipIdx_iff_getElem?.mpr hi, List.mem_map.mpr ⟨f, hf, rfl⟩⟩

theorem pairwise_groupPlaces (fs : List FunctionRef) :
    (groupPlaces groups fs).Pairwise (· < ·) := by
  have hsorted : (groupPlaces groups fs).Pairwise fun i j => atMost i j = true :=
    (pairwise_sortBy atMost atMost_total atMost_trans _).sublist (dropRepeats_sublist _)
  have hnodup : (groupPlaces groups fs).Nodup := nodup_dropRepeats_sorted _
  refine (hsorted.and hnodup).imp fun {i j} h => ?_
  exact Nat.lt_of_le_of_ne (Nat.isLE_compare.mp h.1) h.2

variable (hapart : groups.Pairwise fun c d => ∀ f ∈ c, f ∉ d)

include hapart

/-- The place of a function's group, where no function is in two groups. -/
theorem get?_groupIndex {f : FunctionRef} {i : Nat} :
    (groupIndex groups).get? f = some i ↔ ∃ group, groups[i]? = some group ∧ f ∈ group := by
  unfold groupIndex
  rw [← mem_zipIdx_flatMap]
  refine ⟨OrderedMap.mem_of_get?_ofList, fun hmem => OrderedMap.get?_ofList_of_mem hmem ?_⟩
  intro j hj
  obtain ⟨group, hi, hf⟩ := mem_zipIdx_flatMap.mp hmem
  obtain ⟨group', hj, hf'⟩ := mem_zipIdx_flatMap.mp hj
  obtain ⟨hilt, rfl⟩ := List.getElem?_eq_some_iff.mp hi
  obtain ⟨hjlt, rfl⟩ := List.getElem?_eq_some_iff.mp hj
  rw [List.pairwise_iff_getElem] at hapart
  rcases Nat.lt_trichotomy i j with hlt | heq | hgt
  · exact absurd hf' (hapart i j hilt hjlt hlt f hf)
  · exact heq.symm
  · exact absurd hf (hapart j i hjlt hilt hgt f hf')

theorem mem_groupPlaces {fs : List FunctionRef} {i : Nat} :
    i ∈ groupPlaces groups fs ↔ ∃ group, groups[i]? = some group ∧ ∃ f ∈ group, f ∈ fs := by
  unfold groupPlaces sorted
  rw [mem_dropRepeats, mem_sortBy, List.mem_filterMap]
  simp only [get?_groupIndex hapart]
  constructor
  · rintro ⟨f, hf, group, hi, hmem⟩
    exact ⟨group, hi, f, hmem, hf⟩
  · rintro ⟨group, hi, f, hmem, hf⟩
    exact ⟨f, hf, group, hi, hmem⟩

/-- **The groups that are chosen** are those that have one of the given functions as a member, in
their order. -/
theorem chooseGroups_eq (fs : List FunctionRef) :
    chooseGroups groups fs = groups.filter fun group => group.any (· ∈ fs) := by
  -- the places of these groups, among all places
  have hplaces : groupPlaces groups fs = (List.range groups.length).filter fun i =>
      (groups[i]?).any fun group => group.any (· ∈ fs) := by
    have hrange : ((List.range groups.length).filter fun i =>
        (groups[i]?).any fun group => group.any (· ∈ fs)).Pairwise (· < ·) :=
      List.pairwise_lt_range.filter _
    refine List.Perm.eq_of_pairwise' ((pairwise_groupPlaces fs).imp Nat.le_of_lt)
      (hrange.imp Nat.le_of_lt) ?_
    refine (List.perm_ext_iff_of_nodup ((pairwise_groupPlaces fs).imp Nat.ne_of_lt)
      (hrange.imp Nat.ne_of_lt)).mpr fun i => ?_
    rw [mem_groupPlaces hapart, List.mem_filter, List.mem_range, Option.any_eq_true]
    simp only [List.any_eq_true, decide_eq_true_eq]
    constructor
    · rintro ⟨group, hi, hmeets⟩
      exact ⟨(List.getElem?_eq_some_iff.mp hi).1, group, hi, hmeets⟩
    · rintro ⟨-, group, hi, hmeets⟩
      exact ⟨group, hi, hmeets⟩
  unfold chooseGroups
  rw [hplaces, List.filterMap_filter]
  conv_rhs => rw [← filterMap_getElem?_range groups, List.filter_filterMap]
  refine List.filterMap_congr fun i _ => ?_
  cases groups[i]? with
  | none => simp
  | some group => simp [Option.filter]

end Places

/-! ## Members of groups -/

namespace CalleesFirst

variable {p : LinkedProgram} {groups : List (List FunctionRef)} (h : p.CalleesFirst groups)

include h

/-- No function is in two groups. -/
theorem apart : groups.Pairwise fun c d => ∀ f ∈ c, f ∉ d :=
  h.ordered.imp fun hcd f hf hd => hcd f hf f hd .refl

theorem mem_chooseGroups_iff {fs : List FunctionRef} {group : List FunctionRef} :
    group ∈ chooseGroups groups fs ↔ group ∈ groups ∧ ∃ f ∈ group, f ∈ fs := by
  rw [chooseGroups_eq h.apart, List.mem_filter, List.any_eq_true]
  simp only [decide_eq_true_eq]

theorem ordered_chooseGroups (fs : List FunctionRef) :
    (chooseGroups groups fs).Pairwise fun c d => ∀ f ∈ c, ∀ g ∈ d, ¬ p.Reaches f g := by
  rw [chooseGroups_eq h.apart]
  exact h.ordered.filter _

/-- The members of a group are the functions that one of them reaches and that reach it. -/
theorem mem_group_iff (hp : p.Closed) {group : List FunctionRef} (hg : group ∈ groups)
    {f : FunctionRef} (hf : f ∈ group) {g : FunctionRef} :
    g ∈ group ↔ p.Reaches f g ∧ p.Reaches g f := by
  refine ⟨fun hgm => ⟨h.connected group hg f hf g hgm, h.connected group hg g hgm f hf⟩, ?_⟩
  rintro ⟨hfg, hgf⟩
  have hgk : g ∈ p.symbols.functions :=
    hp.mem_functions_of_reaches hfg ((h.covers f).mpr ⟨group, hg, hf⟩)
  obtain ⟨group', hg', hgm⟩ := (h.covers g).mp hgk
  -- members of different groups never reach each other both ways
  have hapart : groups.Pairwise fun c d => ∀ a ∈ c, ∀ b ∈ d, ¬ (p.Reaches a b ∧ p.Reaches b a) :=
    h.ordered.imp fun hcd a ha b hb hab => hcd a ha b hb hab.1
  have hsymm : Std.Symm fun c d : List FunctionRef =>
      ∀ a ∈ c, ∀ b ∈ d, ¬ (p.Reaches a b ∧ p.Reaches b a) :=
    ⟨fun c d hcd a ha b hb hab => hcd b hb a ha hab.symm⟩
  by_contra hne
  have hdiff : group ≠ group' := fun heq => hne (heq ▸ hgm)
  exact hapart.forall hg hg' hdiff f hf g hgm ⟨hfg, hgf⟩

end CalleesFirst

end EffectAudit.LinkedProgram
