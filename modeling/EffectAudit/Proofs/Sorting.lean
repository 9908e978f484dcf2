import EffectAudit.Data.Sorting
import EffectAudit.Proofs.Lists
import Mathlib.Data.List.Chain

/-!
# Sorted lists

Sorting rearranges a list and puts it in order; a list without repetition has no element twice.

## Main results

* `perm_sortBy`, `pairwise_sortBy`: what sorting does
* `nodup_distinct`, `perm_distinct`, `mem_dropRepeats`, `nodup_dropRepeats`: what the removal of
  repetitions does
* `nodup_dropRepeats_sorted`: a list in order without equal neighbours
* `filter_sortBy`, `filter_dropRepeats`: elements may be left out before or after
* `find?_sortBy`: what is found first in a sorted list
* `isChain_dropRepeats`, `sublist_sortBy_iff`, `nodup_dropRepeats_sortBy_iff`: what is left twice
-/

namespace EffectAudit

variable {α : Type}

theorem perm_insertBy (le : α → α → Bool) (a : α) (l : List α) :
    (insertBy le a l).Perm (a :: l) := by
  induction l with
  | nil => exact .refl _
  | cons b rest ih =>
    unfold insertBy
    split
    · exact .refl _
    · exact (ih.cons b).trans (.swap a b rest)

theorem perm_sortBy (le : α → α → Bool) (l : List α) : (sortBy le l).Perm l := by
  induction l with
  | nil => exact .refl _
  | cons a rest ih => exact (perm_insertBy le a _).trans (ih.cons a)

theorem insertBy_congr {le le' : α → α → Bool} {a : α} {l : List α}
    (h : ∀ b ∈ l, le a b = le' a b) : insertBy le a l = insertBy le' a l := by
  induction l with
  | nil => rfl
  | cons b rest ih =>
    unfold insertBy
    rw [h b List.mem_cons_self, ih fun c hc => h c (List.mem_cons_of_mem _ hc)]

/-- Sorting depends only on how the elements of the list compare. -/
theorem sortBy_congr {le le' : α → α → Bool} {l : List α}
    (h : ∀ a ∈ l, ∀ b ∈ l, le a b = le' a b) : sortBy le l = sortBy le' l := by
  induction l with
  | nil => rfl
  | cons a rest ih =>
    have hrest : sortBy le rest = sortBy le' rest :=
      ih fun b hb c hc => h b (List.mem_cons_of_mem _ hb) c (List.mem_cons_of_mem _ hc)
    have hins : insertBy le a (sortBy le rest) = insertBy le' a (sortBy le rest) :=
      insertBy_congr fun b hb =>
        h a List.mem_cons_self b (List.mem_cons_of_mem _ (mem_sortBy.mp hb))
    exact hins.trans (congrArg (insertBy le' a) hrest)

section Order

variable {le : α → α → Bool}

theorem pairwise_insertBy (htot : ∀ a b, le a b = true ∨ le b a = true)
    (htrans : ∀ a b c, le a b = true → le b c = true → le a c = true) {a : α} {l : List α}
    (h : l.Pairwise fun a b => le a b = true) :
    (insertBy le a l).Pairwise fun a b => le a b = true := by
  induction l with
  | nil => simp [insertBy]
  | cons b rest ih =>
    rw [List.pairwise_cons] at h
    unfold insertBy
    split
    · rename_i hab
      refine List.pairwise_cons.mpr ⟨fun c hc => ?_, List.pairwise_cons.mpr h⟩
      rcases List.mem_cons.mp hc with rfl | hc
      · exact hab
      · exact htrans a b c hab (h.1 c hc)
    · rename_i hab
      refine List.pairwise_cons.mpr ⟨fun c hc => ?_, ih h.2⟩
      rcases mem_insertBy.mp hc with rfl | hc
      · exact (htot c b).resolve_left hab
      · exact h.1 c hc

/-- A sorted list is in order. -/
theorem pairwise_sortBy (le : α → α → Bool) (htot : ∀ a b, le a b = true ∨ le b a = true)
    (htrans : ∀ a b c, le a b = true → le b c = true → le a c = true) (l : List α) :
    (sortBy le l).Pairwise fun a b => le a b = true := by
  induction l with
  | nil => exact .nil
  | cons a rest ih => exact pairwise_insertBy htot htrans ih

theorem insertBy_of_forall {a : α} {l : List α} (h : ∀ b ∈ l, le a b = true) :
    insertBy le a l = a :: l := by
  cases l with
  | nil => rfl
  | cons b rest => rw [insertBy, if_pos (h b List.mem_cons_self)]

theorem filter_insertBy (htrans : ∀ a b c, le a b = true → le b c = true → le a c = true)
    {keep : α → Bool} {a : α} {l : List α} (h : l.Pairwise fun a b => le a b = true) :
    (insertBy le a l).filter keep =
      if keep a then insertBy le a (l.filter keep) else l.filter keep := by
  induction l with
  | nil => cases hk : keep a <;> simp [insertBy, hk]
  | cons b rest ih =>
    rw [List.pairwise_cons] at h
    by_cases hab : le a b = true
    · -- what comes behind `b` is not less than `a` either
      have hall : ∀ c ∈ (b :: rest).filter keep, le a c = true := by
        intro c hc
        rcases List.mem_cons.mp (List.mem_filter.mp hc).1 with rfl | hc
        · exact hab
        · exact htrans a b c hab (h.1 c hc)
      rw [insertBy, if_pos hab, List.filter_cons, insertBy_of_forall hall]
    · rw [insertBy, if_neg hab, List.filter_cons, ih h.2, List.filter_cons]
      cases keep b with
      | false => rfl
      | true =>
        simp only [if_true]
        rw [insertBy, if_neg hab]
        cases keep a with
        | false => rfl
        | true => rfl

/-- Sorting commutes with leaving elements out. -/
theorem filter_sortBy (htot : ∀ a b, le a b = true ∨ le b a = true)
    (htrans : ∀ a b c, le a b = true → le b c = true → le a c = true) (keep : α → Bool)
    (l : List α) : (sortBy le l).filter keep = sortBy le (l.filter keep) := by
  induction l with
  | nil => rfl
  | cons a rest ih =>
    have hsorted := pairwise_sortBy le htot htrans rest
    rw [List.filter_cons]
    refine (filter_insertBy htrans hsorted).trans ?_
    rw [ih]
    cases keep a with
    | true => rfl
    | false => rfl

theorem sortBy_of_forall {l : List α} (h : ∀ a ∈ l, ∀ b ∈ l, le a b = true) : sortBy le l = l := by
  induction l with
  | nil => rfl
  | cons a rest ih =>
    have hrest : sortBy le rest = rest :=
      ih fun b hb c hc => h b (List.mem_cons_of_mem _ hb) c (List.mem_cons_of_mem _ hc)
    calc sortBy le (a :: rest)
      _ = insertBy le a (sortBy le rest) := rfl
      _ = insertBy le a rest := by rw [hrest]
      _ = a :: rest :=
        insertBy_of_forall fun b hb => h a List.mem_cons_self b (List.mem_cons_of_mem _ hb)

/-- What a test finds first in a list that is sorted by rank has the least rank of all that pass the
test, and it is the first of that rank in the list itself. -/
theorem find?_sortBy {rank : α → Nat} {test : α → Bool} {l : List α} {a : α}
    (h : (sortBy (fun x y => rank x ≤ rank y) l).find? test = some a) :
    (∀ b ∈ l, test b = true → rank a ≤ rank b) ∧
      (l.filter fun x => decide (rank x = rank a)).find? test = some a := by
  have htot : ∀ x y, decide (rank x ≤ rank y) = true ∨ decide (rank y ≤ rank x) = true := by
    intro x y
    simpa using Nat.le_total (rank x) (rank y)
  have htrans : ∀ x y z, decide (rank x ≤ rank y) = true → decide (rank y ≤ rank z) = true →
      decide (rank x ≤ rank z) = true := by
    intro x y z hxy hyz
    simp only [decide_eq_true_eq] at hxy hyz ⊢
    exact Nat.le_trans hxy hyz
  constructor
  · intro b hb htest
    have hsorted := pairwise_sortBy _ htot htrans l
    obtain ⟨-, before, after, hsplit, hbefore⟩ := List.find?_eq_some_iff_append.mp h
    rw [hsplit, List.pairwise_append, List.pairwise_cons] at hsorted
    have hmem : b ∈ before ++ a :: after := hsplit ▸ mem_sortBy.mpr hb
    rcases List.mem_append.mp hmem with hin | hin
    · have hno := hbefore b hin
      simp [htest] at hno
    · rcases List.mem_cons.mp hin with rfl | hin
      · exact Nat.le_refl _
      · simpa using hsorted.2.1.1 b hin
  · -- sorting leaves the elements of one rank as they stand
    have hrank : (l.filter fun x => decide (rank x = rank a)) =
        (sortBy (fun x y => rank x ≤ rank y) l).filter fun x => decide (rank x = rank a) := by
      rw [filter_sortBy htot htrans, sortBy_of_forall]
      intro x hx y hy
      have hx := of_decide_eq_true (List.mem_filter.mp hx).2
      have hy := of_decide_eq_true (List.mem_filter.mp hy).2
      exact decide_eq_true (Nat.le_of_eq (hx.trans hy.symm))
    rw [hrank, find?_filter_of_imp, h]
    intro b hb
    cases h.symm.trans hb
    exact decide_eq_true rfl

end Order

section AtMost

variable [Ord α] [Std.TransOrd α]

theorem atMost_total (a b : α) : atMost a b = true ∨ atMost b a = true := by
  unfold atMost
  rw [Std.OrientedOrd.eq_swap (a := b)]
  cases compare a b <;> simp

theorem atMost_trans (a b c : α) (hab : atMost a b = true) (hbc : atMost b c = true) :
    atMost a c = true := Std.TransCmp.isLE_trans hab hbc

theorem eq_of_atMost [Std.LawfulEqOrd α] {a b : α} (hab : atMost a b = true)
    (hba : atMost b a = true) : a = b :=
  Std.LawfulEqOrd.eq_of_compare (Std.OrientedCmp.isLE_antisymm hab hba)

end AtMost

section Repetitions

variable [DecidableEq α]

@[simp]
theorem mem_dropRepeats {x : α} {l : List α} : x ∈ dropRepeats l ↔ x ∈ l := by
  induction l using dropRepeats.induct with
  | case1 => rfl
  | case2 a => rfl
  | case3 a rest ih => simp [dropRepeats, ih]
  | case4 a b rest hab ih => simp [dropRepeats, hab, ih]

theorem nodup_distinct (l : List α) : (distinct l).Nodup := by
  induction l with
  | nil => exact .nil
  | cons a rest ih =>
    refine List.nodup_cons.mpr ⟨fun h => ?_, ih.filter _⟩
    exact of_decide_eq_true (List.mem_filter.mp h).2 rfl

theorem perm_distinct {l l' : List α} (h : l.Perm l') : (distinct l).Perm (distinct l') := by
  refine (List.perm_ext_iff_of_nodup (nodup_distinct l) (nodup_distinct l')).mpr fun a => ?_
  rw [mem_distinct, mem_distinct, h.mem_iff]

/-- A list in order has no element twice once equal neighbours are cut down to one. -/
theorem nodup_dropRepeats {le : α → α → Bool}
    (hanti : ∀ a b, le a b = true → le b a = true → a = b) {l : List α}
    (h : l.Pairwise fun a b => le a b = true) : (dropRepeats l).Nodup := by
  induction l using dropRepeats.induct with
  | case1 => exact .nil
  | case2 a => exact List.nodup_singleton a
  | case3 a rest ih =>
    rw [dropRepeats, if_pos rfl]
    exact ih h.tail
  | case4 a b rest hab ih =>
    rw [List.pairwise_cons] at h
    rw [dropRepeats, if_neg hab, List.nodup_cons]
    refine ⟨fun hmem => ?_, ih h.2⟩
    -- a second `a` behind `b` would be at least `b`, which is at least `a`
    rcases List.mem_cons.mp (mem_dropRepeats.mp hmem) with rfl | hmem
    · exact hab rfl
    · have hba : le b a = true := (List.pairwise_cons.mp h.2).1 a hmem
      exact hab (hanti a b (h.1 b List.mem_cons_self) hba)

theorem nodup_dropRepeats_sorted [Ord α] [Std.TransOrd α] [Std.LawfulEqOrd α] (l : List α) :
    (dropRepeats (sorted l)).Nodup :=
  nodup_dropRepeats (fun _ _ => eq_of_atMost) (pairwise_sortBy atMost atMost_total atMost_trans l)

theorem dropRepeats_cons {a : α} {l : List α} (h : ∀ b ∈ l.head?, a ≠ b) :
    dropRepeats (a :: l) = a :: dropRepeats l := by
  cases l with
  | nil => rfl
  | cons b rest => rw [dropRepeats, if_neg (h b rfl)]

/-- The removal of repetitions from a list in order commutes with leaving elements out, if elements
that compare alike are left out together. -/
theorem filter_dropRepeats {le : α → α → Bool} {keep : α → Bool}
    (hkeep : ∀ a b, le a b = true → le b a = true → keep a = keep b) {l : List α}
    (h : l.Pairwise fun a b => le a b = true) :
    (dropRepeats l).filter keep = dropRepeats (l.filter keep) := by
  induction l using dropRepeats.induct with
  | case1 => rfl
  | case2 a => cases hk : keep a <;> simp [dropRepeats, hk]
  | case3 a rest ih =>
    rw [dropRepeats, if_pos rfl, ih h.tail]
    cases hk : keep a <;> simp [dropRepeats, hk]
  | case4 a b rest hab ih =>
    rw [List.pairwise_cons] at h
    rw [dropRepeats, if_neg hab, List.filter_cons, ih h.2]
    by_cases ha : keep a = true
    · rw [if_pos ha, List.filter_cons_of_pos ha]
      refine (dropRepeats_cons fun c hc => ?_).symm
      rintro rfl
      have hmem := List.mem_filter.mp (List.mem_of_mem_head? hc)
      -- an `a` behind `b` compares like `b`, so `b` is not left out and comes first
      have hba : le b a = true := by
        rcases List.mem_cons.mp hmem.1 with rfl | hmem
        · exact absurd rfl hab
        · exact (List.pairwise_cons.mp h.2).1 a hmem
      have hb : keep b = true := (hkeep b a hba (h.1 b List.mem_cons_self)).trans ha
      rw [List.filter_cons, if_pos hb] at hc
      exact hab (Option.some.inj hc).symm
    · rw [if_neg ha, List.filter_cons_of_neg ha]

theorem head?_dropRepeats (l : List α) : (dropRepeats l).head? = l.head? := by
  induction l using dropRepeats.induct with
  | case1 => rfl
  | case2 a => rfl
  | case3 a rest ih =>
    rw [dropRepeats, if_pos rfl, ih]
    rfl
  | case4 a b rest hab ih =>
    rw [dropRepeats, if_neg hab]
    rfl

/-- No neighbours are equal once equal neighbours are cut down to one. -/
theorem isChain_dropRepeats (l : List α) : (dropRepeats l).IsChain (· ≠ ·) := by
  induction l using dropRepeats.induct with
  | case1 => exact .nil
  | case2 a => exact .singleton a
  | case3 a rest ih =>
    rw [dropRepeats, if_pos rfl]
    exact ih
  | case4 a b rest hab ih =>
    rw [dropRepeats, if_neg hab, List.isChain_cons]
    refine ⟨fun c hc => ?_, ih⟩
    rw [head?_dropRepeats] at hc
    cases hc
    exact hab

theorem dropRepeats_sublist (l : List α) : (dropRepeats l).Sublist l := by
  induction l using dropRepeats.induct with
  | case1 => exact .refl _
  | case2 a => exact .refl _
  | case3 a rest ih =>
    rw [dropRepeats, if_pos rfl]
    exact ih.cons a
  | case4 a b rest hab ih =>
    rw [dropRepeats, if_neg hab]
    exact ih.cons_cons a

/-- Elements of a list of which no neighbours are equal outlive the removal of repetitions. -/
theorem sublist_dropRepeats {c l : List α} (hc : c.IsChain (· ≠ ·)) (h : c.Sublist l) :
    c.Sublist (dropRepeats l) := by
  induction l using dropRepeats.induct generalizing c with
  | case1 => exact h
  | case2 a => exact h
  | case3 a rest ih =>
    rw [dropRepeats, if_pos rfl]
    refine ih hc ?_
    cases h with
    | cons _ h => exact h
    | cons_cons _ h =>
      -- what follows an `a` is another element, so it does not start at the second `a`
      cases h with
      | cons _ h => exact h.cons_cons a
      | cons_cons _ h => exact absurd rfl (List.isChain_cons_cons.mp hc).1
  | case4 a b rest hab ih =>
    rw [dropRepeats, if_neg hab]
    cases h with
    | cons _ h => exact (ih hc h).cons a
    | cons_cons _ h => exact (ih hc.tail h).cons_cons a

omit [DecidableEq α] in
/-- Between equal elements of a list without equal neighbours stands another one. -/
theorem exists_between_of_isChain {a : α} {l : List α} (hl : l.IsChain (· ≠ ·))
    (h : [a, a].Sublist l) : ∃ b, a ≠ b ∧ [a, b, a].Sublist l := by
  induction l with
  | nil => cases h
  | cons x rest ih =>
    cases h with
    | cons _ h =>
      obtain ⟨b, hne, hb⟩ := ih hl.tail h
      exact ⟨b, hne, hb.cons x⟩
    | cons_cons _ h =>
      cases rest with
      | nil => cases h
      | cons b rest =>
        have hne : a ≠ b := (List.isChain_cons_cons.mp hl).1
        have hmem := (List.mem_cons.mp (List.singleton_sublist.mp h)).resolve_left hne
        exact ⟨b, hne, ((List.singleton_sublist.mpr hmem).cons_cons b).cons_cons a⟩

end Repetitions

section Stable

variable {le : α → α → Bool} (htot : ∀ a b, le a b = true ∨ le b a = true)
  (htrans : ∀ a b c, le a b = true → le b c = true → le a c = true)

include htot htrans

/-- Elements that compare alike stand in a sorted list in the order in which they stood before. -/
theorem sublist_sortBy_iff {c l : List α} (hc : ∀ a ∈ c, ∀ b ∈ c, le a b = true) :
    c.Sublist (sortBy le l) ↔ c.Sublist l := by
  cases c with
  | nil => exact iff_of_true (List.nil_sublist _) (List.nil_sublist _)
  | cons a rest =>
    let alike (b : α) : Bool := le a b && le b a
    have hkeep : (a :: rest).filter alike = a :: rest := List.filter_eq_self.mpr fun b hb =>
      Bool.and_eq_true_iff.mpr ⟨hc a List.mem_cons_self b hb, hc b hb a List.mem_cons_self⟩
    have hclass : (sortBy le l).filter alike = l.filter alike := by
      rw [filter_sortBy htot htrans]
      refine sortBy_of_forall fun x hx y hy => ?_
      have hx := Bool.and_eq_true_iff.mp (List.mem_filter.mp hx).2
      have hy := Bool.and_eq_true_iff.mp (List.mem_filter.mp hy).2
      exact htrans x a y hx.2 hy.1
    constructor
    · intro h
      have hfilter := h.filter alike
      rw [hkeep, hclass] at hfilter
      exact hfilter.trans List.filter_sublist
    · intro h
      have hfilter := h.filter alike
      rw [hkeep, ← hclass] at hfilter
      exact hfilter.trans List.filter_sublist

/-- **What sorting and the removal of equal neighbours leave twice**: an element that stood on both
sides of another one with which it compares alike. -/
theorem nodup_dropRepeats_sortBy_iff [DecidableEq α] {l : List α} :
    (dropRepeats (sortBy le l)).Nodup ↔
      ∀ a b, le a b = true → le b a = true → [a, b, a].Sublist l → a = b := by
  have hrefl : ∀ a, le a a = true := fun a => (htot a a).elim id id
  have halike : ∀ a b, le a b = true → le b a = true →
      ∀ x ∈ [a, b, a], ∀ y ∈ [a, b, a], le x y = true := by
    intro a b hab hba
    simp [hab, hba, hrefl]
  rw [List.nodup_iff_sublist]
  constructor
  · intro h a b hab hba hsub
    by_contra hne
    have hchain : [a, b, a].IsChain (· ≠ ·) := by simp [hne, Ne.symm hne]
    have hsorted := (sublist_sortBy_iff htot htrans (halike a b hab hba)).mpr hsub
    exact h a (((List.sublist_cons_self b [a]).cons_cons a).trans
      (sublist_dropRepeats hchain hsorted))
  · intro h a htwice
    obtain ⟨b, hne, hsub⟩ := exists_between_of_isChain (isChain_dropRepeats _) htwice
    have hsorted := hsub.trans (dropRepeats_sublist _)
    have hpairs := (pairwise_sortBy le htot htrans l).sublist hsorted
    simp only [List.pairwise_cons, List.mem_cons, forall_eq_or_imp] at hpairs
    obtain ⟨⟨hab, -⟩, ⟨hba, -⟩, -⟩ := hpairs
    exact hne (h a b hab hba
      ((sublist_sortBy_iff htot htrans (halike a b hab hba)).mp hsorted))

end Stable

end EffectAudit
