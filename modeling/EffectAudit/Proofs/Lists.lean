import Mathlib.Data.List.Forall2
import Mathlib.Data.List.Nodup
import Mathlib.Data.List.Pairwise

/-!
# Lists that are put together

## Main results

* `flatMap_eq_of_unique`: one part is all there is, if the others are empty
* `eq_of_mem_of_nodup_flatMap`: parts that have nothing in common
* `filter_key_cases`: what is kept under one key
* `forall₂_filter_filterMap`: a test and a partial function that pick the same elements
* `perm_flatMap_of_forall₂`: parts that are put together in another order
* `eq_of_nodup_filterMap`: an element is told by its image
* `idxOf?_eq_some_iff_of_nodup`: the place of an element of a list without repetition
* `two_le_length_iff`: a list without repetition that has an element besides another
* `findSome?_find?_filter`: a search finds the same in a part that has what it finds
* `rel_findSome?`: searches with related answers find related ones
* `filterMap_getElem?_range`: a list is what stands at its places
-/

namespace EffectAudit

variable {α β γ : Type}

/-- If all parts but one are empty, the whole is that part. -/
theorem flatMap_eq_of_unique {l : List α} (hnodup : l.Nodup) {a : α} (ha : a ∈ l)
    {f : α → List β} (h : ∀ x ∈ l, x ≠ a → f x = []) : l.flatMap f = f a := by
  induction l with
  | nil => exact absurd ha List.not_mem_nil
  | cons x rest ih =>
    obtain ⟨hx, hrest⟩ := List.nodup_cons.mp hnodup
    rw [List.flatMap_cons]
    rcases List.mem_cons.mp ha with rfl | ha
    · have hnil : rest.flatMap f = [] := by
        refine List.flatMap_eq_nil_iff.mpr fun y hy => h y (List.mem_cons_of_mem _ hy) ?_
        rintro rfl
        exact hx hy
      rw [hnil, List.append_nil]
    · have hne : x ≠ a := by
        rintro rfl
        exact hx ha
      rw [h x List.mem_cons_self hne, List.nil_append]
      exact ih hrest ha fun y hy => h y (List.mem_cons_of_mem _ hy)

/-- Parts whose elements stand in another order give a whole of that kind. -/
theorem perm_flatMap_of_forall₂ {R : α → β → Prop} {f : α → List γ} {g : β → List γ}
    (hfg : ∀ a b, R a b → (f a).Perm (g b)) {l : List α} {l' : List β} (h : List.Forall₂ R l l') :
    (l.flatMap f).Perm (l'.flatMap g) := by
  induction h with
  | nil => exact .refl _
  | cons hab _ ih =>
    rw [List.flatMap_cons, List.flatMap_cons]
    exact (hfg _ _ hab).append ih

/-- Related lists have a partner for each element. -/
theorem exists_mem_of_forall₂ {R : α → β → Prop} {l : List α} {l' : List β}
    (h : List.Forall₂ R l l') {a : α} (ha : a ∈ l) : ∃ b ∈ l', R a b := by
  induction h with
  | nil => exact absurd ha List.not_mem_nil
  | @cons x y rest rest' hxy _ ih =>
    rcases List.mem_cons.mp ha with rfl | ha
    · exact ⟨y, List.mem_cons_self, hxy⟩
    · obtain ⟨b, hb, hR⟩ := ih ha
      exact ⟨b, List.mem_cons_of_mem y hb, hR⟩

/-- A test and a partial function that pick the same elements pick them in the same order. -/
theorem forall₂_filter_filterMap {R : β → γ → Prop} {e : α → β} {test : β → Bool}
    {f : α → Option γ} {l : List α} (hnone : ∀ a ∈ l, test (e a) = false → f a = none)
    (hsome : ∀ a ∈ l, test (e a) = true → ∃ c, f a = some c ∧ R (e a) c) :
    List.Forall₂ R ((l.map e).filter test) (l.filterMap f) := by
  induction l with
  | nil => exact .nil
  | cons a rest ih =>
    obtain ⟨hnone, hnone'⟩ := List.forall_mem_cons.mp hnone
    obtain ⟨hsome, hsome'⟩ := List.forall_mem_cons.mp hsome
    rw [List.map_cons]
    cases htest : test (e a) with
    | false =>
      rw [List.filter_cons_of_neg (by simp [htest]), List.filterMap_cons_none (hnone htest)]
      exact ih hnone' hsome'
    | true =>
      obtain ⟨c, hc, hR⟩ := hsome htest
      rw [List.filter_cons_of_pos htest, List.filterMap_cons_some hc]
      exact .cons hR (ih hnone' hsome')

/-- Where no two elements have one image, an element is told by its image. -/
theorem eq_of_nodup_filterMap {f : α → Option β} {l : List α} (hnodup : (l.filterMap f).Nodup)
    {a a' : α} (ha : a ∈ l) (ha' : a' ∈ l) {b : β} (hb : f a = some b) (hb' : f a' = some b) :
    a = a' := by
  by_contra hne
  have hpair := List.pairwise_filterMap.mp hnodup
  have hsymm : Std.Symm fun x y => ∀ c, f x = some c → ∀ d, f y = some d → c ≠ d :=
    ⟨fun x y hxy c hc d hd => (hxy d hd c hc).symm⟩
  exact hpair.forall ha ha' hne b hb b hb' rfl

/-- In a list without repetition an element has one place. -/
theorem idxOf?_eq_some_iff_of_nodup [DecidableEq α] {l : List α} (hnodup : l.Nodup) {a : α}
    {i : Nat} : l.idxOf? a = some i ↔ l[i]? = some a := by
  rw [List.idxOf?_eq_some_iff]
  constructor
  · rintro ⟨hi, ha, -⟩
    rw [List.getElem?_eq_getElem hi, ha]
  · intro h
    obtain ⟨hi, ha⟩ := List.getElem?_eq_some_iff.mp h
    refine ⟨hi, ha, fun j hj he => ?_⟩
    -- an earlier place does not hold the element, as it does not occur twice
    have : j = i := (List.Nodup.getElem_inj_iff hnodup).mp (he.trans ha.symm)
    omega

/-- A list without repetition has two elements if it has one besides a given one. -/
theorem two_le_length_iff {l : List α} (hnodup : l.Nodup) {a : α} (ha : a ∈ l) :
    2 ≤ l.length ↔ ∃ b ∈ l, b ≠ a := by
  cases l with
  | nil => exact absurd ha List.not_mem_nil
  | cons x rest =>
    cases rest with
    | nil =>
      obtain rfl := List.mem_singleton.mp ha
      simp
    | cons y rest =>
      refine ⟨fun _ => ?_, fun _ => by simp⟩
      have hxy : x ≠ y := fun h => (List.nodup_cons.mp hnodup).1 (h ▸ List.mem_cons_self)
      by_cases hx : x = a
      · exact ⟨y, by simp, fun hy => hxy (hx.trans hy.symm)⟩
      · exact ⟨x, by simp, hx⟩

/-- Searches whose answers are related step by step find related answers. -/
theorem rel_findSome? {R : γ → γ → Prop} {f : α → Option γ} {g : β → Option γ} {l : List α}
    {l' : List β} (h : List.Forall₂ (fun a b => Option.Rel R (f a) (g b)) l l') :
    Option.Rel R (l.findSome? f) (l'.findSome? g) := by
  induction h with
  | nil => exact .none
  | @cons a b _ _ hab _ ih =>
    rw [List.findSome?_cons, List.findSome?_cons]
    generalize f a = o, g b = o' at hab
    cases hab with
    | none => exact ih
    | some hR => exact .some hR

theorem find?_filter_of_imp {test keep : α → Bool} {l : List α}
    (h : ∀ a, l.find? test = some a → keep a = true) :
    (l.filter keep).find? test = l.find? test := by
  induction l with
  | nil => rfl
  | cons a rest ih =>
    cases htest : test a with
    | true =>
      have hkeep : keep a = true := h a (List.find?_cons_of_pos htest)
      rw [List.filter_cons_of_pos hkeep, List.find?_cons_of_pos htest,
        List.find?_cons_of_pos htest]
    | false =>
      have hneg : ¬ test a = true := by simp [htest]
      have hrest := ih fun b hb => h b (by rw [List.find?_cons_of_neg hneg, hb])
      rw [List.find?_cons_of_neg hneg, List.filter_cons]
      split
      · rw [List.find?_cons_of_neg hneg, hrest]
      · exact hrest

/-- A search by several tests in turn finds the same in a part of a list that has what it finds. -/
theorem findSome?_find?_filter {test : β → α → Bool} {keep : α → Bool} {l : List α} {bs : List β}
    (h : ∀ a, (bs.findSome? fun b => l.find? (test b)) = some a → keep a = true) :
    (bs.findSome? fun b => (l.filter keep).find? (test b)) =
      bs.findSome? fun b => l.find? (test b) := by
  induction bs with
  | nil => rfl
  | cons b rest ih =>
    have hb : (l.filter keep).find? (test b) = l.find? (test b) :=
      find?_filter_of_imp fun a ha => h a (by rw [List.findSome?_cons, ha])
    rw [List.findSome?_cons, List.findSome?_cons, hb]
    cases hfind : l.find? (test b) with
    | some a => rfl
    | none => exact ih fun a ha => h a (by rw [List.findSome?_cons, hfind, ← ha])

/-- Parts that have an element in common are one, if the list that they make up has no element
twice. -/
theorem eq_of_mem_of_nodup_flatMap {parts : α → List β} {l : List α}
    (h : (l.flatMap parts).Nodup) {a b : α} (ha : a ∈ l) (hb : b ∈ l) {x : β} (hxa : x ∈ parts a)
    (hxb : x ∈ parts b) : a = b := by
  by_contra hne
  have hsymm : Std.Symm (Function.onFun List.Disjoint parts) := ⟨fun _ _ hd _ hb ha => hd ha hb⟩
  exact (List.nodup_flatMap.mp h).2.forall ha hb hne hxa hxb

/-- Of pairs with different keys one at most has a given key. -/
theorem filter_key_cases [BEq α] [LawfulBEq α] {l : List (α × β)} (h : (l.map (·.1)).Nodup)
    (key : α) :
    l.filter (·.1 == key) = [] ∨ ∃ e ∈ l, e.1 = key ∧ l.filter (·.1 == key) = [e] := by
  have hmem : ∀ e ∈ l.filter (·.1 == key), e ∈ l ∧ e.1 = key := fun e he => by
    rwa [List.mem_filter, beq_iff_eq] at he
  have hnodup : ((l.filter (·.1 == key)).map (·.1)).Nodup := (List.filter_sublist.map _).nodup h
  generalize l.filter (·.1 == key) = kept at hmem hnodup
  cases kept with
  | nil => exact .inl rfl
  | cons e rest =>
    obtain ⟨he, hkey⟩ := hmem e List.mem_cons_self
    have hrest : rest = [] := by
      refine List.eq_nil_iff_forall_not_mem.mpr fun x hx => ?_
      have hsame : x.1 = e.1 := (hmem x (List.mem_cons_of_mem _ hx)).2.trans hkey.symm
      exact (List.nodup_cons.mp hnodup).1 (List.mem_map.mpr ⟨x, hx, hsame⟩)
    exact .inr ⟨e, he, hkey, by rw [hrest]⟩

/-- A list is what stands at its places. -/
theorem filterMap_getElem?_range (l : List α) : (List.range l.length).filterMap (l[·]?) = l := by
  induction l with
  | nil => rfl
  | cons a rest ih =>
    have hfirst : (a :: rest)[0]? = some a := rfl
    rw [List.length_cons, List.range_succ_eq_map, List.filterMap_cons_some hfirst,
      List.filterMap_map]
    exact congrArg (a :: ·) ih

end EffectAudit
