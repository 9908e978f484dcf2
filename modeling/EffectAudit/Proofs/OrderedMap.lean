import EffectAudit.Data.OrderedMap
import Mathlib.Data.List.Forall2
import Mathlib.Data.List.Nodup

/-!
# Look-ups in maps

What the operations on maps do to look-ups, and how the entries of a map follow from them.

## Main definitions

* `OrderedMap.AllValues`: maps whose values have a property
* `OrderedMap.Rel`: maps with the same keys and related values

## Main results

* `OrderedMap.get?_filter`, `OrderedMap.get?_map`: look-ups after the operations
* `OrderedMap.get?_insertAll_of_mem`, `OrderedMap.get?_insertAll_of_not_mem`: look-ups after many
  insertions
* `OrderedMap.entries_filter_congr`: entries that pass a test are the same in maps that agree on
  them
* `OrderedMap.Rel.forall₂_entries`: the entries of maps with related values
-/

namespace EffectAudit.OrderedMap

variable {κ α β γ : Type} [Ord κ] [Std.TransOrd κ] [Std.LawfulEqOrd κ]

section Lookups

variable {m : OrderedMap κ α} {k q : κ} {a : α}

theorem mem_keys : k ∈ m.keys ↔ ∃ a, m.get? k = some a := by
  unfold keys
  rw [List.mem_map]
  constructor
  · rintro ⟨⟨k, a⟩, h, rfl⟩
    exact ⟨a, mem_entries_iff.mp h⟩
  · rintro ⟨a, h⟩
    exact ⟨(k, a), mem_entries_iff.mpr h, rfl⟩

theorem mem_values : a ∈ m.values ↔ ∃ k, m.get? k = some a := by
  unfold values
  rw [List.mem_map]
  constructor
  · rintro ⟨⟨k, a⟩, h, rfl⟩
    exact ⟨k, mem_entries_iff.mp h⟩
  · rintro ⟨k, h⟩
    exact ⟨(k, a), mem_entries_iff.mpr h, rfl⟩

omit [Std.TransOrd κ] [Std.LawfulEqOrd κ] in
theorem contains_iff : m.contains k = true ↔ ∃ a, m.get? k = some a := Option.isSome_iff_exists

omit [Std.TransOrd κ] in
theorem nodup_entries (m : OrderedMap κ α) : m.entries.Pairwise fun a b => a.1 ≠ b.1 :=
  m.sorted.imp fun h he => by
    rw [he, Std.ReflOrd.compare_self] at h
    cases h

omit [Std.TransOrd κ] in
theorem nodup_keys (m : OrderedMap κ α) : m.keys.Nodup := List.pairwise_map.mpr m.nodup_entries

@[simp]
theorem get?_filter (m : OrderedMap κ α) (p : κ → α → Bool) (k : κ) :
    (m.filter p).get? k = (m.get? k).filter (p k) := by
  refine Option.ext fun a => ?_
  rw [Option.filter_eq_some_iff, ← mem_entries_iff, ← mem_entries_iff]
  exact List.mem_filter

@[simp]
theorem get?_map (m : OrderedMap κ α) (f : κ → α → β) (k : κ) :
    (m.map f).get? k = (m.get? k).map (f k) := by
  refine Option.ext fun b => ?_
  rw [Option.map_eq_some_iff, ← mem_entries_iff]
  constructor
  · intro h
    obtain ⟨⟨k', a⟩, hmem, he⟩ := List.mem_map.mp h
    cases he
    exact ⟨a, mem_entries_iff.mp hmem, rfl⟩
  · rintro ⟨a, ha, rfl⟩
    exact List.mem_map.mpr ⟨(k, a), mem_entries_iff.mpr ha, rfl⟩

omit [Std.TransOrd κ] [Std.LawfulEqOrd κ] in
theorem keys_map (m : OrderedMap κ α) (f : κ → α → β) : (m.map f).keys = m.keys := by
  unfold keys map
  rw [List.map_map]
  rfl

end Lookups

/-! ## Many insertions -/

section InsertAll

theorem ofList_eq (l : List (κ × α)) : ofList l = insertAll ∅ l := rfl

theorem get?_insertAll_of_not_mem {m : OrderedMap κ α} {l : List (κ × α)} {k : κ}
    (h : ∀ e ∈ l, e.1 ≠ k) : (m.insertAll l).get? k = m.get? k := by
  induction l generalizing m with
  | nil => rfl
  | cons e rest ih =>
    have hrec := ih (m := m.insert e.1 e.2) fun e' he' => h e' (List.mem_cons_of_mem _ he')
    exact hrec.trans (get?_insert_of_ne (Ne.symm (h e List.mem_cons_self)))

theorem get?_insertAll_of_mem {m : OrderedMap κ α} {l : List (κ × α)} {k : κ} {a : α}
    (h : (k, a) ∈ l) (hu : ∀ b, (k, b) ∈ l → b = a) : (m.insertAll l).get? k = some a := by
  induction l generalizing m with
  | nil => exact absurd h List.not_mem_nil
  | cons e rest ih =>
    -- a later entry for the key takes precedence, and it has the same value
    by_cases hk : ∃ b, (k, b) ∈ rest
    · obtain ⟨b, hb⟩ := hk
      have hba : b = a := hu b (List.mem_cons_of_mem _ hb)
      exact ih (hba ▸ hb) fun c hc => hu c (List.mem_cons_of_mem _ hc)
    · have hrest : ∀ e ∈ rest, e.1 ≠ k := fun e he hek => hk ⟨e.2, hek ▸ he⟩
      rcases List.mem_cons.mp h with rfl | h
      · exact (get?_insertAll_of_not_mem hrest).trans get?_insert_self
      · exact absurd ⟨a, h⟩ hk

theorem mem_of_get?_insertAll {m : OrderedMap κ α} {l : List (κ × α)} {k : κ} {a : α}
    (h : (m.insertAll l).get? k = some a) : (k, a) ∈ l ∨ m.get? k = some a := by
  induction l generalizing m with
  | nil => exact .inr h
  | cons e rest ih =>
    rcases ih h with h | h
    · exact .inl (List.mem_cons_of_mem _ h)
    · by_cases hk : k = e.1
      · subst hk
        rw [get?_insert_self] at h
        cases h
        exact .inl List.mem_cons_self
      · rw [get?_insert_of_ne hk] at h
        exact .inr h

theorem get?_ofList_of_mem {l : List (κ × α)} {k : κ} {a : α} (h : (k, a) ∈ l)
    (hu : ∀ b, (k, b) ∈ l → b = a) : (ofList l).get? k = some a := get?_insertAll_of_mem h hu

theorem mem_of_get?_ofList {l : List (κ × α)} {k : κ} {a : α} (h : (ofList l).get? k = some a) :
    (k, a) ∈ l := by
  rcases mem_of_get?_insertAll (ofList_eq l ▸ h) with h | h
  · exact h
  · cases h

/-- The values of the other map come first. -/
theorem get?_extend (m n : OrderedMap κ α) (k : κ) :
    (m.extend n).get? k = (n.get? k).or (m.get? k) := by
  unfold extend
  cases hget : n.get? k with
  | some a =>
    refine get?_insertAll_of_mem (mem_entries_iff.mpr hget) fun b hb => ?_
    rw [mem_entries_iff, hget] at hb
    exact (Option.some.inj hb).symm
  | none =>
    refine get?_insertAll_of_not_mem fun e he heq => ?_
    rw [← heq, mem_entries_iff.mp he] at hget
    cases hget

/-- The map of some keys with a value for each. -/
theorem get?_ofList_map [DecidableEq κ] (keys : List κ) (a : κ → α) (k : κ) :
    (ofList (keys.map fun k => (k, a k))).get? k = if k ∈ keys then some (a k) else none := by
  split
  · rename_i hk
    refine get?_ofList_of_mem (List.mem_map.mpr ⟨k, hk, rfl⟩) fun b hb => ?_
    obtain ⟨k', -, heq⟩ := List.mem_map.mp hb
    cases heq
    rfl
  · rename_i hk
    refine get?_insertAll_of_not_mem fun e he heq => hk ?_
    obtain ⟨k', hk', rfl⟩ := List.mem_map.mp he
    exact heq ▸ hk'

end InsertAll

/-- Steps for the entries of a map, which change another map at the same key only. -/
theorem get?_foldl_entries [DecidableEq κ] (files : OrderedMap κ β)
    (step : OrderedMap κ α → κ × β → OrderedMap κ α) (update : κ → Option α → Option α)
    (h : ∀ m, ∀ e ∈ files.entries, ∀ k,
      (step m e).get? k = if k = e.1 then update k (m.get? k) else m.get? k)
    (m : OrderedMap κ α) (k : κ) :
    (files.entries.foldl step m).get? k =
      if files.contains k = true then update k (m.get? k) else m.get? k := by
  have hcontains : files.contains k = true ↔ ∃ e ∈ files.entries, e.1 = k := by
    rw [contains_iff, ← mem_keys]
    exact List.mem_map
  simp only [hcontains]
  -- the induction is over entries with different keys: the key is met at most once
  have hl := files.nodup_entries
  generalize files.entries = l at h hl
  induction l generalizing m with
  | nil => simp
  | cons e rest ih =>
    rw [List.pairwise_cons] at hl
    rw [List.foldl_cons, ih _ (fun m e' he' => h m e' (List.mem_cons_of_mem _ he')) hl.2,
      h m e List.mem_cons_self]
    by_cases hk : k = e.1
    · have hnot : ¬ ∃ e' ∈ rest, e'.1 = k := by
        rintro ⟨e', he', hke⟩
        exact hl.1 e' he' (hk.symm.trans hke.symm)
      rw [if_neg hnot, if_pos hk, if_pos ⟨e, List.mem_cons_self, hk.symm⟩]
    · rw [if_neg hk]
      refine if_congr ?_ rfl rfl
      rw [List.exists_mem_cons_iff, or_iff_right (Ne.symm hk)]

/-! ## Entries -/

/-- The entries that pass a test are the same in two maps that agree on what passes it. -/
theorem entries_filter_congr {m n : OrderedMap κ α} {p : κ × α → Bool}
    (h : ∀ k a, p (k, a) = true → (m.get? k = some a ↔ n.get? k = some a)) :
    m.entries.filter p = n.entries.filter p := by
  refine eq_of_sorted_of_lookup (m.sorted.filter p) (n.sorted.filter p) fun ⟨k, a⟩ => ?_
  rw [List.mem_filter, List.mem_filter, mem_entries_iff, mem_entries_iff]
  exact and_congr_left (h k a)

/-- A key has at most one entry. -/
theorem entries_filter_key (m : OrderedMap κ α) {k : κ} {p : κ × α → Bool}
    (h : ∀ e, p e = true ↔ e.1 = k) :
    m.entries.filter p = ((m.get? k).map (k, ·)).toList := by
  refine eq_of_sorted_of_lookup (m.sorted.filter p) ?_ fun ⟨q, a⟩ => ?_
  · cases m.get? k with
    | none => exact .nil
    | some a => exact List.pairwise_singleton _ _
  · rw [List.mem_filter, mem_entries_iff, h, Option.mem_toList, Option.map_eq_some_iff]
    constructor
    · rintro ⟨hq, rfl⟩
      exact ⟨a, hq, rfl⟩
    · rintro ⟨b, hb, heq⟩
      cases heq
      exact ⟨hb, rfl⟩

/-! ## Maps whose values have a property -/

/-- All values of a map have a property. -/
def AllValues (P : α → Prop) (m : OrderedMap κ α) : Prop := ∀ k a, m.get? k = some a → P a

namespace AllValues

variable {P : α → Prop} {m : OrderedMap κ α}

theorem insert (h : m.AllValues P) {k : κ} {a : α} (ha : P a) : (m.insert k a).AllValues P := by
  intro q b hb
  rw [get?_insert] at hb
  split at hb
  · cases hb
    exact ha
  · exact h q b hb

theorem erase (h : m.AllValues P) (k : κ) : (m.erase k).AllValues P := by
  intro q b hb
  rw [get?_erase] at hb
  split at hb
  · cases hb
  · exact h q b hb

theorem filter (h : m.AllValues P) (p : κ → α → Bool) : (m.filter p).AllValues P := by
  intro q b hb
  rw [get?_filter, Option.filter_eq_some_iff] at hb
  exact h q b hb.1

omit [Std.TransOrd κ] [Std.LawfulEqOrd κ] in
/-- Steps that keep the property keep it one after the other. -/
theorem foldl {step : OrderedMap κ α → β → OrderedMap κ α}
    (hstep : ∀ m b, m.AllValues P → (step m b).AllValues P) (l : List β) (h : m.AllValues P) :
    (l.foldl step m).AllValues P := by
  induction l generalizing m with
  | nil => exact h
  | cons b rest ih => exact ih (hstep m b h)

end AllValues

/-! ## Maps with related values -/

/-- Two maps have the same keys, and related values at each of them. -/
def Rel (R : α → β → Prop) (m : OrderedMap κ α) (n : OrderedMap κ β) : Prop :=
  ∀ k, Option.Rel R (m.get? k) (n.get? k)

namespace Rel

variable {R : α → β → Prop} {m : OrderedMap κ α} {n : OrderedMap κ β}

omit [Std.TransOrd κ] [Std.LawfulEqOrd κ] in
/-- At each key there are two related values, or none. -/
theorem get?_cases (h : Rel R m n) (k : κ) : m.get? k = none ∧ n.get? k = none ∨
    ∃ a b, m.get? k = some a ∧ n.get? k = some b ∧ R a b := by
  have hk := h k
  generalize m.get? k = o, n.get? k = o' at hk
  cases hk with
  | none => exact .inl ⟨rfl, rfl⟩
  | some hab => exact .inr ⟨_, _, rfl, rfl, hab⟩

omit [Std.TransOrd κ] [Std.LawfulEqOrd κ] in
theorem mono {S : α → β → Prop} (h : Rel R m n) (hRS : ∀ a b, R a b → S a b) : Rel S m n :=
  fun k => by
    obtain ⟨hm, hn⟩ | ⟨a, b, hm, hn, hab⟩ := h.get?_cases k
    · rw [hm, hn]
      exact .none
    · rw [hm, hn]
      exact .some (hRS a b hab)

omit [Std.TransOrd κ] [Std.LawfulEqOrd κ] in
/-- What related values have in common is the same at each key. -/
theorem map_get? (h : Rel R m n) {f : α → γ} {g : β → γ} (hfg : ∀ a b, R a b → f a = g b) (k : κ) :
    (m.get? k).map f = (n.get? k).map g := by
  obtain ⟨hm, hn⟩ | ⟨a, b, hm, hn, hab⟩ := h.get?_cases k
  · rw [hm, hn]
    rfl
  · rw [hm, hn]
    exact congrArg some (hfg a b hab)

theorem map_eq (h : Rel R m n) {f : κ → α → γ} {g : κ → β → γ}
    (hfg : ∀ k a b, R a b → f k a = g k b) : m.map f = n.map g :=
  ext_get? fun k => by
    rw [get?_map, get?_map]
    exact h.map_get? (hfg k) k

theorem keys_eq (h : Rel R m n) : m.keys = n.keys := by
  have hunit : m.map (fun _ _ => ()) = n.map fun _ _ => () := h.map_eq fun _ _ _ _ => rfl
  rw [← keys_map m fun _ _ => (), hunit, keys_map]

/-- The entries correspond to each other in key order. -/
theorem forall₂_entries (h : Rel R m n) :
    List.Forall₂ (fun a b => a.1 = b.1 ∧ R a.2 b.2) m.entries n.entries := by
  have hkeys : List.Forall₂ (fun a b => a.1 = b.1) m.entries n.entries := by
    have heq : List.Forall₂ Eq m.keys n.keys := by
      rw [List.forall₂_eq_eq_eq]
      exact h.keys_eq
    unfold keys at heq
    rwa [List.forall₂_map_left_iff, List.forall₂_map_right_iff] at heq
  rw [List.forall₂_iff_zip] at hkeys ⊢
  refine ⟨hkeys.1, fun {a b} hab => ⟨hkeys.2 hab, ?_⟩⟩
  obtain ⟨ha, hb⟩ := List.of_mem_zip hab
  have hk := h a.1
  rw [mem_entries_iff.mp ha, hkeys.2 hab, mem_entries_iff.mp hb] at hk
  cases hk with
  | some hR => exact hR

theorem forall₂_values (h : Rel R m n) : List.Forall₂ R m.values n.values := by
  unfold values
  rw [List.forall₂_map_left_iff, List.forall₂_map_right_iff]
  exact h.forall₂_entries.imp fun _ _ hab => hab.2

theorem filter (h : Rel R m n) (test : κ → Bool) :
    Rel R (m.filter fun k _ => test k) (n.filter fun k _ => test k) := fun k => by
  rw [get?_filter, get?_filter]
  obtain ⟨hm, hn⟩ | ⟨a, b, hm, hn, hab⟩ := h.get?_cases k
  · rw [hm, hn]
    exact .none
  · rw [hm, hn, Option.filter_some, Option.filter_some]
    split
    · exact .some hab
    · exact .none

theorem insert (h : Rel R m n) (k : κ) {a : α} {b : β} (hab : R a b) :
    Rel R (m.insert k a) (n.insert k b) := fun q => by
  by_cases hq : q = k
  · subst hq
    rw [get?_insert_self, get?_insert_self]
    exact .some hab
  · rw [get?_insert_of_ne hq, get?_insert_of_ne hq]
    exact h q

theorem ofList {l : List (κ × α)} {l' : List (κ × β)}
    (h : List.Forall₂ (fun a b => a.1 = b.1 ∧ R a.2 b.2) l l') :
    Rel R (OrderedMap.ofList l) (OrderedMap.ofList l') := by
  have hinsert : ∀ {m : OrderedMap κ α} {n : OrderedMap κ β}, Rel R m n →
      Rel R (m.insertAll l) (n.insertAll l') := by
    induction h with
    | nil => exact id
    | cons hab _ ih =>
      intro m n hmn
      refine ih ?_
      dsimp only
      rw [hab.1]
      exact hmn.insert _ hab.2
  exact hinsert fun _ => .none

end Rel

end EffectAudit.OrderedMap
