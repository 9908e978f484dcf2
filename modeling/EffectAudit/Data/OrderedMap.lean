/-!
# Maps in key order

A finite map is the list of its entries in ascending key order. There is one such list for each map,
so two maps are equal exactly when they give the same answers, and every list taken from a map is in
key order.

## Main definitions

* `OrderedMap`, with `get?`, `insert`, `erase`, `filter`, `ofList`

## Main results

* `OrderedMap.get?_insert`, `OrderedMap.get?_erase`: what the operations do to look-ups
* `OrderedMap.length_entries_insert`, `OrderedMap.length_entries_erase`: the number of entries
* `OrderedMap.ext_get?`: a map is determined by its look-ups
-/

namespace EffectAudit

/-- A finite map, as its entries in ascending key order. -/
structure OrderedMap (κ : Type) (α : Type) [Ord κ] where
  entries : List (κ × α)
  sorted : entries.Pairwise fun a b => compare a.1 b.1 = .lt

namespace OrderedMap

variable {κ α β : Type} [Ord κ]

/-- The map without entries. -/
def empty : OrderedMap κ α := ⟨[], .nil⟩

instance : EmptyCollection (OrderedMap κ α) := ⟨empty⟩

instance : Inhabited (OrderedMap κ α) := ⟨empty⟩

/-- The value at a key in a list of entries. -/
def lookup (k : κ) : List (κ × α) → Option α
  | [] => none
  | (k', a) :: rest => if compare k k' = .eq then some a else lookup k rest

/-- The value at a key. -/
def get? (m : OrderedMap κ α) (k : κ) : Option α := lookup k m.entries

/-- Whether there is a value at a key. -/
def contains (m : OrderedMap κ α) (k : κ) : Bool := (m.get? k).isSome

/-- The keys, in ascending order. -/
def keys (m : OrderedMap κ α) : List κ := m.entries.map (·.1)

/-- The values, in ascending order of their keys. -/
def values (m : OrderedMap κ α) : List α := m.entries.map (·.2)

/-- Puts an entry into a list of entries, in place of one with the same key. -/
def insertEntry (k : κ) (a : α) : List (κ × α) → List (κ × α)
  | [] => [(k, a)]
  | (k', a') :: rest =>
    match compare k k' with
    | .lt => (k, a) :: (k', a') :: rest
    | .eq => (k, a) :: rest
    | .gt => (k', a') :: insertEntry k a rest

section Insert

variable [Std.TransOrd κ] [Std.LawfulEqOrd κ]

omit [Std.TransOrd κ] [Std.LawfulEqOrd κ] in
theorem mem_insertEntry {k : κ} {a : α} {e : κ × α} {l : List (κ × α)}
    (h : e ∈ insertEntry k a l) : e = (k, a) ∨ e ∈ l := by
  induction l with
  | nil => simpa [insertEntry] using h
  | cons x rest ih =>
    obtain ⟨k', a'⟩ := x
    unfold insertEntry at h
    split at h
    · simpa using h
    · rcases List.mem_cons.mp h with h | h
      · exact .inl h
      · exact .inr (List.mem_cons_of_mem _ h)
    · rcases List.mem_cons.mp h with h | h
      · exact .inr (h ▸ List.mem_cons_self)
      · exact (ih h).imp id (List.mem_cons_of_mem _)

theorem sorted_insertEntry {k : κ} {a : α} {l : List (κ × α)}
    (h : l.Pairwise fun a b => compare a.1 b.1 = .lt) :
    (insertEntry k a l).Pairwise fun a b => compare a.1 b.1 = .lt := by
  induction l with
  | nil => simp [insertEntry]
  | cons x rest ih =>
    obtain ⟨k', a'⟩ := x
    rw [List.pairwise_cons] at h
    unfold insertEntry
    split
    · rename_i hlt
      refine List.pairwise_cons.mpr ⟨fun e he => ?_, List.pairwise_cons.mpr h⟩
      rcases List.mem_cons.mp he with rfl | he
      · exact hlt
      · exact Std.TransCmp.lt_trans hlt (h.1 e he)
    · rename_i heq
      have hk : k = k' := Std.LawfulEqOrd.eq_of_compare heq
      refine List.pairwise_cons.mpr ⟨fun e he => ?_, h.2⟩
      exact hk ▸ h.1 e he
    · rename_i hgt
      refine List.pairwise_cons.mpr ⟨fun e he => ?_, ih h.2⟩
      rcases mem_insertEntry he with rfl | he
      · exact Std.OrientedCmp.lt_of_gt hgt
      · exact h.1 e he

/-- The map with a value at a key, whatever was there before. -/
def insert (m : OrderedMap κ α) (k : κ) (a : α) : OrderedMap κ α :=
  ⟨insertEntry k a m.entries, sorted_insertEntry m.sorted⟩

/-- The map with all entries of a list; of entries with one key the last counts. -/
def insertAll (m : OrderedMap κ α) (l : List (κ × α)) : OrderedMap κ α :=
  l.foldl (fun m e => m.insert e.1 e.2) m

/-- The map of a list of entries; of entries with one key the last counts. -/
def ofList (l : List (κ × α)) : OrderedMap κ α := empty.insertAll l

/-- The map with all entries of another one. -/
def extend (m n : OrderedMap κ α) : OrderedMap κ α := m.insertAll n.entries

end Insert

/-- The map with the entries that pass a test. -/
def filter (m : OrderedMap κ α) (p : κ → α → Bool) : OrderedMap κ α :=
  ⟨m.entries.filter fun e => p e.1 e.2, m.sorted.filter _⟩

/-- The map without a value at a key. -/
def erase (m : OrderedMap κ α) (k : κ) : OrderedMap κ α :=
  m.filter fun k' _ => compare k k' ≠ .eq

/-- The map with every value changed. -/
def map (m : OrderedMap κ α) (f : κ → α → β) : OrderedMap κ β :=
  ⟨m.entries.map fun e => (e.1, f e.1 e.2), List.pairwise_map.mpr m.sorted⟩

/-! ## Look-ups -/

section Lookup

@[simp]
theorem get?_empty (k : κ) : (empty : OrderedMap κ α).get? k = none := rfl

variable [Std.TransOrd κ] [Std.LawfulEqOrd κ]

omit [Std.TransOrd κ] in
theorem lookup_insertEntry (k : κ) (a : α) (l : List (κ × α)) (q : κ) :
    lookup q (insertEntry k a l) = if compare q k = .eq then some a else lookup q l := by
  induction l with
  | nil => simp [insertEntry, lookup]
  | cons x rest ih =>
    obtain ⟨k', a'⟩ := x
    unfold insertEntry
    split
    · simp [lookup]
    · rename_i heq
      have hk : k = k' := Std.LawfulEqOrd.eq_of_compare heq
      subst hk
      simp only [lookup]
      split <;> rfl
    · rename_i hgt
      simp only [lookup, ih]
      by_cases hq : compare q k' = .eq
      · have hqk : q = k' := Std.LawfulEqOrd.eq_of_compare hq
        subst hqk
        have : compare q k ≠ .eq := by
          intro h
          have : q = k := Std.LawfulEqOrd.eq_of_compare h
          subst this
          rw [hq] at hgt
          cases hgt
        simp [this]
      · simp [hq]

@[simp]
theorem get?_insert (m : OrderedMap κ α) (k : κ) (a : α) (q : κ) :
    (m.insert k a).get? q = if compare q k = .eq then some a else m.get? q :=
  lookup_insertEntry k a m.entries q

@[simp]
theorem get?_erase (m : OrderedMap κ α) (k q : κ) :
    (m.erase k).get? q = if compare k q = .eq then none else m.get? q := by
  obtain ⟨l, hl⟩ := m
  simp only [get?, erase, filter]
  clear hl
  induction l with
  | nil => simp [lookup]
  | cons x rest ih =>
    obtain ⟨k', a⟩ := x
    by_cases hk : compare k k' = .eq
    · have hkk : k = k' := Std.LawfulEqOrd.eq_of_compare hk
      subst hkk
      simp only [List.filter_cons, Std.ReflOrd.compare_self, ne_eq, not_true_eq_false,
        decide_false, Bool.false_eq_true, if_false, ih, lookup]
      by_cases hq : compare k q = .eq
      · simp [hq]
      · have : compare q k ≠ .eq := fun h => hq (Std.OrientedCmp.eq_symm h)
        simp [hq, this]
    · simp only [List.filter_cons, ne_eq, hk, not_false_eq_true, decide_true, if_true, lookup, ih]
      by_cases hq : compare q k' = .eq
      · have hqk : q = k' := Std.LawfulEqOrd.eq_of_compare hq
        subst hqk
        simp [hk]
      · simp [hq]

@[simp]
theorem get?_insert_self {m : OrderedMap κ α} {k : κ} {a : α} : (m.insert k a).get? k = some a := by
  simp

theorem get?_insert_of_ne {m : OrderedMap κ α} {k q : κ} {a : α} (h : q ≠ k) :
    (m.insert k a).get? q = m.get? q := by
  simp [h]

@[simp]
theorem get?_erase_self {m : OrderedMap κ α} {k : κ} : (m.erase k).get? k = none := by simp

theorem get?_erase_of_ne {m : OrderedMap κ α} {k q : κ} (h : q ≠ k) :
    (m.erase k).get? q = m.get? q := by
  simp [Ne.symm h]

theorem get?_insert_eq_ite [DecidableEq κ] (m : OrderedMap κ α) (k : κ) (a : α) (q : κ) :
    (m.insert k a).get? q = if q = k then some a else m.get? q := by
  split
  · rename_i hq
    rw [hq, get?_insert_self]
  · rename_i hq
    rw [get?_insert_of_ne hq]

theorem get?_erase_eq_ite [DecidableEq κ] (m : OrderedMap κ α) (k q : κ) :
    (m.erase k).get? q = if q = k then none else m.get? q := by
  split
  · rename_i hq
    rw [hq, get?_erase_self]
  · rename_i hq
    rw [get?_erase_of_ne hq]

theorem get?_foldl_erase [DecidableEq κ] (l : List κ) (m : OrderedMap κ α) (k : κ) :
    (l.foldl erase m).get? k = if k ∈ l then none else m.get? k := by
  induction l generalizing m with
  | nil => rfl
  | cons k' rest ih =>
    rw [List.foldl_cons, ih, get?_erase_eq_ite]
    by_cases hk : k = k' <;> simp [hk]

theorem lookup_of_mem {k : κ} {a : α} {l : List (κ × α)}
    (hl : l.Pairwise fun a b => compare a.1 b.1 = .lt) (h : (k, a) ∈ l) :
    lookup k l = some a := by
  induction l with
  | nil => cases h
  | cons x rest ih =>
    obtain ⟨k', a'⟩ := x
    rw [List.pairwise_cons] at hl
    rcases List.mem_cons.mp h with h | h
    · cases h
      simp [lookup]
    · have hlt : compare k' k = .lt := hl.1 _ h
      have hne : compare k k' ≠ .eq := by
        intro he
        rw [Std.OrientedCmp.eq_symm he] at hlt
        cases hlt
      simp only [lookup, hne, if_false]
      exact ih hl.2 h

omit [Std.TransOrd κ] in
theorem mem_of_lookup {k : κ} {a : α} {l : List (κ × α)} (h : lookup k l = some a) :
    (k, a) ∈ l := by
  induction l with
  | nil => cases h
  | cons x rest ih =>
    obtain ⟨k', a'⟩ := x
    simp only [lookup] at h
    split at h
    · rename_i he
      have hk : k = k' := Std.LawfulEqOrd.eq_of_compare he
      cases h
      exact hk ▸ List.mem_cons_self
    · exact List.mem_cons_of_mem _ (ih h)

/-- An entry is a look-up that succeeds. -/
theorem mem_entries_iff {m : OrderedMap κ α} {k : κ} {a : α} :
    (k, a) ∈ m.entries ↔ m.get? k = some a :=
  ⟨lookup_of_mem m.sorted, mem_of_lookup⟩

theorem eq_of_sorted_of_lookup {l l' : List (κ × α)}
    (hl : l.Pairwise fun a b => compare a.1 b.1 = .lt)
    (hl' : l'.Pairwise fun a b => compare a.1 b.1 = .lt)
    (h : ∀ e, e ∈ l ↔ e ∈ l') : l = l' := by
  induction l generalizing l' with
  | nil =>
    cases l' with
    | nil => rfl
    | cons y _ => exact absurd ((h y).mpr List.mem_cons_self) List.not_mem_nil
  | cons x rest ih =>
    cases l' with
    | nil => exact absurd ((h x).mp List.mem_cons_self) List.not_mem_nil
    | cons y rest' =>
      rw [List.pairwise_cons] at hl hl'
      have irrefl : ∀ k : κ, compare k k ≠ .lt := fun k => by simp
      have hxy : x = y := by
        rcases List.mem_cons.mp ((h x).mp List.mem_cons_self) with hx | hx
        · exact hx
        · rcases List.mem_cons.mp ((h y).mpr List.mem_cons_self) with hy | hy
          · exact hy.symm
          · exact absurd (Std.TransCmp.lt_trans (hl.1 y hy) (hl'.1 x hx)) (irrefl _)
      subst hxy
      congr 1
      refine ih hl.2 hl'.2 fun e => ?_
      constructor
      · intro he
        rcases List.mem_cons.mp ((h e).mp (List.mem_cons_of_mem _ he)) with rfl | he'
        · exact absurd (hl.1 e he) (irrefl _)
        · exact he'
      · intro he
        rcases List.mem_cons.mp ((h e).mpr (List.mem_cons_of_mem _ he)) with rfl | he'
        · exact absurd (hl'.1 e he) (irrefl _)
        · exact he'

/-- A new value at a key that has one leaves the number of entries. -/
theorem length_entries_insert {m : OrderedMap κ α} {k : κ} {a b : α} (h : m.get? k = some b) :
    (m.insert k a).entries.length = m.entries.length := by
  obtain ⟨l, hl⟩ := m
  show (insertEntry k a l).length = l.length
  change lookup k l = some b at h
  induction l with
  | nil => cases h
  | cons x rest ih =>
    obtain ⟨k', a'⟩ := x
    rw [List.pairwise_cons] at hl
    unfold insertEntry
    split
    · rename_i hlt
      -- all keys are greater, so there is no value at the key
      exfalso
      have hmem := mem_of_lookup h
      have hgt : compare k k = .lt := by
        rcases List.mem_cons.mp hmem with heq | hmem
        · cases heq
          exact hlt
        · exact Std.TransCmp.lt_trans hlt (hl.1 _ hmem)
      simp at hgt
    · rfl
    · rename_i hgt
      have hne : compare k k' ≠ .eq := by simp [hgt]
      simp only [lookup, hne, if_false] at h
      rw [List.length_cons, ih hl.2 h, List.length_cons]

omit [Std.TransOrd κ] in
/-- A map has one entry less without a key that has a value. -/
theorem length_entries_erase {m : OrderedMap κ α} {k : κ} {a : α} (h : m.get? k = some a) :
    (m.erase k).entries.length + 1 = m.entries.length := by
  obtain ⟨l, hl⟩ := m
  show (l.filter fun e => compare k e.1 ≠ .eq).length + 1 = l.length
  change lookup k l = some a at h
  induction l with
  | nil => cases h
  | cons x rest ih =>
    obtain ⟨k', a'⟩ := x
    rw [List.pairwise_cons] at hl
    by_cases hk : compare k k' = .eq
    · obtain rfl : k = k' := Std.LawfulEqOrd.eq_of_compare hk
      -- the keys behind it are different
      have hrest : (rest.filter fun e => compare k e.1 ≠ .eq) = rest := by
        refine List.filter_eq_self.mpr fun e he => ?_
        simp [hl.1 e he]
      rw [List.filter_cons_of_neg (by simp), hrest, List.length_cons]
    · simp only [lookup, hk, if_false] at h
      rw [List.filter_cons_of_pos (by simpa using hk), List.length_cons, ih hl.2 h,
        List.length_cons]

/-- A map is determined by its look-ups. -/
theorem ext_get? {m n : OrderedMap κ α} (h : ∀ k, m.get? k = n.get? k) : m = n := by
  have he : m.entries = n.entries := eq_of_sorted_of_lookup m.sorted n.sorted fun ⟨k, a⟩ => by
    rw [mem_entries_iff, mem_entries_iff, h k]
  obtain ⟨_, _⟩ := m
  obtain ⟨_, _⟩ := n
  cases he
  rfl

end Lookup

end OrderedMap

end EffectAudit
