import EffectAudit.Vocabulary.Effect

/-!
# Sets of effects

A set of effects is one bit per effect, so that union and difference are bit operations and a
set lists its members in vocabulary order, however they were found.

## Main definitions

* `EffectSet`: the sets, with `∅`, `insert`, `union`, `difference`
* `EffectSet.toList`: the members in vocabulary order
* `EffectSet.text`: the clause text, such as `[Database, Network]`

## Main results

* `EffectSet.ext_iff`: a set is determined by its members
* `mem_insert`, `mem_union`, `mem_difference`, `mem_toList`: what each operation does to them
* `EffectSet.size_lt_size`: sets are finite, so they cannot grow for ever
-/

namespace EffectAudit

/-- A set of effects; bit `e.index` says whether `e` is a member. -/
structure EffectSet where
  bits : BitVec 6
  deriving DecidableEq

namespace EffectSet

/-- Whether an effect is a member. -/
def contains (s : EffectSet) (e : Effect) : Bool := s.bits.getLsbD e.index

instance : Membership Effect EffectSet where
  mem s e := s.contains e = true

instance (e : Effect) (s : EffectSet) : Decidable (e ∈ s) :=
  inferInstanceAs (Decidable (s.contains e = true))

/-- The set without members. -/
def empty : EffectSet := ⟨0#6⟩

instance : EmptyCollection EffectSet := ⟨empty⟩

instance : Inhabited EffectSet := ⟨empty⟩

/-- The set with one member more. -/
def insert (s : EffectSet) (e : Effect) : EffectSet := ⟨s.bits ||| BitVec.twoPow 6 e.index⟩

/-- The members of either set. -/
def union (s t : EffectSet) : EffectSet := ⟨s.bits ||| t.bits⟩

/-- The members of `s` that are not in `t`. -/
def difference (s t : EffectSet) : EffectSet := ⟨s.bits &&& ~~~t.bits⟩

/-- The set of the members of a list. -/
def ofList (es : List Effect) : EffectSet := es.foldl insert empty

/-- The members, in vocabulary order. -/
def toList (s : EffectSet) : List Effect := Effect.all.filter s.contains

/-- Whether the set has no member. -/
def isEmpty (s : EffectSet) : Bool := s.bits == 0#6

/-- The number of members. -/
def size (s : EffectSet) : Nat := s.toList.length

/-- Whether every member of `s` is a member of `t`. -/
def isSubset (s t : EffectSet) : Bool := (s.difference t).isEmpty

/-- The text of a `uses` clause with these effects, such as `[Database, Network]`. -/
def text (s : EffectSet) : String :=
  "[" ++ ", ".intercalate (s.toList.map Effect.name) ++ "]"

theorem mem_def {e : Effect} {s : EffectSet} : e ∈ s ↔ s.contains e = true := Iff.rfl

@[simp]
theorem not_mem_empty (e : Effect) : ¬ e ∈ (∅ : EffectSet) := by
  cases e <;> decide

@[simp]
theorem mem_insert {s : EffectSet} {e f : Effect} : f ∈ s.insert e ↔ f = e ∨ f ∈ s := by
  have hf := f.index_lt
  simp only [mem_def, contains, insert, BitVec.getLsbD_or, Bool.or_eq_true, BitVec.getLsbD_twoPow,
    Bool.and_eq_true, decide_eq_true_eq, Effect.index_inj]
  constructor
  · rintro (h | ⟨-, rfl⟩)
    · exact .inr h
    · exact .inl rfl
  · rintro (rfl | h)
    · exact .inr ⟨hf, rfl⟩
    · exact .inl h

@[simp]
theorem mem_union {s t : EffectSet} {e : Effect} : e ∈ s.union t ↔ e ∈ s ∨ e ∈ t := by
  simp [mem_def, contains, union]

@[simp]
theorem mem_difference {s t : EffectSet} {e : Effect} :
    e ∈ s.difference t ↔ e ∈ s ∧ ¬ e ∈ t := by
  have := e.index_lt
  simp [mem_def, contains, difference, this]

@[simp]
theorem mem_toList {s : EffectSet} {e : Effect} : e ∈ s.toList ↔ e ∈ s := by
  simp [toList, mem_def, Effect.mem_all]

/-- A set is determined by its members. -/
theorem ext_iff {s t : EffectSet} : s = t ↔ ∀ e, e ∈ s ↔ e ∈ t := by
  refine ⟨fun h e => h ▸ Iff.rfl, fun h => ?_⟩
  have bit : ∀ e : Effect, s.bits.getLsbD e.index = t.bits.getLsbD e.index := fun e =>
    Bool.eq_iff_iff.mpr (h e)
  obtain ⟨s⟩ := s
  obtain ⟨t⟩ := t
  congr 1
  refine BitVec.eq_of_getLsbD_eq fun i hi => ?_
  match i, hi with
  | 0, _ => exact bit .database
  | 1, _ => exact bit .network
  | 2, _ => exact bit .fileSystem
  | 3, _ => exact bit .logging
  | 4, _ => exact bit .console
  | 5, _ => exact bit .memory

theorem size_le (s : EffectSet) : s.size ≤ Effect.all.length := List.length_filter_le _ _

/-- A set with more members than those of another is larger. -/
theorem size_lt_size {s t : EffectSet} (hsub : ∀ e ∈ s, e ∈ t) (hne : s ≠ t) :
    s.size < t.size := by
  have hsublist : s.toList.Sublist t.toList := by
    have hfilter : s.toList = t.toList.filter s.contains := by
      unfold toList
      rw [List.filter_filter]
      refine List.filter_congr fun e _ => ?_
      rw [Bool.eq_iff_iff, Bool.and_eq_true]
      exact ⟨fun h => ⟨h, hsub e h⟩, fun h => h.1⟩
    rw [hfilter]
    exact List.filter_sublist
  refine Nat.lt_of_le_of_ne hsublist.length_le fun hlength => hne ?_
  have hlists := hsublist.eq_of_length hlength
  refine ext_iff.mpr fun e => ?_
  rw [← mem_toList, hlists, mem_toList]

end EffectSet

end EffectAudit
