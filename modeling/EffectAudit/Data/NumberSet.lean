/-!
# Sets of numbers

A finite set of natural numbers is kept as the number whose binary digits say which numbers are in
it. Searches use such sets for the vertices that they have visited.

## Main definitions

* `NumberSet`: the sets, with `∅`, `∈` and `NumberSet.insert`

## Main results

* `NumberSet.mem_insert`, `NumberSet.mem_insertAll`: what the operations do to membership
-/

namespace EffectAudit

/-- A finite set of numbers. -/
structure NumberSet where
  /-- The number with the binary digit one at each member. -/
  bits : Nat
  deriving DecidableEq

namespace NumberSet

instance : EmptyCollection NumberSet := ⟨⟨0⟩⟩

/-- Whether a number is in a set. -/
def contains (s : NumberSet) (n : Nat) : Bool := s.bits.testBit n

instance : Membership Nat NumberSet := ⟨fun s n => s.contains n = true⟩

instance (n : Nat) (s : NumberSet) : Decidable (n ∈ s) :=
  inferInstanceAs (Decidable (s.contains n = true))

/-- The set with a number. -/
def insert (s : NumberSet) (n : Nat) : NumberSet := ⟨s.bits ||| 1 <<< n⟩

/-- The set with all numbers of a list. -/
def insertAll (s : NumberSet) (l : List Nat) : NumberSet := l.foldl insert s

/-- The set of the numbers of a list. -/
def ofList (l : List Nat) : NumberSet := insertAll ∅ l

theorem mem_def {n : Nat} {s : NumberSet} : n ∈ s ↔ s.contains n = true := Iff.rfl

@[simp]
theorem not_mem_empty (n : Nat) : n ∉ (∅ : NumberSet) := by
  have h : (∅ : NumberSet).contains n = false := Nat.zero_testBit n
  rw [mem_def, h]
  exact Bool.false_ne_true

@[simp]
theorem mem_insert {s : NumberSet} {n m : Nat} : m ∈ s.insert n ↔ m = n ∨ m ∈ s := by
  simp only [mem_def, contains, insert, Nat.testBit_or, Nat.testBit_shiftLeft, Bool.or_eq_true,
    Bool.and_eq_true, decide_eq_true_eq, Nat.testBit_one_eq_true_iff_self_eq_zero]
  rw [or_comm]
  exact or_congr (by omega) Iff.rfl

@[simp]
theorem mem_insertAll {s : NumberSet} {l : List Nat} {m : Nat} :
    m ∈ s.insertAll l ↔ m ∈ l ∨ m ∈ s := by
  induction l generalizing s with
  | nil => simp [insertAll]
  | cons n l ih =>
    have h : s.insertAll (n :: l) = (s.insert n).insertAll l := rfl
    rw [h, ih, mem_insert, List.mem_cons]
    exact ⟨fun h => h.elim (.inl ∘ .inr) fun h => h.elim (.inl ∘ .inl) .inr,
      fun h => h.elim (fun h => h.elim (.inr ∘ .inl) .inl) (.inr ∘ .inr)⟩

@[simp]
theorem mem_ofList {l : List Nat} {m : Nat} : m ∈ ofList l ↔ m ∈ l := by
  simp [ofList]

end NumberSet

end EffectAudit
