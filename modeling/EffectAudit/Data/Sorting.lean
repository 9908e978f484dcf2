/-!
# Lists in order

Sorting by insertion keeps the order of elements that compare alike. Lists without repetition keep
the first of equal elements.

## Main definitions

* `insertBy`, `sortBy`: stable sorting by a comparison
* `distinct`: a list without repetition
* `dropRepeats`: a list without neighbours that are equal
-/

namespace EffectAudit

variable {α : Type}

/-- Puts an element before the first one that it is not greater than. -/
def insertBy (le : α → α → Bool) (a : α) : List α → List α
  | [] => [a]
  | b :: rest => if le a b then a :: b :: rest else b :: insertBy le a rest

/-- The list in ascending order; elements that compare alike keep their order. -/
def sortBy (le : α → α → Bool) (l : List α) : List α := l.foldr (insertBy le) []

/-- Whether `a` is at most `b`. -/
def atMost [Ord α] (a b : α) : Bool := (compare a b).isLE

/-- The list in ascending order. -/
def sorted [Ord α] (l : List α) : List α := sortBy atMost l

/-- The list without repetition; the first of equal elements stays. -/
def distinct [DecidableEq α] : List α → List α
  | [] => []
  | a :: rest => a :: (distinct rest).filter (· ≠ a)

/-- The list with each run of equal neighbours cut down to one. -/
def dropRepeats [DecidableEq α] : List α → List α
  | [] => []
  | [a] => [a]
  | a :: b :: rest => if a = b then dropRepeats (b :: rest) else a :: dropRepeats (b :: rest)

theorem mem_insertBy {le : α → α → Bool} {a x : α} {l : List α} :
    x ∈ insertBy le a l ↔ x = a ∨ x ∈ l := by
  induction l with
  | nil => simp [insertBy]
  | cons b rest ih =>
    unfold insertBy
    split
    · simp
    · simp only [List.mem_cons, ih]
      exact ⟨fun h => h.elim (fun h => .inr (.inl h)) (fun h => h.imp id .inr),
        fun h => h.elim (fun h => .inr (.inl h)) (fun h => h.imp id .inr)⟩

@[simp]
theorem mem_sortBy {le : α → α → Bool} {x : α} {l : List α} : x ∈ sortBy le l ↔ x ∈ l := by
  induction l with
  | nil => simp [sortBy]
  | cons a rest ih =>
    have h : sortBy le (a :: rest) = insertBy le a (sortBy le rest) := rfl
    rw [h, mem_insertBy, ih, List.mem_cons]

@[simp]
theorem mem_distinct [DecidableEq α] {x : α} {l : List α} : x ∈ distinct l ↔ x ∈ l := by
  induction l with
  | nil => simp [distinct]
  | cons a rest ih =>
    simp only [distinct, List.mem_cons, List.mem_filter, ih, decide_eq_true_eq]
    by_cases h : x = a <;> simp [h]

end EffectAudit
