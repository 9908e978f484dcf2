import EffectAudit.Data.OrderedMap

/-!
# Revision of a map

A map is revised by passes over some of its keys. In a pass every key in its turn may get a new
value, which the keys behind it see already. Passes go on until one of them changes nothing. Since
every new value weighs less than what was there before, they come to an end.

## Main definitions

* `Revision`: a rule for new values
* `Revision.pass`: one pass over keys
* `Revision.settle`: passes until nothing changes

## Main results

* `Revision.settle_settled`: in the end no key gets a new value
* `Revision.settle_invariant`: what every new value keeps is kept by the passes
-/

namespace EffectAudit

/-- A rule that gives new values to the keys of a map. -/
structure Revision (κ α : Type) [Ord κ] where
  /-- The new value of a key, unless the key keeps what it has. -/
  update : OrderedMap κ α → κ → Option α
  weight : Option α → Nat
  lighter : ∀ m k a, update m k = some a → weight (some a) < weight (m.get? k)

namespace Revision

open OrderedMap

variable {κ α : Type} [Ord κ] [Std.TransOrd κ] [Std.LawfulEqOrd κ] (r : Revision κ α)

/-- One key in its turn. The flag says whether anything has changed in the pass. -/
def visit (state : OrderedMap κ α × Bool) (k : κ) : OrderedMap κ α × Bool :=
  match r.update state.1 k with
  | none => state
  | some a => (state.1.insert k a, true)

/-- One pass over keys. -/
def pass (keys : List κ) (m : OrderedMap κ α) : OrderedMap κ α × Bool :=
  keys.foldl r.visit (m, false)

omit [Std.TransOrd κ] [Std.LawfulEqOrd κ] in
/-- The weight of the values at keys. -/
def load (keys : List κ) (m : OrderedMap κ α) : Nat :=
  keys.foldr (fun k n => r.weight (m.get? k) + n) 0

/-! ## One pass -/

section Pass

variable {keys : List κ} {m : OrderedMap κ α} {k : κ} {a : α}

theorem load_insert_le (hlt : r.weight (some a) < r.weight (m.get? k)) :
    r.load keys (m.insert k a) ≤ r.load keys m := by
  induction keys with
  | nil => exact Nat.le_refl 0
  | cons k' rest ih =>
    have hhead : r.weight ((m.insert k a).get? k') ≤ r.weight (m.get? k') := by
      rw [get?_insert]
      split
      · rename_i heq
        rw [Std.LawfulEqOrd.eq_of_compare heq]
        exact Nat.le_of_lt hlt
      · exact Nat.le_refl _
    exact Nat.add_le_add hhead ih

/-- A lighter value at one of the keys makes the load lighter. -/
theorem load_insert_lt (hk : k ∈ keys) (hlt : r.weight (some a) < r.weight (m.get? k)) :
    r.load keys (m.insert k a) < r.load keys m := by
  induction keys with
  | nil => exact absurd hk List.not_mem_nil
  | cons k' rest ih =>
    by_cases heq : k' = k
    · subst heq
      have hhead : r.weight ((m.insert k' a).get? k') < r.weight (m.get? k') := by
        rw [get?_insert, if_pos Std.ReflOrd.compare_self]
        exact hlt
      exact Nat.add_lt_add_of_lt_of_le hhead (r.load_insert_le hlt)
    · have hhead : (m.insert k a).get? k' = m.get? k' := by
        rw [get?_insert, if_neg fun hc => heq (Std.LawfulEqOrd.eq_of_compare hc)]
      have htail := ih ((List.mem_cons.mp hk).resolve_left (Ne.symm heq))
      show r.weight ((m.insert k a).get? k') + _ < r.weight (m.get? k') + _
      rw [hhead]
      exact Nat.add_lt_add_left htail _

theorem visit_of_none {state : OrderedMap κ α × Bool} (h : r.update state.1 k = none) :
    r.visit state k = state := by
  unfold visit
  rw [h]

theorem visit_of_some {state : OrderedMap κ α × Bool} (h : r.update state.1 k = some a) :
    r.visit state k = (state.1.insert k a, true) := by
  unfold visit
  rw [h]

/-- Visits of keys leave everything as it is, or make the load lighter and set the flag. -/
theorem foldl_visit_cases {l : List κ} (hl : ∀ k ∈ l, k ∈ keys) (state : OrderedMap κ α × Bool) :
    (l.foldl r.visit state = state ∧ ∀ k ∈ l, r.update state.1 k = none) ∨
      (l.foldl r.visit state).2 = true ∧
        r.load keys (l.foldl r.visit state).1 < r.load keys state.1 := by
  induction l generalizing state with
  | nil => exact .inl ⟨rfl, fun k hk => absurd hk List.not_mem_nil⟩
  | cons k rest ih =>
    obtain ⟨hk, hrest⟩ := List.forall_mem_cons.mp hl
    rw [List.foldl_cons]
    cases hup : r.update state.1 k with
    | none =>
      rw [r.visit_of_none hup]
      exact (ih hrest state).imp (fun h => ⟨h.1, List.forall_mem_cons.mpr ⟨hup, h.2⟩⟩) id
    | some a =>
      have hless := r.load_insert_lt hk (r.lighter state.1 k a hup)
      rw [r.visit_of_some hup]
      rcases ih hrest (state.1.insert k a, true) with ⟨hsame, -⟩ | ⟨htrue, hmore⟩
      · rw [hsame]
        exact .inr ⟨rfl, hless⟩
      · exact .inr ⟨htrue, Nat.lt_trans hmore hless⟩

/-- A pass that changes something makes the load lighter. -/
theorem load_pass_lt (h : (r.pass keys m).2 = true) :
    r.load keys (r.pass keys m).1 < r.load keys m := by
  rcases r.foldl_visit_cases (fun _ hk => hk) (m, false) with ⟨hsame, -⟩ | ⟨-, hlt⟩
  · unfold pass at h
    rw [hsame] at h
    cases h
  · exact hlt

end Pass

/-! ## Passes until nothing changes -/

/-- Passes over keys until one changes nothing. -/
def settle (keys : List κ) (m : OrderedMap κ α) : OrderedMap κ α :=
  let next := r.pass keys m
  if next.2 = true then settle keys next.1 else next.1
termination_by r.load keys m
decreasing_by
  rename_i h
  exact r.load_pass_lt h

/-- When the passes are over, no key gets a new value. -/
theorem settle_settled (keys : List κ) (m : OrderedMap κ α) :
    ∀ k ∈ keys, r.update (r.settle keys m) k = none := by
  fun_induction settle r keys m with
  | case1 m next h ih => exact ih
  | case2 m next h =>
    rcases r.foldl_visit_cases (fun _ hk => hk) (m, false) with ⟨hsame, hnone⟩ | ⟨htrue, -⟩
    · have hnext : next.1 = m := congrArg Prod.fst hsame
      rw [hnext]
      exact hnone
    · exact absurd htrue h

/-- What every new value keeps is kept by the passes. -/
theorem settle_invariant {P : OrderedMap κ α → Prop} {keys : List κ}
    (hstep : ∀ m, P m → ∀ k ∈ keys, ∀ a, r.update m k = some a → P (m.insert k a))
    {m : OrderedMap κ α} (hm : P m) : P (r.settle keys m) := by
  have hvisits : ∀ (l : List κ) (state : OrderedMap κ α × Bool), (∀ k ∈ l, k ∈ keys) → P state.1 →
      P (l.foldl r.visit state).1 := by
    intro l
    induction l with
    | nil => exact fun _ _ h => h
    | cons k rest ih =>
      intro state hl hstate
      obtain ⟨hk, hrest⟩ := List.forall_mem_cons.mp hl
      refine ih _ hrest ?_
      cases hup : r.update state.1 k with
      | none => rwa [r.visit_of_none hup]
      | some a =>
        rw [r.visit_of_some hup]
        exact hstep state.1 hstate k hk a hup
  have hpass : ∀ m, P m → P (r.pass keys m).1 := fun m hm =>
    hvisits keys (m, false) (fun _ hk => hk) hm
  fun_induction settle r keys m with
  | case1 m next h ih => exact ih (hpass m hm)
  | case2 m next h => exact hpass m hm

end Revision

end EffectAudit
