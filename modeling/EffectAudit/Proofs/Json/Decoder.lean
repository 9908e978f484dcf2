import EffectAudit.Json.Decoder
import Mathlib.Data.List.Nodup

/-!
# What readers find

A record that is written with each of its fields once is read field by field, and numbers that are
in range are read as they are written. Whatever stands inside of a value is less deeply nested than
the value.

## Main results

* `Json.word32?_nat`, `Json.int64?_int`: numbers
* `Json.record?_object`: the fields of a record
* `Json.depth_lt_of_mem_items`, `Json.depth_lt_of_mem_members`: nesting
-/

namespace EffectAudit.Json

variable {α : Type}

/-! ## Numbers -/

theorem word32?_nat (n : UInt32) : word32? (.nat n.toNat) = some n := by
  have hlt : n.toNat < UInt32.size := n.toNat_lt
  simp [word32?, nat?, int?, nat, hlt]

theorem int64?_int (n : Int64) : int64? (.number (.int n.toInt)) = some n := by
  show (if Int64.minValue.toInt ≤ n.toInt ∧ n.toInt ≤ Int64.maxValue.toInt then
    some (Int64.ofInt n.toInt) else none) = some n
  rw [if_pos ⟨n.minValue_le_toInt, n.toInt_le⟩, n.ofInt_toInt]

/-! ## Records and lists -/

theorem member?_cons_self (name : String) (v : Json) (rest : List (String × Json)) :
    member? name ((name, v) :: rest) = some v := by
  simp [member?]

theorem member?_cons_of_ne {name name' : String} (h : name' ≠ name) (v : Json)
    (rest : List (String × Json)) : member? name ((name', v) :: rest) = member? name rest := by
  simp [member?, h]

/-- A field that is written once is found. -/
theorem member?_eq {members : List (String × Json)} (hnodup : (members.map (·.1)).Nodup)
    {m : String × Json} (hm : m ∈ members) : member? m.1 members = some m.2 := by
  induction members with
  | nil => exact absurd hm List.not_mem_nil
  | cons a rest ih =>
    obtain ⟨ha, hrest⟩ := List.nodup_cons.mp hnodup
    rcases List.mem_cons.mp hm with rfl | hm
    · exact member?_cons_self m.1 m.2 rest
    · have hne : a.1 ≠ m.1 := fun he => ha (List.mem_map.mpr ⟨m, hm, he.symm⟩)
      exact (member?_cons_of_ne hne a.2 rest).trans (ih hrest hm)

theorem member?_eq_none {name : String} {members : List (String × Json)}
    (h : (members.filter (·.1 == name)).length = 0) : member? name members = none := by
  have hfilter : members.filter (·.1 == name) = [] := List.eq_nil_of_length_eq_zero h
  rw [member?, List.find?_eq_none.mpr (List.filter_eq_nil_iff.mp hfilter)]
  rfl

/-- A record with each of its fields in order is read field by field. -/
theorem record?_object {byPosition : Bool} {names : List String} {members : List (String × Json)}
    (hnames : members.map (·.1) = names) (hnodup : names.Nodup) :
    record? byPosition names (.object members) = some (members.map fun m => some m.2) := by
  subst hnames
  have honce : ∀ name, (members.filter (·.1 == name)).length ≤ 1 := by
    intro name
    have hcount : (members.filter (·.1 == name)).length = (members.map (·.1)).count name := by
      rw [List.count, List.countP_map, List.countP_eq_length_filter]
      rfl
    rw [hcount]
    exact List.nodup_iff_count_le_one.mp hnodup name
  unfold record?
  dsimp only
  rw [if_pos (List.all_eq_true.mpr fun name _ => decide_eq_true (honce name)), List.map_map]
  exact congrArg some (List.map_congr_left fun m hm => member?_eq hnodup hm)

theorem listOf?_nil (read : Json → Option α) : listOf? read (.array []) = some [] := rfl

theorem listOf?_cons {read : Json → Option α} {j : Json} {js : List Json} {x : α} {xs : List α}
    (hx : read j = some x) (hxs : listOf? read (.array js) = some xs) :
    listOf? read (.array (j :: js)) = some (x :: xs) := by
  have hmap : js.mapM read = some xs := hxs
  show (j :: js).mapM read = _
  rw [List.mapM_cons, hx, hmap]
  rfl

/-- Items that are read back one by one are read back as a list. -/
theorem listOf?_map {read : Json → Option α} {write : α → Json} {l : List α}
    (h : ∀ a ∈ l, read (write a) = some a) : listOf? read (.array (l.map write)) = some l := by
  induction l with
  | nil => rfl
  | cons a rest ih =>
    obtain ⟨ha, hrest⟩ := List.forall_mem_cons.mp h
    exact listOf?_cons ha (ih hrest)

theorem optional?_of_ne_null {read : Json → Option α} {j : Json} (h : j ≠ .null) :
    optional? read (some j) = (read j).map some := by
  cases j with
  | null => exact absurd rfl h
  | _ => rfl

/-- An optional field is read back if `null` is none of the values. -/
theorem optional?_orNull {read : Json → Option α} {write : α → Json} {value : Option α}
    (h : ∀ a ∈ value, write a ≠ .null ∧ read (write a) = some a) :
    optional? read (some (.orNull (value.map write))) = some value := by
  cases value with
  | none => rfl
  | some a =>
    obtain ⟨hne, hread⟩ := h a rfl
    show optional? read (some (write a)) = _
    rw [optional?_of_ne_null hne, hread]
    rfl

/-! ## Nesting -/

theorem depth_le_itemsDepth {items : List Json} {j : Json} (h : j ∈ items) :
    j.depth ≤ itemsDepth items := by
  induction items with
  | nil => exact absurd h List.not_mem_nil
  | cons a rest ih =>
    unfold itemsDepth
    rcases List.mem_cons.mp h with rfl | h
    · exact Nat.le_max_left ..
    · exact Nat.le_trans (ih h) (Nat.le_max_right ..)

theorem depth_le_membersDepth {members : List (String × Json)} {m : String × Json}
    (h : m ∈ members) : m.2.depth ≤ membersDepth members := by
  induction members with
  | nil => exact absurd h List.not_mem_nil
  | cons a rest ih =>
    unfold membersDepth
    rcases List.mem_cons.mp h with rfl | h
    · exact Nat.le_max_left ..
    · exact Nat.le_trans (ih h) (Nat.le_max_right ..)

theorem depth_lt_of_mem_items {items : List Json} {j : Json} (h : j ∈ items) :
    j.depth < (Json.array items).depth := Nat.lt_succ_of_le (depth_le_itemsDepth h)

theorem depth_lt_of_mem_members {members : List (String × Json)} {m : String × Json}
    (h : m ∈ members) : m.2.depth < (Json.object members).depth :=
  Nat.lt_succ_of_le (depth_le_membersDepth h)

end EffectAudit.Json
