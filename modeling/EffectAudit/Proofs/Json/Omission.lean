import EffectAudit.Proofs.Json.Decoder

/-!
# Leaving out what is the default

A schema says of every kind of value which kinds its members and items have, and which members have
a default. Members that hold their default can be left out, in any combination and at any depth. A
reader that follows the schema does not see it: it is put together from readers of parts, and for
each way to do so there is a lemma here.

The two readers that are compared may differ, since a reader can depend on how deeply nested a value
is, and leaving out members makes values less deep.

## Main definitions

* `Json.Schema`: the kinds of values, with their parts and defaults
* `Json.Schema.Omits`: one value is another without some of the members that hold their default
* `Json.Refines`: the results of two readers
* `Json.Schema.Keeps`: the second reader finds in a value with omissions what the first one finds

## Main results

* `Json.Schema.refines_record?`, `Json.Schema.refines_tagged?`: records and alternatives
* `Json.Schema.Keeps.listOf?`: lists
-/

namespace EffectAudit.Json

/-- The kinds of values of a format. -/
structure Schema (κ : Type) where
  /-- The kind of a member, or of the content of a case. -/
  member : κ → String → κ
  /-- The kind of an item of an array. -/
  item : κ → Nat → κ
  /-- What a member is taken to be if it is left out. -/
  default? : κ → String → Option Json

namespace Schema

mutual

/-- The second value is the first without some members that hold their default. -/
inductive Omits {κ : Type} (S : Schema κ) : κ → Json → Json → Prop
  | refl {k : κ} {j : Json} : S.Omits k j j
  | array {k : κ} {items items' : List Json} (h : S.OmitsItems k 0 items items') :
    S.Omits k (.array items) (.array items')
  | object {k : κ} {members members' : List (String × Json)}
    (h : S.OmitsMembers k members members') : S.Omits k (.object members) (.object members')

/-- Omissions inside of items, from the given position on. -/
inductive OmitsItems {κ : Type} (S : Schema κ) : κ → Nat → List Json → List Json → Prop
  | nil {k : κ} {i : Nat} : S.OmitsItems k i [] []
  | cons {k : κ} {i : Nat} {v v' : Json} {rest rest' : List Json}
    (h : S.Omits (S.item k i) v v') (hrest : S.OmitsItems k (i + 1) rest rest') :
    S.OmitsItems k i (v :: rest) (v' :: rest')

/-- Omissions of members and inside of them. -/
inductive OmitsMembers {κ : Type} (S : Schema κ) :
    κ → List (String × Json) → List (String × Json) → Prop
  | nil {k : κ} : S.OmitsMembers k [] []
  | keep {k : κ} {name : String} {v v' : Json} {rest rest' : List (String × Json)}
    (h : S.Omits (S.member k name) v v') (hrest : S.OmitsMembers k rest rest') :
    S.OmitsMembers k ((name, v) :: rest) ((name, v') :: rest')
  | drop {k : κ} {name : String} {v : Json} {rest rest' : List (String × Json)}
    (h : S.default? k name = some v) (hrest : S.OmitsMembers k rest rest') :
    S.OmitsMembers k ((name, v) :: rest) rest'

end

end Schema

/-- Whatever the first reading gives, the second gives something that is related to it. -/
def Refines {α β : Type} (P : α → β → Prop) (o : Option α) (o' : Option β) : Prop :=
  ∀ x, o = some x → ∃ y, o' = some y ∧ P x y

namespace Refines

variable {α β γ δ : Type} {P : α → β → Prop} {Q : γ → δ → Prop}

theorem none {o' : Option β} : Refines P .none o' := nofun

theorem some {x : α} {y : β} (h : P x y) : Refines P (.some x) (.some y) := by
  rintro _ ⟨⟩
  exact ⟨y, rfl, h⟩

theorem ite {c c' : Prop} [Decidable c] [Decidable c'] {o : Option α} {o' : Option β}
    (hc : c → c') (h : c → Refines P o o') :
    Refines P (if c then o else .none) (if c' then o' else .none) := by
  by_cases hif : c
  · rw [if_pos hif, if_pos (hc hif)]
    exact h hif
  · rw [if_neg hif]
    exact .none

theorem refl (o : Option α) : Refines (· = ·) o o := fun x hx => ⟨x, hx, rfl⟩

theorem bind {o : Option α} {o' : Option β} {f : α → Option γ} {f' : β → Option δ}
    (h : Refines P o o') (hf : ∀ x y, P x y → Refines Q (f x) (f' y)) :
    Refines Q (o >>= f) (o' >>= f') := by
  intro z hz
  obtain ⟨x, hx, hz⟩ := Option.bind_eq_some_iff.mp hz
  obtain ⟨y, rfl, hxy⟩ := h x hx
  exact hf x y hxy z hz

/-- A bind after readings that give the same. -/
theorem bind_eq {o o' : Option α} {f : α → Option γ} {f' : α → Option δ}
    (h : Refines (· = ·) o o') (hf : ∀ x, Refines Q (f x) (f' x)) :
    Refines Q (o >>= f) (o' >>= f') :=
  h.bind fun x _ hxy => hxy ▸ hf x

theorem map {o o' : Option α} (h : Refines (· = ·) o o') (f : α → γ) :
    Refines (· = ·) (o.map f) (o'.map f) := by
  intro z hz
  obtain ⟨x, hx, rfl⟩ := Option.map_eq_some_iff.mp hz
  obtain ⟨_, rfl, rfl⟩ := h x hx
  exact ⟨f x, rfl, rfl⟩

end Refines

namespace Schema

variable {κ α β : Type} {S : Schema κ} {k k' : κ} {d : Nat} {j j' : Json}

/-! ## Items and members -/

theorem OmitsItems.refl (l : List Json) (i : Nat) : S.OmitsItems k i l l := by
  induction l generalizing i with
  | nil => exact .nil
  | cons v rest ih => exact .cons .refl (ih (i + 1))

theorem OmitsMembers.refl (l : List (String × Json)) : S.OmitsMembers k l l := by
  induction l with
  | nil => exact .nil
  | cons m rest ih => exact .keep .refl ih

theorem Omits.exists_items {items : List Json} (h : S.Omits k (.array items) j') :
    ∃ items', j' = .array items' ∧ S.OmitsItems k 0 items items' := by
  cases h with
  | refl => exact ⟨items, rfl, .refl items 0⟩
  | array h => exact ⟨_, rfl, h⟩

theorem Omits.exists_members {members : List (String × Json)}
    (h : S.Omits k (.object members) j') :
    ∃ members', j' = .object members' ∧ S.OmitsMembers k members members' := by
  cases h with
  | refl => exact ⟨members, rfl, .refl members⟩
  | object h => exact ⟨_, rfl, h⟩

theorem Omits.eq_null_iff (h : S.Omits k j j') : j = .null ↔ j' = .null := by
  cases h with
  | refl => exact Iff.rfl
  | array => exact ⟨nofun, nofun⟩
  | object => exact ⟨nofun, nofun⟩

/-- A kind of values in which nothing can be left out. -/
structure IsPlain (S : Schema κ) (k : κ) : Prop where
  member (name : String) : S.member k name = k
  item (i : Nat) : S.item k i = k
  default? (name : String) : S.default? k name = none

mutual

theorem Omits.eq_of_isPlain {k : κ} (hk : S.IsPlain k) {j j' : Json} : S.Omits k j j' → j = j'
  | .refl => rfl
  | .array h => congrArg Json.array (h.eq_of_isPlain hk)
  | .object h => congrArg Json.object (h.eq_of_isPlain hk)

theorem OmitsItems.eq_of_isPlain {k : κ} (hk : S.IsPlain k) {i : Nat} {l l' : List Json} :
    S.OmitsItems k i l l' → l = l'
  | .nil => rfl
  | .cons h hrest => by
    have hitem : S.IsPlain (S.item k i) := (hk.item i).symm ▸ hk
    rw [h.eq_of_isPlain hitem, hrest.eq_of_isPlain hk]

theorem OmitsMembers.eq_of_isPlain {k : κ} (hk : S.IsPlain k)
    {l l' : List (String × Json)} : S.OmitsMembers k l l' → l = l'
  | .nil => rfl
  | @OmitsMembers.keep _ _ _ name _ _ _ _ h hrest => by
    have hmember : S.IsPlain (S.member k name) := (hk.member name).symm ▸ hk
    rw [h.eq_of_isPlain hmember, hrest.eq_of_isPlain hk]
  | .drop h _ => nomatch (hk.default? _).symm.trans h

end

theorem OmitsItems.eq_of_items_isPlain {i : Nat} {l l' : List Json} (h : S.OmitsItems k i l l')
    (hk : ∀ i, S.IsPlain (S.item k i)) : l = l' := by
  induction l generalizing i l' with
  | nil =>
    cases h
    rfl
  | cons v rest ih =>
    cases h with
    | cons h hrest => rw [h.eq_of_isPlain (hk i), ih hrest]

/-! ## Records -/

/-- A field of a record, before and after omissions. What is still there nests less than `d`. -/
inductive OmitsField (S : Schema κ) (k : κ) (d : Nat) (name : String) :
    Option Json → Option Json → Prop
  | absent : S.OmitsField k d name none none
  | kept {v v' : Json} (h : S.Omits (S.member k name) v v') (hd : v'.depth < d) :
    S.OmitsField k d name (some v) (some v')
  | dropped {v : Json} (h : S.default? k name = some v) : S.OmitsField k d name (some v) none

/-- The fields of a record, before and after omissions. -/
inductive OmitsFields (S : Schema κ) (k : κ) (d : Nat) :
    List String → List (Option Json) → List (Option Json) → Prop
  | nil : S.OmitsFields k d [] [] []
  | cons {name : String} {f f' : Option Json} {names : List String} {fs fs' : List (Option Json)}
    (h : S.OmitsField k d name f f') (hrest : S.OmitsFields k d names fs fs') :
    S.OmitsFields k d (name :: names) (f :: fs) (f' :: fs')

/-- Omissions do not repeat a member. -/
theorem OmitsMembers.length_filter_le {l l' : List (String × Json)} (h : S.OmitsMembers k l l')
    (name : String) : (l'.filter (·.1 == name)).length ≤ (l.filter (·.1 == name)).length := by
  induction l generalizing l' with
  | nil =>
    cases h
    exact Nat.le_refl _
  | cons m rest ih =>
    cases h with
    | keep _ hrest =>
      have hle := ih hrest
      rw [List.filter_cons, List.filter_cons]
      split <;> simp [hle]
    | drop _ hrest =>
      have hle := ih hrest
      rw [List.filter_cons]
      split
      · exact Nat.le_succ_of_le hle
      · exact hle

/-- A member that is not repeated is a field before and after omissions. -/
theorem OmitsMembers.omitsField {l l' : List (String × Json)} (h : S.OmitsMembers k l l')
    {name : String} (honce : (l.filter (·.1 == name)).length ≤ 1)
    (hd : ∀ m ∈ l', m.2.depth < d) : S.OmitsField k d name (member? name l) (member? name l') := by
  induction l generalizing l' with
  | nil =>
    cases h
    exact .absent
  | cons m rest ih =>
    obtain ⟨name', v⟩ := m
    by_cases hne : name' = name
    · subst hne
      rw [member?_cons_self]
      cases h with
      | keep h hrest =>
        rw [member?_cons_self]
        exact .kept h (hd _ List.mem_cons_self)
      | drop h hrest =>
        -- the member was the only one of its name, so none is left
        rw [List.filter_cons_of_pos (by simp), List.length_cons] at honce
        have hle := hrest.length_filter_le name'
        rw [member?_eq_none (by omega)]
        exact .dropped h
    · rw [List.filter_cons_of_neg (by simpa using hne)] at honce
      rw [member?_cons_of_ne hne]
      cases h with
      | keep h hrest =>
        rw [member?_cons_of_ne hne]
        exact ih hrest honce fun m hm => hd m (List.mem_cons_of_mem _ hm)
      | drop h hrest => exact ih hrest honce hd

theorem omitsFields_map (names : List String) {find find' : String → Option Json}
    (h : ∀ name ∈ names, S.OmitsField k d name (find name) (find' name)) :
    S.OmitsFields k d names (names.map find) (names.map find') := by
  induction names with
  | nil => exact .nil
  | cons name rest ih =>
    obtain ⟨hname, hrest⟩ := List.forall_mem_cons.mp h
    exact .cons hname (ih hrest)

/-- Fields that are given by position. -/
theorem omitsFields_positional {names : List String} {items : List Json}
    (hlength : items.length ≤ names.length) (hd : ∀ v ∈ items, v.depth < d) :
    S.OmitsFields k d names
      (items.map some ++ List.replicate (names.length - items.length) none)
      (items.map some ++ List.replicate (names.length - items.length) none) := by
  induction names generalizing items with
  | nil =>
    rw [List.eq_nil_of_length_eq_zero (Nat.eq_zero_of_le_zero hlength)]
    exact .nil
  | cons name rest ih =>
    cases items with
    | nil => exact .cons .absent (@ih [] (Nat.zero_le _) fun _ hv => absurd hv List.not_mem_nil)
    | cons v items =>
      obtain ⟨hv, hitems⟩ := List.forall_mem_cons.mp hd
      rw [List.length_cons, List.length_cons, Nat.succ_sub_succ]
      exact .cons (.kept .refl hv) (ih (Nat.le_of_succ_le_succ hlength) hitems)

/-- The fields of a record. Nothing is left out of an array that stands for one. -/
theorem refines_record? (hk : ∀ i, S.IsPlain (S.item k i)) (h : S.Omits k j j') (b : Bool)
    (names : List String) :
    Refines (S.OmitsFields k j'.depth names) (record? b names j) (record? b names j') := by
  cases j with
  | object members =>
    obtain ⟨members', rfl, hmembers⟩ := h.exists_members
    refine .ite ?_ fun honce => .some (omitsFields_map names fun name hname => ?_)
    · intro honce
      refine List.all_eq_true.mpr fun name hname => decide_eq_true ?_
      have hle := of_decide_eq_true (List.all_eq_true.mp honce name hname)
      exact Nat.le_trans (hmembers.length_filter_le name) hle
    · have hle := of_decide_eq_true (List.all_eq_true.mp honce name hname)
      exact hmembers.omitsField hle fun _ => depth_lt_of_mem_members
  | array items =>
    obtain ⟨items', rfl, hitems⟩ := h.exists_items
    obtain rfl := hitems.eq_of_items_isPlain hk
    exact .ite id fun hlength =>
      .some (omitsFields_positional hlength.2 fun _ => depth_lt_of_mem_items)
  | _ => exact .none

/-! ## Alternatives -/

/-- A case and its content, before and after omissions. -/
inductive OmitsContent (S : Schema κ) (k : κ) (d : Nat) :
    String × Option Json → String × Option Json → Prop
  | plain (case : String) : S.OmitsContent k d (case, none) (case, none)
  | content {case : String} {v v' : Json} (h : S.Omits (S.member k case) v v')
    (hd : v'.depth < d) : S.OmitsContent k d (case, some v) (case, some v')

/-- The case of an alternative. -/
theorem refines_tagged? (hk : ∀ name, S.default? k name = none) (h : S.Omits k j j') :
    Refines (S.OmitsContent k j'.depth) (tagged? j) (tagged? j') := by
  cases j with
  | string case =>
    cases h
    exact .some (.plain case)
  | object members =>
    obtain ⟨members', rfl, hmembers⟩ := h.exists_members
    match members, hmembers with
    | [], _ => exact .none
    | _ :: _ :: _, _ => exact .none
    | [(case, v)], .drop hdefault _ => exact nomatch (hk case).symm.trans hdefault
    | [(case, v)], .keep hv .nil =>
      exact .some (.content hv (depth_lt_of_mem_members (m := (case, _)) List.mem_cons_self))
  | _ => exact .none

/-! ## Readers -/

/-- What the first reader finds in a value of a kind, the second finds after omissions, if the value
nests less than `d`. -/
def Keeps (S : Schema κ) (k : κ) (d : Nat) (read read' : Json → Option α) : Prop :=
  ∀ ⦃j j'⦄, S.Omits k j j' → j'.depth < d → Refines (· = ·) (read j) (read' j')

theorem Keeps.of_isPlain (hk : S.IsPlain k) (read : Json → Option α) : S.Keeps k d read read := by
  intro j j' h _
  rw [h.eq_of_isPlain hk]
  exact .refl _

/-- Readers that agree on values of a kind agree on values without omissions. -/
theorem Keeps.to_isPlain {read read' : Json → Option α} (h : S.Keeps k d read read')
    (hk : S.IsPlain k') : S.Keeps k' d read read' := by
  intro j j' hj hd
  obtain rfl := hj.eq_of_isPlain hk
  exact h .refl hd

theorem Keeps.mono {d' : Nat} {read read' : Json → Option α} (h : S.Keeps k d' read read')
    (hle : d ≤ d') : S.Keeps k d read read' :=
  fun _ _ hj hd => h hj (Nat.lt_of_lt_of_le hd hle)

theorem OmitsItems.refines_mapM {read read' : Json → Option α} {i : Nat} {l l' : List Json}
    (h : S.OmitsItems k i l l') (hk : ∀ i, S.item k i = k') (hread : S.Keeps k' d read read')
    (hd : ∀ v ∈ l', v.depth < d) : Refines (· = ·) (l.mapM read) (l'.mapM read') := by
  induction l generalizing i l' with
  | nil =>
    cases h
    exact .refl _
  | cons v rest ih =>
    cases h with
    | cons hv hrest =>
      obtain ⟨hdv, hdrest⟩ := List.forall_mem_cons.mp hd
      rw [List.mapM_cons, List.mapM_cons]
      refine .bind_eq (hread (hk i ▸ hv) hdv) fun x => ?_
      exact .bind_eq (ih hrest hdrest) fun xs => .refl _

theorem Keeps.listOf? {read read' : Json → Option α} (h : S.Keeps k' d read read')
    (hk : ∀ i, S.item k i = k') : S.Keeps k d (listOf? read) (listOf? read') := by
  intro j j' hj hd
  cases j with
  | array items =>
    obtain ⟨items', rfl, hitems⟩ := hj.exists_items
    exact hitems.refines_mapM hk h fun v hv => Nat.lt_trans (depth_lt_of_mem_items hv) hd
  | _ => exact .none

theorem Keeps.optional? {read read' : Json → Option α} (h : S.Keeps k d read read') :
    S.Keeps k d (fun j => optional? read (some j)) (fun j => optional? read' (some j)) := by
  intro j j' hj hd
  by_cases hnull : j = .null
  · have hnull' := hj.eq_null_iff.mp hnull
    subst hnull hnull'
    exact .refl _
  · have hnull' : j' ≠ .null := mt hj.eq_null_iff.mpr hnull
    dsimp only
    rw [optional?_of_ne_null hnull, optional?_of_ne_null hnull']
    exact (h hj hd).map some

variable {name : String} {f f' : Option Json}

/-- A field without a default is not left out. -/
theorem OmitsField.refines (h : S.OmitsField k d name f f') (hname : S.default? k name = none) :
    Refines (fun v v' => S.Omits (S.member k name) v v' ∧ v'.depth < d) f f' := by
  cases h with
  | absent => exact .none
  | kept h hd => exact .some ⟨h, hd⟩
  | dropped h => exact nomatch hname.symm.trans h

theorem OmitsField.refines_required? {read read' : Json → Option α}
    (h : S.OmitsField k d name f f') (hname : S.default? k name = none)
    (hread : S.Keeps (S.member k name) d read read') :
    Refines (· = ·) (required? read f) (required? read' f') :=
  (h.refines hname).bind fun _ _ hv => hread hv.1 hv.2

/-- A field that is left out is read as its default. -/
theorem OmitsField.refines_orDefault? {read read' : Json → Option α} {v : Json} {x : α}
    (h : S.OmitsField k d name f f') (hname : S.default? k name = some v) (hv : read v = some x)
    (hread : S.Keeps (S.member k name) d read read') :
    Refines (· = ·) (orDefault? x read f) (orDefault? x read' f') := by
  cases h with
  | absent => exact .refl _
  | kept h hd => exact hread h hd
  | dropped h =>
    obtain rfl := Option.some.inj (hname.symm.trans h)
    show Refines _ (read v) (some x)
    rw [hv]
    exact .refl _

theorem OmitsField.refines_optional? {read read' : Json → Option α}
    (h : S.OmitsField k d name f f') (hname : S.default? k name = some .null)
    (hread : S.Keeps (S.member k name) d read read') :
    Refines (· = ·) (optional? read f) (optional? read' f') := by
  cases h with
  | absent => exact .refl _
  | kept h hd => exact hread.optional? h hd
  | dropped h =>
    obtain rfl := Option.some.inj (hname.symm.trans h)
    exact .refl _

end Schema

end EffectAudit.Json
