import EffectAudit.Proofs.SymbolTable

/-!
# Numbers of functions

A function is numbered when it is declared for the first time, and no change takes a number away. So
a number never changes its meaning, whatever is collected, removed or cleared, and in all maps that
such changes lead to, the numbers under a file are those of the signatures that the file owns.

## Main definitions

* `SymbolMaps.apply`, `SymbolMaps.ofChanges`: the maps that changes lead to
* `SymbolMaps.Consistent`: how numbers, files and signatures belong together
* `SymbolTable.filesAfter`: what files declare, after a change

## Main results

* `SymbolMaps.Valid.apply`, `SymbolMaps.get?_interner_apply`, `SymbolMaps.Valid.frame_apply`: what a
  change keeps
* `SymbolMaps.Valid.consistent`: numbers, files and signatures
* `SymbolMaps.maps_ofChanges`, `SymbolTable.files_ofChanges`: the maps as a table, and file by file
* `SymbolMaps.numbers_consistent_and_stable`: all this along every sequence of changes
-/

namespace EffectAudit

namespace SymbolTable

/-- The file that a change is about, unless it is about all files. -/
def Change.file? : Change → Option FileKey
  | .collect _ _ u => some u.path.key
  | .remove key => some key
  | .clear => none

/-- What files declare, after a change. -/
def filesAfter (files : OrderedMap FileKey FileSymbols) : Change → OrderedMap FileKey FileSymbols
  | .collect registry moduleName u => files.insert u.path.key (.ofUnit registry moduleName u)
  | .remove key => files.erase key
  | .clear => ∅

theorem files_apply (t : SymbolTable) (c : Change) : (t.apply c).files = filesAfter t.files c := by
  cases c with
  | collect registry moduleName u => exact t.files_collect registry moduleName u
  | remove key => exact t.files_remove key
  | clear => exact t.files_clear

/-- **Tables have, file by file, what was collected last.** -/
theorem files_ofChanges (changes : List Change) :
    (ofChanges changes).files = changes.foldl filesAfter ∅ := by
  have h : ∀ t : SymbolTable,
      (changes.foldl SymbolTable.apply t).files = changes.foldl filesAfter t.files := by
    induction changes with
    | nil => exact fun _ => rfl
    | cons c rest ih =>
      intro t
      rw [List.foldl_cons, List.foldl_cons, ih, files_apply]
  exact h ∅

end SymbolTable

namespace SymbolMaps

open SymbolTable (Change)

/-- The maps after a change. -/
def apply (m : SymbolMaps) : Change → SymbolMaps
  | .collect registry moduleName u => (m.collect registry moduleName u).2
  | .remove key => (m.remove key).2
  | .clear => m.clear

/-- The maps that changes lead to, from empty maps. -/
def ofChanges (changes : List Change) : SymbolMaps := changes.foldl apply {}

/-! ## What a change keeps -/

section Step

variable {m : SymbolMaps}

theorem Valid.apply (h : m.Valid) (c : Change) : (m.apply c).Valid := by
  cases c with
  | collect registry moduleName u => exact h.collect registry moduleName u
  | remove key => exact h.remove key
  | clear => exact h.clear

theorem get?_interner_declare {registry : Registry} {moduleName : String} {u : SourceUnit}
    {state : List Nat × SymbolMaps} {d : Spanned FunctionDecl} {f : FunctionRef} {n : Nat}
    (h : state.2.interner.get? f = some n) :
    (declare registry moduleName u state d).2.interner.get? f = some n := by
  have hkept := get?_interner_intern_of_some (f := ⟨u.path.key, d.node.name⟩) h
  unfold declare
  split
  rename_i n' m hintern
  rw [hintern] at hkept
  split
  · exact hkept
  · exact hkept

theorem get?_interner_collect {registry : Registry} {moduleName : String} {u : SourceUnit}
    {f : FunctionRef} {n : Nat} (h : m.interner.get? f = some n) :
    (m.collect registry moduleName u).2.interner.get? f = some n := by
  rw [interner_collect]
  exact List.foldlRecOn (motive := fun state => state.2.interner.get? f = some n) u.functions
    (declare registry moduleName u) (b := ([], (m.remove u.path.key).2)) h
    fun state hstate d _ => get?_interner_declare hstate

/-- A change takes no number away. -/
theorem get?_interner_apply {f : FunctionRef} {n : Nat} (h : m.interner.get? f = some n)
    (c : Change) : (m.apply c).interner.get? f = some n := by
  cases c with
  | collect registry moduleName u => exact get?_interner_collect h
  | remove key => exact h
  | clear => exact h

/-- A change of one file leaves what the maps have from the others. -/
theorem Valid.frame_apply (h : m.Valid) {c : Change} {file : FileKey} (hc : c.file? = some file) :
    Frame file m (m.apply c) := by
  cases c with
  | collect registry moduleName u =>
    cases hc
    exact h.frame_collect registry moduleName u
  | remove key =>
    cases hc
    exact h.frame_remove file
  | clear => cases hc

end Step

/-! ## Numbers, files and signatures -/

/-- How numbers, files and signatures belong together. -/
structure Consistent (m : SymbolMaps) : Prop where
  /-- No number is listed twice under a file. -/
  distinct : ∀ key, (m.numbersIn key).Nodup
  /-- All numbers under a file have signatures. -/
  listed : ∀ key, (m.numbersIn key).map m.functions.get? =
    (m.signaturesAt (m.numbersIn key)).map some
  /-- A number has a signature if and only if it is listed under exactly one file. -/
  unique : ∀ n, (∃ s, m.functions.get? n = some s) ↔ ∃! key, n ∈ m.numbersIn key
  /-- This file is the one of the signature. -/
  home : ∀ n s, m.functions.get? n = some s → n ∈ m.numbersIn s.path.key
  /-- A signature has the number of its own file and name. -/
  own : ∀ n s, m.functions.get? n = some s → m.interner.get? s.ref = some n
  /-- Different functions have different numbers. -/
  injective : ∀ f g n, m.interner.get? f = some n → m.interner.get? g = some n → f = g
  /-- The number of a function with a signature is the one that is listed for its name. -/
  found : ∀ f, m.find? f = m.lookupIn? f

namespace Valid

variable {m : SymbolMaps} (h : m.Valid)

include h

theorem exists_signature {key : FileKey} {n : Nat} (hn : n ∈ m.numbersIn key) :
    ∃ s, m.functions.get? n = some s :=
  ((h.numbering.live key n).mp hn).imp fun _ hs => hs.1

theorem map_functions_numbersIn (key : FileKey) :
    (m.numbersIn key).map m.functions.get? = (m.signaturesAt (m.numbersIn key)).map some := by
  unfold signaturesAt
  rw [List.map_filterMap, ← List.filterMap_eq_map]
  refine List.filterMap_congr fun n hn => ?_
  obtain ⟨s, hs⟩ := h.exists_signature hn
  rw [Function.comp_apply, hs]
  rfl

/-- The numbers under a file are those of the functions that it declares, in order. -/
theorem map_interner_signaturesAt (key : FileKey) :
    (m.signaturesAt (m.numbersIn key)).map (fun s => m.interner.get? s.ref) =
      (m.numbersIn key).map some := by
  unfold signaturesAt
  rw [List.map_filterMap, ← List.filterMap_eq_map]
  refine List.filterMap_congr fun n hn => ?_
  obtain ⟨s, hs⟩ := h.exists_signature hn
  rw [hs, Option.map_some, h.numbering.own n s hs]
  rfl

/-- Among the numbers under a file, a name tells the number of its function. -/
theorem named_iff {f : FunctionRef} {n : Nat} (hn : n ∈ m.numbersIn f.file) :
    (m.functions.get? n).any (·.name == f.name) = true ↔ m.interner.get? f = some n := by
  obtain ⟨s, hs, hkey⟩ := (h.numbering.live f.file n).mp hn
  have hown := h.numbering.own n s hs
  rw [hs, Option.any_some, beq_iff_eq]
  constructor
  · intro hname
    have href : s.ref = f := by
      unfold Signature.ref
      rw [hkey, hname]
    rwa [← href]
  · intro hf
    exact congrArg FunctionRef.name (h.numbering.injective _ _ n hown hf)

/-- **The two look-ups of numbers agree.** -/
theorem find?_eq_lookupIn? (f : FunctionRef) : m.find? f = m.lookupIn? f := by
  refine Option.ext fun n => ?_
  unfold find? lookupIn?
  rw [Option.filter_eq_some_iff]
  constructor
  · rintro ⟨hf, hlive⟩
    obtain ⟨s, hs⟩ := OrderedMap.contains_iff.mp hlive
    have href : s.ref = f := h.numbering.injective _ _ n (h.numbering.own n s hs) hf
    have hn : n ∈ m.numbersIn f.file :=
      (h.numbering.live f.file n).mpr ⟨s, hs, congrArg FunctionRef.file href⟩
    have hnamed := (h.named_iff hn).mpr hf
    cases hfound : (m.numbersIn f.file).find? fun n =>
      (m.functions.get? n).any (·.name == f.name) with
    | none => exact absurd hnamed (List.find?_eq_none.mp hfound n hn)
    | some n' =>
      -- the first number of this name is the one of the function
      have hnamed' := List.find?_some hfound
      have hf' := (h.named_iff (List.mem_of_find?_eq_some hfound)).mp hnamed'
      exact hf'.symm.trans hf
  · intro hfound
    have hn := List.mem_of_find?_eq_some hfound
    have hnamed := List.find?_some hfound
    exact ⟨(h.named_iff hn).mp hnamed, OrderedMap.contains_iff.mpr (h.exists_signature hn)⟩

/-- **Numbers, files and signatures belong together.** -/
theorem consistent : m.Consistent where
  distinct := h.numbering.distinct
  listed := h.map_functions_numbersIn
  unique n := by
    constructor
    · rintro ⟨s, hs⟩
      refine ⟨s.path.key, (h.numbering.live _ n).mpr ⟨s, hs, rfl⟩, fun key hkey => ?_⟩
      obtain ⟨s', hs', rfl⟩ := (h.numbering.live key n).mp hkey
      cases hs.symm.trans hs'
      rfl
    · rintro ⟨key, hkey, -⟩
      exact h.exists_signature hkey
  home n s hs := (h.numbering.live _ n).mpr ⟨s, hs, rfl⟩
  own := h.numbering.own
  injective := h.numbering.injective
  found := h.find?_eq_lookupIn?

end Valid

/-! ## Sequences of changes -/

/-- **Maps that changes lead to are valid.** -/
theorem valid_ofChanges (changes : List Change) : (ofChanges changes).Valid :=
  List.foldlRecOn (motive := Valid) changes apply valid_empty fun _ h c _ => h.apply c

/-- Numbers that were given stay, whatever changes follow. -/
theorem get?_interner_ofChanges_append {changes : List Change} {f : FunctionRef} {n : Nat}
    (h : (ofChanges changes).interner.get? f = some n) (more : List Change) :
    (ofChanges (changes ++ more)).interner.get? f = some n := by
  unfold ofChanges
  rw [List.foldl_append]
  exact List.foldlRecOn (motive := fun m => m.interner.get? f = some n) more apply h
    fun _ hm c _ => get?_interner_apply hm c

theorem maps_ofChanges (changes : List Change) :
    (SymbolTable.ofChanges changes).maps = ofChanges changes := by
  have h : ∀ t : SymbolTable,
      (changes.foldl SymbolTable.apply t).maps = changes.foldl apply t.maps := by
    induction changes with
    | nil => exact fun _ => rfl
    | cons c rest ih =>
      intro t
      rw [List.foldl_cons, List.foldl_cons, ih]
      cases c <;> rfl
  exact h ∅

/-- A file that was collected lists the numbers of its first declarations, in order. -/
theorem Valid.map_interner_collect {m : SymbolMaps} (h : m.Valid) (registry : Registry)
    (moduleName : String) (u : SourceUnit) :
    (firstDeclarations u.functions).map (fun d =>
        (m.collect registry moduleName u).2.interner.get? ⟨u.path.key, d.node.name⟩) =
      (m.collect registry moduleName u).1.map some := by
  have hnumbers := (h.collect registry moduleName u).map_interner_signaturesAt u.path.key
  have hsignatures : (m.collect registry moduleName u).2.signaturesAt
      ((m.collect registry moduleName u).2.numbersIn u.path.key) =
        (firstDeclarations u.functions).map (.ofDecl registry moduleName u) :=
    SymbolTable.signaturesIn_collect_self (t := ⟨m, h⟩) registry moduleName u
  rw [hsignatures, List.map_map, numbersIn_collect, if_pos rfl] at hnumbers
  exact hnumbers

/-- **Numbers are consistent and stable.** In all maps that changes lead to, numbers, files and
signatures belong together as `Consistent` says. A function that was given a number keeps it through
all later changes, also while it is gone, and no other function ever gets it. A file that is
collected lists the numbers of the functions that it declares, and so the same numbers as before for
those that it declared before. A change of one file leaves the numbers, the signatures and the
conversions of all other files as they are. So the maps are those of a symbol table that has, file
by file, what was collected last. -/
theorem numbers_consistent_and_stable (changes : List Change) :
    let m := ofChanges changes
    m.Consistent ∧
    (∀ more f n, m.interner.get? f = some n →
      let later := ofChanges (changes ++ more)
      later.interner.get? f = some n ∧ (∀ g, later.interner.get? g = some n → g = f) ∧
        (later.intern f).1 = n) ∧
    (∀ registry moduleName u,
      let collected := m.collect registry moduleName u
      collected.2.numbersIn u.path.key = collected.1 ∧
        (firstDeclarations u.functions).map
          (fun d => collected.2.interner.get? ⟨u.path.key, d.node.name⟩) = collected.1.map some) ∧
    (∀ c file key, c.file? = some file → key ≠ file →
      (m.apply c).numbersIn key = m.numbersIn key ∧
        (m.apply c).signaturesAt (m.numbersIn key) = m.signaturesAt (m.numbersIn key) ∧
        (m.apply c).conversions.get? key = m.conversions.get? key) ∧
    (SymbolTable.ofChanges changes).maps = m ∧
    (SymbolTable.ofChanges changes).files = changes.foldl SymbolTable.filesAfter ∅ := by
  intro m
  have hm : m.Valid := valid_ofChanges changes
  refine ⟨hm.consistent, fun more f n hn => ?_, fun registry moduleName u => ?_,
    fun c file key hc hkey => ?_, maps_ofChanges changes, SymbolTable.files_ofChanges changes⟩
  · intro later
    have hkept : later.interner.get? f = some n := get?_interner_ofChanges_append hn more
    have hlater : later.Valid := valid_ofChanges (changes ++ more)
    refine ⟨hkept, fun g hg => hlater.numbering.injective g f n hg hkept, ?_⟩
    rw [intern_of_some hkept]
  · intro collected
    exact ⟨(numbersIn_collect registry moduleName u _).trans (if_pos rfl),
      hm.map_interner_collect registry moduleName u⟩
  · have hframe := hm.frame_apply hc
    exact ⟨hframe.numbersIn_eq hkey, hframe.signaturesAt_eq hm hkey, hframe.conversions key hkey⟩

/-- A file with functions of the given names. -/
def namesUnit (names : List String) : SourceUnit where
  path := ⟨"a.cdz"⟩
  declarations := names.map fun name => ⟨.function { name, returns := .named "Unit" }, ⟨0, 1, 1⟩⟩

/-- A file is collected, cleared away, and collected again with one function gone and one new. -/
def recollection : List Change × List Change :=
  ([.collect .standard "a" (namesUnit ["f", "g", "f"])],
    [.clear, .collect .standard "a" (namesUnit ["g", "h"])])

theorem recollection_keeps_numbers :
    let later := ofChanges (recollection.1 ++ recollection.2)
    (ofChanges recollection.1).interner.get? ⟨Path.key ⟨"a.cdz"⟩, "g"⟩ = some 1 ∧
    later.interner.get? ⟨Path.key ⟨"a.cdz"⟩, "g"⟩ = some 1 ∧
    later.numbersIn (Path.key ⟨"a.cdz"⟩) = [1, 2] ∧
    (∀ g, later.interner.get? g = some 0 → g = ⟨Path.key ⟨"a.cdz"⟩, "f"⟩) ∧
    ((ofChanges recollection.1).apply (.remove (Path.key ⟨"b.cdz"⟩))).numbersIn
      (Path.key ⟨"a.cdz"⟩) = [0, 1] := by
  obtain ⟨-, hstable, -, hframe, -⟩ := numbers_consistent_and_stable recollection.1
  have hf : (ofChanges recollection.1).interner.get? ⟨Path.key ⟨"a.cdz"⟩, "f"⟩ = some 0 := by decide
  have hg : (ofChanges recollection.1).interner.get? ⟨Path.key ⟨"a.cdz"⟩, "g"⟩ = some 1 := by decide
  refine ⟨hg, (hstable recollection.2 _ _ hg).1, by decide, (hstable recollection.2 _ _ hf).2.1, ?_⟩
  rw [(hframe _ _ _ rfl (by decide)).1]
  decide

end SymbolMaps

end EffectAudit
