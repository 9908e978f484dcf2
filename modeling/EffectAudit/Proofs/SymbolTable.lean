import EffectAudit.Proofs.Function.FileSymbols
import EffectAudit.Proofs.Sorting

/-!
# Look-ups in symbol tables

A table holds every signature under the file that declares it, and no function twice. The functions
of a table are those whose look-up succeeds.

## Main definitions

* `SymbolTable.Change`, `SymbolTable.ofChanges`: the tables that changes lead to

## Main results

* `SymbolTable.lookup?_eq_some_iff`: what is looked up are the signatures of the table
* `SymbolTable.mem_functions_iff`: a function is in the table if and only if its look-up succeeds
* `SymbolTable.signaturesIn_collect`, `SymbolTable.signaturesIn_remove`: signatures after changes
* `SymbolTable.converts_eq_true_iff`: conversions are declared in files
-/

namespace EffectAudit.SymbolTable

/-! ## Look-ups -/

section Lookup

variable {t : SymbolTable}

theorem mem_signaturesIn {key : FileKey} {s : Signature} : s ∈ t.signaturesIn key ↔
    ∃ n, t.maps.functions.get? n = some s ∧ s.path.key = key := by
  unfold signaturesIn SymbolMaps.signaturesAt
  rw [List.mem_filterMap]
  constructor
  · rintro ⟨n, hn, hs⟩
    obtain ⟨s', hs', hkey⟩ := (t.valid.numbering.live key n).mp hn
    cases hs.symm.trans hs'
    exact ⟨n, hs, hkey⟩
  · rintro ⟨n, hs, hkey⟩
    exact ⟨n, (t.valid.numbering.live key n).mpr ⟨s, hs, hkey⟩, hs⟩

/-- Every signature stands under the file that declares it. -/
theorem key_of_mem_signaturesIn {key : FileKey} {s : Signature} (h : s ∈ t.signaturesIn key) :
    s.path.key = key := by
  obtain ⟨-, -, hkey⟩ := mem_signaturesIn.mp h
  exact hkey

/-- Signatures of one function have one number. -/
theorem number_eq_of_ref_eq {n n' : Nat} {s s' : Signature} (hs : t.maps.functions.get? n = some s)
    (hs' : t.maps.functions.get? n' = some s') (href : s.ref = s'.ref) : n = n' := by
  have hown := t.valid.numbering.own n s hs
  rw [href, t.valid.numbering.own n' s' hs'] at hown
  exact (Option.some.inj hown).symm

/-- The functions of a file have different names. -/
theorem nodup_names (t : SymbolTable) (key : FileKey) :
    ((t.signaturesIn key).map (·.name)).Nodup := by
  refine List.pairwise_map.mpr ?_
  have hdistinct := (t.valid.numbering.distinct key).imp_of_mem
    (S := fun n n' => n ∈ t.maps.numbersIn key ∧ n' ∈ t.maps.numbersIn key ∧ n ≠ n')
    fun hn hn' hne => ⟨hn, hn', hne⟩
  refine hdistinct.filterMap _ fun n n' hnn' s hs s' hs' hname => ?_
  obtain ⟨hn, hn', hne⟩ := hnn'
  have hmem : s ∈ t.signaturesIn key := List.mem_filterMap.mpr ⟨n, hn, hs⟩
  have hmem' : s' ∈ t.signaturesIn key := List.mem_filterMap.mpr ⟨n', hn', hs'⟩
  refine hne (number_eq_of_ref_eq hs hs' ?_)
  unfold Signature.ref
  rw [key_of_mem_signaturesIn hmem, key_of_mem_signaturesIn hmem', hname]

theorem mem_signatures {s : Signature} : s ∈ t.signatures ↔ ∃ key, s ∈ t.signaturesIn key := by
  unfold signatures
  rw [OrderedMap.mem_values]
  constructor
  · rintro ⟨n, hs⟩
    exact ⟨s.path.key, mem_signaturesIn.mpr ⟨n, hs, rfl⟩⟩
  · rintro ⟨key, hs⟩
    obtain ⟨n, hs, -⟩ := mem_signaturesIn.mp hs
    exact ⟨n, hs⟩

/-- Looking through the numbers of a file finds the same as looking through its signatures. -/
theorem lookup?_eq_find? (f : FunctionRef) :
    t.lookup? f = (t.signaturesIn f.file).find? (·.name == f.name) :=
  List.find?_filterMap.symm

theorem lookup?_eq_some_iff {f : FunctionRef} {s : Signature} :
    t.lookup? f = some s ↔ s ∈ t.signatures ∧ s.ref = f := by
  rw [lookup?_eq_find?]
  constructor
  · intro h
    have hmem := List.mem_of_find?_eq_some h
    have hname := List.find?_some h
    refine ⟨mem_signatures.mpr ⟨_, hmem⟩, ?_⟩
    unfold Signature.ref
    rw [key_of_mem_signaturesIn hmem, eq_of_beq hname]
  · rintro ⟨hs, rfl⟩
    obtain ⟨key, hk⟩ := mem_signatures.mp hs
    have hkey : s.ref.file = key := key_of_mem_signaturesIn hk
    rw [hkey]
    -- the names of a file are different, so the first signature of the name is this one
    have hnd := List.pairwise_map.mp (t.nodup_names key)
    generalize t.signaturesIn key = l at hk hnd
    induction l with
    | nil => exact absurd hk List.not_mem_nil
    | cons a rest ih =>
      rw [List.pairwise_cons] at hnd
      rcases List.mem_cons.mp hk with rfl | hk
      · exact List.find?_cons_of_pos (by simp [Signature.ref])
      · rw [List.find?_cons_of_neg, ih hk hnd.2]
        simpa [Signature.ref] using hnd.1 s hk

theorem mem_signaturesIn_of_lookup? {f : FunctionRef} {s : Signature} (h : t.lookup? f = some s) :
    s ∈ t.signaturesIn f.file := by
  rw [lookup?_eq_find?] at h
  exact List.mem_of_find?_eq_some h

theorem ref_of_lookup? {f : FunctionRef} {s : Signature} (h : t.lookup? f = some s) : s.ref = f :=
  (lookup?_eq_some_iff.mp h).2

/-- A function is in the table if and only if its look-up succeeds. -/
theorem mem_functions_iff {f : FunctionRef} : f ∈ t.functions ↔ ∃ s, t.lookup? f = some s := by
  unfold functions
  rw [List.mem_map]
  exact exists_congr fun s => lookup?_eq_some_iff.symm

theorem mem_functionsIn_iff {key : FileKey} {f : FunctionRef} :
    f ∈ t.functionsIn key ↔ f ∈ t.functions ∧ f.file = key := by
  unfold functionsIn functions
  rw [List.mem_map, List.mem_map]
  constructor
  · rintro ⟨s, hs, rfl⟩
    exact ⟨⟨s, mem_signatures.mpr ⟨key, hs⟩, rfl⟩, key_of_mem_signaturesIn hs⟩
  · rintro ⟨⟨s, hs, rfl⟩, hfile⟩
    obtain ⟨key', hk⟩ := mem_signatures.mp hs
    have : key' = key := (key_of_mem_signaturesIn hk).symm.trans hfile
    exact ⟨s, this ▸ hk, rfl⟩

theorem nodup_functionsIn (t : SymbolTable) (key : FileKey) : (t.functionsIn key).Nodup := by
  have hnames := List.pairwise_map.mp (t.nodup_names key)
  exact List.pairwise_map.mpr (hnames.imp fun hne href => hne (congrArg FunctionRef.name href))

theorem nodup_functions (t : SymbolTable) : t.functions.Nodup := by
  unfold functions signatures OrderedMap.values
  rw [List.map_map]
  refine List.pairwise_map.mpr ?_
  refine t.maps.functions.nodup_entries.imp_of_mem fun ha hb hne href => hne ?_
  exact number_eq_of_ref_eq (OrderedMap.mem_entries_iff.mp ha)
    (OrderedMap.mem_entries_iff.mp hb) href

end Lookup

/-! ## Tables that changes lead to -/

/-- A change of a table. -/
inductive Change where
  | collect (registry : Registry) (moduleName : String) (u : SourceUnit)
  | remove (key : FileKey)
  | clear

/-- The table after a change. -/
def apply (t : SymbolTable) : Change → SymbolTable
  | .collect registry moduleName u => t.collect registry moduleName u
  | .remove key => t.remove key
  | .clear => t.clear

/-- The table that changes lead to, from the table without files. -/
def ofChanges (changes : List Change) : SymbolTable := changes.foldl apply ∅

theorem signaturesIn_collect (t : SymbolTable) (registry : Registry) (moduleName : String)
    (u : SourceUnit) (key : FileKey) :
    (t.collect registry moduleName u).signaturesIn key =
      if key = u.path.key then (FileSymbols.ofUnit registry moduleName u).signatures
      else t.signaturesIn key := by
  rw [signaturesIn_eq, files_collect, OrderedMap.get?_insert_eq_ite]
  split
  · rfl
  · rw [signaturesIn_eq]

theorem signaturesIn_remove (t : SymbolTable) (file key : FileKey) :
    (t.remove file).signaturesIn key = if key = file then [] else t.signaturesIn key := by
  rw [signaturesIn_eq, files_remove, OrderedMap.get?_erase_eq_ite]
  split
  · rfl
  · rw [signaturesIn_eq]

/-- A change that reads the tokens of `uses` clauses in the given registry. -/
def Change.ReadBy (registry : Registry) : Change → Prop
  | .collect r _ _ => r = registry
  | .remove _ | .clear => True

/-- Every signature is that of a declaration, its tokens read in the given registry. -/
def ReadBy (t : SymbolTable) (registry : Registry) : Prop :=
  ∀ key, ∀ s ∈ t.signaturesIn key, ∃ moduleName u d, s = .ofDecl registry moduleName u d

theorem ReadBy.apply {t : SymbolTable} {registry : Registry} (ht : t.ReadBy registry) {c : Change}
    (hc : c.ReadBy registry) : (t.apply c).ReadBy registry := by
  intro key s hs
  cases c with
  | collect r moduleName u =>
    cases hc
    rw [SymbolTable.apply, signaturesIn_collect] at hs
    split at hs
    · obtain ⟨d, -, rfl⟩ := List.mem_map.mp hs
      exact ⟨moduleName, u, d, rfl⟩
    · exact ht key s hs
  | remove file =>
    rw [SymbolTable.apply, signaturesIn_remove] at hs
    split at hs
    · exact absurd hs List.not_mem_nil
    · exact ht key s hs
  | clear => exact absurd hs List.not_mem_nil

/-- Tables keep to one registry if all changes do. -/
theorem readBy_ofChanges {changes : List Change} {registry : Registry}
    (h : ∀ c ∈ changes, c.ReadBy registry) : (ofChanges changes).ReadBy registry := by
  have hempty : (∅ : SymbolTable).ReadBy registry := fun _ _ hs => absurd hs List.not_mem_nil
  apply List.foldlRecOn (motive := fun t => t.ReadBy registry) changes SymbolTable.apply hempty
  intro t ht c hc
  exact ht.apply (h c hc)

/-! ## Conversions -/

section Conversions

variable {t t' : SymbolTable}

theorem mem_conversionSet {key : FileKey} {c : TypeDecl} :
    c ∈ t.conversionSet key ↔ c ∈ t.conversionsIn key := by
  unfold conversionSet
  rw [mem_dropRepeats, mem_sortBy]

/-- A conversion between error types is declared in some file. -/
theorem converts_eq_true_iff {source target : Ty} :
    t.converts source target = true ↔ source = target ∨ ∃ name, target = .named name ∧
      ∃ key, ∃ c ∈ t.conversionsIn key, c.name = name ∧ c.convertsFrom.contains source = true := by
  unfold converts
  rw [Bool.or_eq_true, beq_iff_eq]
  refine or_congr Iff.rfl ?_
  cases target with
  | named name =>
    simp only [List.any_eq_true, Bool.and_eq_true, beq_iff_eq, Ty.named.injEq, exists_eq_left']
    constructor
    · rintro ⟨conversions, hconversions, c, hc, hname⟩
      obtain ⟨key, hk⟩ := OrderedMap.mem_values.mp hconversions
      refine ⟨key, c, ?_, hname⟩
      unfold conversionsIn
      rw [hk]
      exact hc
    · rintro ⟨key, c, hc, hname⟩
      unfold conversionsIn at hc
      cases hk : t.maps.conversions.get? key with
      | none =>
        rw [hk] at hc
        exact absurd hc List.not_mem_nil
      | some conversions =>
        rw [hk] at hc
        exact ⟨conversions, OrderedMap.mem_values.mpr ⟨key, hk⟩, c, hc, hname⟩
  | _ => simp

/-- Tables with the same conversions in each file convert the same. -/
theorem converts_congr (h : ∀ key c, c ∈ t.conversionsIn key ↔ c ∈ t'.conversionsIn key) :
    t.converts = t'.converts := by
  funext source target
  refine Bool.eq_iff_iff.mpr ?_
  rw [converts_eq_true_iff, converts_eq_true_iff]
  simp only [h]

end Conversions

/-! ## Tables with one file in common -/

section Congruence

variable {t t' : SymbolTable} {key : FileKey}

theorem signaturesIn_congr (h : t.files.get? key = t'.files.get? key) :
    t.signaturesIn key = t'.signaturesIn key := by
  rw [signaturesIn_eq, signaturesIn_eq, h]

theorem functionsIn_congr (h : t.files.get? key = t'.files.get? key) :
    t.functionsIn key = t'.functionsIn key := by
  unfold functionsIn
  rw [signaturesIn_congr h]

theorem conversionsIn_congr (h : t.files.get? key = t'.files.get? key) :
    t.conversionsIn key = t'.conversionsIn key := by
  rw [conversionsIn_eq, conversionsIn_eq, h]

theorem lookup?_congr {f : FunctionRef} (h : t.files.get? f.file = t'.files.get? f.file) :
    t.lookup? f = t'.lookup? f := by
  rw [lookup?_eq_find?, lookup?_eq_find?, signaturesIn_congr h]

end Congruence

end EffectAudit.SymbolTable
