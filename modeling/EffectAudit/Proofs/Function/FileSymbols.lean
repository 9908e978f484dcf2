import EffectAudit.Function.SymbolTable
import EffectAudit.Proofs.OrderedMap

/-!
# What files declare

The maps of a symbol table are shared by all files: numbers are given across files, and signatures
are kept by number. Read file by file they are one map, from files to the signatures and conversions
that each declares, and every change of the table is the obvious change of this map.

## Main definitions

* `FileSymbols`, `FileSymbols.ofUnit`: what a file declares
* `SymbolMaps.Frame`: maps that differ in what they have from one file
* `SymbolTable.files`: a table, file by file

## Main results

* `SymbolMaps.Numbering.signaturesAt_redeclare`: the signatures of a file that was collected
* `SymbolMaps.Valid.frame_collect`, `SymbolMaps.Valid.frame_remove`: other files
* `SymbolTable.files_collect`, `SymbolTable.files_remove`, `SymbolTable.files_clear`: tables after
  changes
-/

namespace EffectAudit

/-- What a file declares. -/
structure FileSymbols where
  /-- The functions, in the order of their declarations. -/
  signatures : List Signature := []
  /-- The types that other types convert to. -/
  conversions : List TypeDecl := []

/-- What a file declares. Of functions with one name the first counts. -/
def FileSymbols.ofUnit (registry : Registry) (moduleName : String) (u : SourceUnit) :
    FileSymbols where
  signatures := (firstDeclarations u.functions).map (Signature.ofDecl registry moduleName u)
  conversions := u.conversions

/-! ## First declarations -/

theorem firstDeclarations_sublist (ds : List (Spanned FunctionDecl)) :
    (firstDeclarations ds).Sublist ds := by
  induction ds with
  | nil => exact .refl _
  | cons d rest ih => exact (List.filter_sublist.trans ih).cons_cons d

theorem mem_of_mem_firstDeclarations {d : Spanned FunctionDecl}
    {ds : List (Spanned FunctionDecl)} (h : d ∈ firstDeclarations ds) : d ∈ ds :=
  (firstDeclarations_sublist ds).subset h

theorem nodup_firstDeclarations (ds : List (Spanned FunctionDecl)) :
    ((firstDeclarations ds).map (·.node.name)).Nodup := by
  induction ds with
  | nil => exact .nil
  | cons d rest ih =>
    refine List.nodup_cons.mpr ⟨fun h => ?_, ?_⟩
    · obtain ⟨e, he, hn⟩ := List.mem_map.mp h
      exact of_decide_eq_true (List.mem_filter.mp he).2 hn
    · exact List.pairwise_map.mpr ((List.pairwise_map.mp ih).filter _)

theorem exists_firstDeclaration {d : Spanned FunctionDecl} {ds : List (Spanned FunctionDecl)}
    (h : d ∈ ds) : ∃ e ∈ firstDeclarations ds, e.node.name = d.node.name := by
  induction ds with
  | nil => exact absurd h List.not_mem_nil
  | cons a rest ih =>
    by_cases hn : d.node.name = a.node.name
    · exact ⟨a, List.mem_cons_self, hn.symm⟩
    · rcases List.mem_cons.mp h with rfl | h
      · exact absurd rfl hn
      · obtain ⟨e, he, hname⟩ := ih h
        refine ⟨e, List.mem_cons_of_mem _ (List.mem_filter.mpr ⟨he, ?_⟩), hname⟩
        exact decide_eq_true (hname ▸ hn)

/-- A first declaration is the one that is found by its name. -/
theorem find?_of_mem_firstDeclarations {d : Spanned FunctionDecl}
    {ds : List (Spanned FunctionDecl)} (h : d ∈ firstDeclarations ds) :
    ds.find? (·.node.name == d.node.name) = some d := by
  induction ds with
  | nil => exact absurd h List.not_mem_nil
  | cons e rest ih =>
    rcases List.mem_cons.mp h with rfl | h
    · exact List.find?_cons_of_pos (beq_self_eq_true _)
    · obtain ⟨hd, hne⟩ := List.mem_filter.mp h
      have hne : e.node.name ≠ d.node.name := (of_decide_eq_true hne).symm
      rw [List.find?_cons_of_neg (by simpa using hne), ih hd]

/-- Where names are different all declarations are first ones. -/
theorem firstDeclarations_eq_self {ds : List (Spanned FunctionDecl)}
    (h : (ds.map (·.node.name)).Nodup) : firstDeclarations ds = ds := by
  induction ds with
  | nil => rfl
  | cons d rest ih =>
    obtain ⟨hd, hrest⟩ := List.nodup_cons.mp h
    unfold firstDeclarations
    rw [ih hrest]
    refine congrArg _ (List.filter_eq_self.mpr fun e he => decide_eq_true fun hn => ?_)
    exact hd (List.mem_map.mpr ⟨e, he, hn⟩)

/-- Names that are taken, when the first declaration is passed. -/
theorem filter_firstDeclarations_cons (names : List String) (d : Spanned FunctionDecl)
    (ds : List (Spanned FunctionDecl)) :
    ((firstDeclarations (d :: ds)).filter fun e => e.node.name ∉ names) =
      if d.node.name ∈ names then (firstDeclarations ds).filter fun e => e.node.name ∉ names
      else d :: (firstDeclarations ds).filter fun e => e.node.name ∉ names ++ [d.node.name] := by
  have hcons : firstDeclarations (d :: ds) =
      d :: (firstDeclarations ds).filter fun e => e.node.name ≠ d.node.name := rfl
  rw [hcons]
  split
  · rename_i hd
    rw [List.filter_cons_of_neg (by simpa using hd), List.filter_filter]
    refine List.filter_congr fun e _ => ?_
    by_cases he : e.node.name = d.node.name <;> simp [he, hd]
  · rename_i hd
    rw [List.filter_cons_of_pos (by simpa using hd), List.filter_filter]
    refine congrArg _ (List.filter_congr fun e _ => ?_)
    by_cases he : e.node.name = d.node.name <;> simp [he]

namespace SymbolMaps

/-! ## The signatures of a file -/

section Contents

variable {registry : Registry} {moduleName : String} {u : SourceUnit}
  {state : List Nat × SymbolMaps} {listed : FileKey → List Nat}

/-- The number of a function is among those of its file if and only if the name is taken. -/
theorem Numbering.mem_listed_iff {m : SymbolMaps} (h : m.Numbering listed) {f : FunctionRef}
    {n : Nat} (hn : m.interner.get? f = some n) :
    n ∈ listed f.file ↔ f.name ∈ (m.signaturesAt (listed f.file)).map (·.name) := by
  constructor
  · intro hmem
    obtain ⟨s, hs, -⟩ := (h.live f.file n).mp hmem
    have href : s.ref = f := h.injective _ _ n (h.own n s hs) hn
    exact List.mem_map.mpr ⟨s, List.mem_filterMap.mpr ⟨n, hmem, hs⟩, congrArg FunctionRef.name href⟩
  · intro hname
    obtain ⟨s, hs, hname⟩ := List.mem_map.mp hname
    obtain ⟨n', hn', hget⟩ := List.mem_filterMap.mp hs
    obtain ⟨s', hget', hkey⟩ := (h.live f.file n').mp hn'
    rw [hget] at hget'
    cases hget'
    -- it is the signature of the function, which has one number
    have href : s.ref = f := by
      unfold Signature.ref
      rw [hkey, hname]
    have hown := h.own n' s hget
    rw [href, hn] at hown
    cases hown
    exact hn'

theorem signaturesAt_put {m : SymbolMaps} {numbers : List Nat} {n : Nat} (s : Signature)
    (hn : n ∉ numbers) :
    (m.put n s).signaturesAt (numbers ++ [n]) = m.signaturesAt numbers ++ [s] := by
  unfold signaturesAt
  rw [List.filterMap_append]
  congr 1
  · refine List.filterMap_congr fun n' hn' => ?_
    have hne : n' ≠ n := fun heq => hn (heq ▸ hn')
    rw [get?_functions_put, if_neg hne]
  · rw [List.filterMap_cons, get?_functions_put, if_pos rfl]
    rfl

variable (registry moduleName u) in
theorem Numbering.signaturesAt_declare (h : state.2.Numbering listed)
    (hlisted : listed u.path.key = state.1) (d : Spanned FunctionDecl) :
    (SymbolMaps.declare registry moduleName u state d).2.signaturesAt
        (SymbolMaps.declare registry moduleName u state d).1 =
      if d.node.name ∈ (state.2.signaturesAt state.1).map (·.name) then
        state.2.signaturesAt state.1
      else state.2.signaturesAt state.1 ++ [.ofDecl registry moduleName u d] := by
  obtain ⟨n, m, hintern⟩ : ∃ n m, state.2.intern ⟨u.path.key, d.node.name⟩ = (n, m) := ⟨_, _, rfl⟩
  obtain ⟨hm, hn, hfunctions⟩ := h.of_intern_eq hintern
  have hsame : m.signaturesAt state.1 = state.2.signaturesAt state.1 := by
    unfold signaturesAt
    rw [hfunctions]
  have htaken := hm.mem_listed_iff hn
  rw [hlisted, hsame] at htaken
  by_cases hmem : n ∈ state.1
  · rw [declare_of_mem hintern hmem, if_pos (htaken.mp hmem)]
    exact hsame
  · rw [declare_of_not_mem hintern hmem, if_neg fun hname => hmem (htaken.mpr hname), ← hsame]
    exact signaturesAt_put _ hmem

variable (registry moduleName u state) in
/-- Behind the signatures that are there come those of the first declarations of other names. -/
theorem Numbering.signaturesAt_foldl_declare (h : state.2.Numbering listed)
    (hlisted : listed u.path.key = state.1) (ds : List (Spanned FunctionDecl)) :
    (ds.foldl (SymbolMaps.declare registry moduleName u) state).2.signaturesAt
        (ds.foldl (SymbolMaps.declare registry moduleName u) state).1 =
      state.2.signaturesAt state.1 ++
        ((firstDeclarations ds).filter fun d =>
          d.node.name ∉ (state.2.signaturesAt state.1).map (·.name)).map
            (.ofDecl registry moduleName u) := by
  induction ds generalizing state listed with
  | nil => exact (List.append_nil _).symm
  | cons d rest ih =>
    have hstep := h.signaturesAt_declare registry moduleName u hlisted d
    rw [List.foldl_cons, ih _ (h.declare registry moduleName u hlisted d) (if_pos rfl), hstep]
    rw [filter_firstDeclarations_cons]
    split
    · rfl
    · rw [List.map_append, List.append_assoc]
      rfl

variable (registry moduleName u) in
/-- **A file that was collected has the signatures of its first declarations.** -/
theorem Numbering.signaturesAt_redeclare {m : SymbolMaps} (h : m.Numbering m.numbersIn) :
    (m.redeclare registry moduleName u).2.signaturesAt (m.redeclare registry moduleName u).1 =
      (firstDeclarations u.functions).map (.ofDecl registry moduleName u) := by
  have hall := (h.remove u.path.key).signaturesAt_foldl_declare registry moduleName u
    ([], (m.remove u.path.key).2) (numbersIn_remove_self _) u.functions
  refine hall.trans (congrArg (List.map _) (List.filter_eq_self.mpr fun d _ => ?_))
  exact decide_eq_true List.not_mem_nil

end Contents

/-! ## Other files -/

/-- What the maps have from all files but one is the same. -/
structure Frame (key : FileKey) (m m' : SymbolMaps) : Prop where
  byFile : ∀ k, k ≠ key → m'.byFile.get? k = m.byFile.get? k
  conversions : ∀ k, k ≠ key → m'.conversions.get? k = m.conversions.get? k
  functions : ∀ n s, s.path.key ≠ key → m.functions.get? n = some s → m'.functions.get? n = some s

section Frame

variable {m : SymbolMaps} {registry : Registry} {moduleName : String} {u : SourceUnit}

/-- A declaration is put in under the number of a function of its own file. -/
theorem Numbering.get?_functions_declare {state : List Nat × SymbolMaps}
    {listed : FileKey → List Nat} (h : state.2.Numbering listed) (d : Spanned FunctionDecl)
    {n : Nat} {s : Signature} (hne : s.path.key ≠ u.path.key)
    (hs : state.2.functions.get? n = some s) :
    (SymbolMaps.declare registry moduleName u state d).2.functions.get? n = some s := by
  obtain ⟨n', m, hintern⟩ : ∃ n m, state.2.intern ⟨u.path.key, d.node.name⟩ = (n, m) := ⟨_, _, rfl⟩
  obtain ⟨hm, hn', hfunctions⟩ := h.of_intern_eq hintern
  rw [← hfunctions] at hs
  by_cases hmem : n' ∈ state.1
  · rw [declare_of_mem hintern hmem]
    exact hs
  · rw [declare_of_not_mem hintern hmem, get?_functions_put, if_neg, hs]
    rintro rfl
    have href := hm.injective _ _ n (hm.own n s hs) hn'
    exact hne (congrArg FunctionRef.file href)

theorem Numbering.get?_functions_foldl_declare (state : List Nat × SymbolMaps)
    {listed : FileKey → List Nat} (h : state.2.Numbering listed)
    (hlisted : listed u.path.key = state.1) (ds : List (Spanned FunctionDecl)) {n : Nat}
    {s : Signature} (hne : s.path.key ≠ u.path.key) (hs : state.2.functions.get? n = some s) :
    (ds.foldl (SymbolMaps.declare registry moduleName u) state).2.functions.get? n = some s := by
  induction ds generalizing state listed with
  | nil => exact hs
  | cons d rest ih =>
    exact ih _ (h.declare registry moduleName u hlisted d) (if_pos rfl)
      (h.get?_functions_declare d hne hs)

theorem Valid.frame_remove (h : m.Valid) (key : FileKey) : Frame key m (m.remove key).2 where
  byFile k hk := by rw [get?_byFile_remove, if_neg hk]
  conversions k hk := by rw [get?_conversions_remove, if_neg hk]
  functions _ _ hne hs := (h.numbering.get?_functions_remove_of_ne hne).mpr hs

variable (registry moduleName u) in
theorem Valid.frame_collect (h : m.Valid) :
    Frame u.path.key m (m.collect registry moduleName u).2 where
  byFile k hk := by rw [get?_byFile_collect, if_neg hk]
  conversions k hk := by rw [get?_conversions_collect, if_neg hk]
  functions n s hne hs := by
    rw [functions_collect]
    exact (h.numbering.remove u.path.key).get?_functions_foldl_declare
      ([], (m.remove u.path.key).2) (numbersIn_remove_self _) u.functions hne
      ((h.frame_remove u.path.key).functions n s hne hs)

variable {m' : SymbolMaps} {key k : FileKey}

theorem Frame.numbersIn_eq (hframe : Frame key m m') (hk : k ≠ key) :
    m'.numbersIn k = m.numbersIn k := by
  unfold numbersIn
  rw [hframe.byFile k hk]

theorem Frame.signaturesAt_eq (hframe : Frame key m m') (h : m.Valid) (hk : k ≠ key) :
    m'.signaturesAt (m.numbersIn k) = m.signaturesAt (m.numbersIn k) := by
  refine List.filterMap_congr fun n hn => ?_
  obtain ⟨s, hs, hpath⟩ := (h.numbering.live k n).mp hn
  rw [hs, hframe.functions n s (hpath ▸ hk) hs]

end Frame

end SymbolMaps

/-! ## Tables, file by file -/

namespace SymbolTable

/-- What each file declares. -/
def files (t : SymbolTable) : OrderedMap FileKey FileSymbols :=
  t.maps.byFile.map fun key numbers => ⟨t.maps.signaturesAt numbers, t.conversionsIn key⟩

variable {t : SymbolTable}

theorem get?_files (key : FileKey) : t.files.get? key =
    (t.maps.byFile.get? key).map fun _ => ⟨t.signaturesIn key, t.conversionsIn key⟩ := by
  unfold files signaturesIn SymbolMaps.numbersIn
  rw [OrderedMap.get?_map]
  cases t.maps.byFile.get? key <;> rfl

theorem signaturesIn_eq (key : FileKey) :
    t.signaturesIn key = ((t.files.get? key).map (·.signatures)).getD [] := by
  rw [get?_files, Option.map_map]
  cases hkey : t.maps.byFile.get? key with
  | none =>
    unfold signaturesIn SymbolMaps.numbersIn
    rw [hkey]
    rfl
  | some numbers => rfl

theorem conversionsIn_eq (key : FileKey) :
    t.conversionsIn key = ((t.files.get? key).map (·.conversions)).getD [] := by
  rw [get?_files, Option.map_map]
  cases hkey : t.maps.byFile.get? key with
  | none =>
    -- conversions are listed under files that were collected
    unfold conversionsIn
    cases hconversions : t.maps.conversions.get? key with
    | none => rfl
    | some conversions =>
      obtain ⟨-, numbers, hnumbers⟩ := t.valid.converting key conversions hconversions
      rw [hkey] at hnumbers
      cases hnumbers
  | some numbers => rfl

theorem get?_files_of_frame {t' : SymbolTable} {key k : FileKey}
    (hframe : SymbolMaps.Frame key t.maps t'.maps) (hk : k ≠ key) :
    t'.files.get? k = t.files.get? k := by
  rw [get?_files, get?_files, hframe.byFile k hk]
  unfold signaturesIn conversionsIn
  rw [hframe.numbersIn_eq hk, hframe.signaturesAt_eq t.valid hk, hframe.conversions k hk]

theorem signaturesIn_collect_self (registry : Registry) (moduleName : String) (u : SourceUnit) :
    (t.collect registry moduleName u).signaturesIn u.path.key =
      (firstDeclarations u.functions).map (.ofDecl registry moduleName u) := by
  rw [← t.valid.numbering.signaturesAt_redeclare registry moduleName u]
  show ((t.maps.collect registry moduleName u).2.signaturesAt
    ((t.maps.collect registry moduleName u).2.numbersIn u.path.key)) = _
  rw [SymbolMaps.numbersIn_collect, if_pos rfl]
  unfold SymbolMaps.signaturesAt
  rw [SymbolMaps.functions_collect]
  rfl

theorem conversionsIn_collect_self (registry : Registry) (moduleName : String) (u : SourceUnit) :
    (t.collect registry moduleName u).conversionsIn u.path.key = u.conversions := by
  show ((t.maps.collect registry moduleName u).2.conversions.get? u.path.key).getD [] = _
  rw [SymbolMaps.get?_conversions_collect, if_pos rfl]
  split
  · rename_i hempty
    exact (List.isEmpty_iff.mp hempty).symm
  · rfl

/-- **Collecting a file puts in what it declares.** -/
theorem files_collect (t : SymbolTable) (registry : Registry) (moduleName : String)
    (u : SourceUnit) : (t.collect registry moduleName u).files =
      t.files.insert u.path.key (.ofUnit registry moduleName u) := by
  refine OrderedMap.ext_get? fun key => ?_
  rw [OrderedMap.get?_insert_eq_ite]
  split
  · rename_i hkey
    have hlisted : (t.collect registry moduleName u).maps.byFile.get? u.path.key =
        some (t.maps.collect registry moduleName u).1 := by
      exact (SymbolMaps.get?_byFile_collect registry moduleName u _).trans (if_pos rfl)
    rw [hkey, get?_files, hlisted, signaturesIn_collect_self, conversionsIn_collect_self]
    rfl
  · rename_i hkey
    exact get?_files_of_frame (t.valid.frame_collect registry moduleName u) hkey

/-- **Removing a file takes out what it declares.** -/
theorem files_remove (t : SymbolTable) (key : FileKey) :
    (t.remove key).files = t.files.erase key := by
  refine OrderedMap.ext_get? fun k => ?_
  rw [OrderedMap.get?_erase_eq_ite]
  split
  · rename_i hk
    have hlisted : (t.remove key).maps.byFile.get? key = none :=
      (SymbolMaps.get?_byFile_remove key key).trans (if_pos rfl)
    rw [hk, get?_files, hlisted]
    rfl
  · rename_i hk
    exact get?_files_of_frame (t.valid.frame_remove key) hk

theorem files_clear (t : SymbolTable) : t.clear.files = ∅ := rfl

end SymbolTable

end EffectAudit
