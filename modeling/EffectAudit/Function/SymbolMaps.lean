import EffectAudit.Data.OrderedMap
import EffectAudit.Function.Signature

/-!
# The maps of the symbol table

Functions are numbered when they are declared for the first time, and their signatures are kept by
number. Every file has a list of the numbers of its functions and a list of its conversions between
error types. When a file is taken out, its lists and its signatures go, but the numbers of its
functions stay taken: a function that comes back gets the number that it had.

So there are five maps with different lifetimes, and what keeps them together is an invariant: a
number is listed under a file if and only if it has a signature from that file.

## Main definitions

* `SymbolMaps`: numbers, signatures and lists
* `SymbolMaps.intern`, `SymbolMaps.collect`, `SymbolMaps.remove`, `SymbolMaps.clear`: changes
* `SymbolMaps.Numbering`: how numbers and signatures belong together
* `SymbolMaps.Valid`: the invariant of the maps

## Main results

* `SymbolMaps.Numbering.intern`, `SymbolMaps.Numbering.declare`, `SymbolMaps.Numbering.remove`: what
  each step keeps
* `SymbolMaps.Valid.collect`, `SymbolMaps.Valid.remove`, `SymbolMaps.Valid.clear`: what changes keep
-/

namespace EffectAudit

/-- The types of a file that other types convert to. -/
def SourceUnit.conversions (u : SourceUnit) : List TypeDecl :=
  u.types.filter fun t => !t.convertsFrom.isEmpty

/-- Numbers of functions, signatures by number, and what is listed under files. -/
structure SymbolMaps where
  /-- The numbers that functions were given. -/
  interner : OrderedMap FunctionRef Nat := ∅
  /-- The next number to be given. -/
  nextNumber : Nat := 0
  functions : OrderedMap Nat Signature := ∅
  /-- The numbers of the functions of each file, in the order of their declarations. -/
  byFile : OrderedMap FileKey (List Nat) := ∅
  /-- The types of each file that other types convert to. -/
  conversions : OrderedMap FileKey (List TypeDecl) := ∅

namespace SymbolMaps

/-- The number of a function, given now if the function has none. -/
def intern (m : SymbolMaps) (f : FunctionRef) : Nat × SymbolMaps :=
  match m.interner.get? f with
  | some n => (n, m)
  | none =>
    (m.nextNumber,
      { m with
        interner := m.interner.insert f m.nextNumber
        nextNumber := m.nextNumber + 1 })

/-- The numbers that are listed under a file. -/
def numbersIn (m : SymbolMaps) (key : FileKey) : List Nat := (m.byFile.get? key).getD []

/-- Takes out a file, and gives back the numbers that were listed under it. -/
def remove (m : SymbolMaps) (key : FileKey) : List Nat × SymbolMaps :=
  let numbers := m.numbersIn key
  (numbers,
    { m with
      functions := numbers.foldl OrderedMap.erase m.functions
      byFile := m.byFile.erase key
      conversions := m.conversions.erase key })

/-- Puts in a signature under a number. -/
def put (m : SymbolMaps) (n : Nat) (s : Signature) : SymbolMaps :=
  { m with functions := m.functions.insert n s }

/-- Takes in a declaration behind those whose numbers are given. Of functions with one name the
first counts. -/
def declare (registry : Registry) (moduleName : String) (u : SourceUnit)
    (state : List Nat × SymbolMaps) (d : Spanned FunctionDecl) : List Nat × SymbolMaps :=
  let (n, m) := state.2.intern ⟨u.path.key, d.node.name⟩
  if n ∈ state.1 then (state.1, m)
  else (state.1 ++ [n], m.put n (.ofDecl registry moduleName u d))

/-- Takes in the functions that a file declares, in place of those that it declared before, and
gives back their numbers. -/
def redeclare (m : SymbolMaps) (registry : Registry) (moduleName : String) (u : SourceUnit) :
    List Nat × SymbolMaps :=
  u.functions.foldl (declare registry moduleName u) ([], (m.remove u.path.key).2)

/-- Lists conversions under a file, if there are any. -/
def addConversions (m : SymbolMaps) (key : FileKey) (conversions : List TypeDecl) : SymbolMaps :=
  if conversions.isEmpty then m
  else { m with conversions := m.conversions.insert key conversions }

/-- Takes in what a file declares, in place of what it declared before, and gives back the numbers
of its functions. -/
def collect (m : SymbolMaps) (registry : Registry) (moduleName : String) (u : SourceUnit) :
    List Nat × SymbolMaps :=
  let (numbers, m) := m.redeclare registry moduleName u
  let m := { m with byFile := m.byFile.insert u.path.key numbers }
  (numbers, m.addConversions u.path.key u.conversions)

/-- Takes out all files. -/
def clear (m : SymbolMaps) : SymbolMaps :=
  { m with
    functions := ∅
    byFile := ∅
    conversions := ∅ }

/-! ## Look-ups -/

/-- The signatures at numbers. -/
def signaturesAt (m : SymbolMaps) (numbers : List Nat) : List Signature :=
  numbers.filterMap m.functions.get?

/-- The number of a function that is listed under its file. -/
def lookupIn? (m : SymbolMaps) (f : FunctionRef) : Option Nat :=
  (m.numbersIn f.file).find? fun n => (m.functions.get? n).any (·.name == f.name)

/-- The number of a function that has a signature. -/
def find? (m : SymbolMaps) (f : FunctionRef) : Option Nat :=
  (m.interner.get? f).filter m.functions.contains

/-! ## Numbers and signatures -/

/-- No two functions have one number, signatures are kept under the numbers of their functions, and
a file lists the numbers of its signatures, each once. The lists are given apart from the maps,
since the list of a file that is being collected is not among them yet. -/
structure Numbering (m : SymbolMaps) (listed : FileKey → List Nat) : Prop where
  fresh : ∀ f n, m.interner.get? f = some n → n < m.nextNumber
  injective : ∀ f g n, m.interner.get? f = some n → m.interner.get? g = some n → f = g
  own : ∀ n s, m.functions.get? n = some s → m.interner.get? s.ref = some n
  live : ∀ key n, n ∈ listed key ↔ ∃ s, m.functions.get? n = some s ∧ s.path.key = key
  distinct : ∀ key, (listed key).Nodup

theorem Numbering.congr {m : SymbolMaps} {listed listed' : FileKey → List Nat}
    (h : m.Numbering listed) (heq : ∀ key, listed key = listed' key) : m.Numbering listed' :=
  funext heq ▸ h

section Intern

variable {m : SymbolMaps} {listed : FileKey → List Nat} {f : FunctionRef}

theorem intern_of_some {n : Nat} (h : m.interner.get? f = some n) : m.intern f = (n, m) := by
  unfold intern
  rw [h]

theorem intern_of_none (h : m.interner.get? f = none) :
    m.intern f = (m.nextNumber,
      { m with
        interner := m.interner.insert f m.nextNumber
        nextNumber := m.nextNumber + 1 }) := by
  unfold intern
  rw [h]

@[simp]
theorem functions_intern : (m.intern f).2.functions = m.functions := by
  unfold intern
  split <;> rfl

@[simp]
theorem byFile_intern : (m.intern f).2.byFile = m.byFile := by
  unfold intern
  split <;> rfl

@[simp]
theorem conversions_intern : (m.intern f).2.conversions = m.conversions := by
  unfold intern
  split <;> rfl

/-- A function has the number that it was given, and the others keep theirs. -/
theorem get?_interner_intern (g : FunctionRef) :
    (m.intern f).2.interner.get? g = if g = f then some (m.intern f).1 else m.interner.get? g := by
  cases h : m.interner.get? f with
  | some n =>
    rw [intern_of_some h]
    split
    · rename_i hg
      rw [hg, h]
    · rfl
  | none =>
    rw [intern_of_none h]
    exact OrderedMap.get?_insert_eq_ite m.interner f m.nextNumber g

/-- Numbers that were given stay. -/
theorem get?_interner_intern_of_some {g : FunctionRef} {n : Nat} (h : m.interner.get? g = some n) :
    (m.intern f).2.interner.get? g = some n := by
  rw [get?_interner_intern]
  split
  · rename_i hg
    rw [intern_of_some (hg ▸ h)]
  · exact h

theorem Numbering.intern (h : m.Numbering listed) (f : FunctionRef) :
    (m.intern f).2.Numbering listed := by
  cases hf : m.interner.get? f with
  | some n => rwa [intern_of_some hf]
  | none =>
    have hget := get?_interner_intern (m := m) (f := f)
    have hnew : (m.intern f).1 = m.nextNumber := by rw [intern_of_none hf]
    have hnext : (m.intern f).2.nextNumber = m.nextNumber + 1 := by rw [intern_of_none hf]
    refine ⟨fun g n hg => ?_, fun g g' n hg hg' => ?_, fun n s hs => ?_, ?_, h.distinct⟩
    · rw [hget, hnew] at hg
      rw [hnext]
      split at hg
      · cases hg
        exact Nat.lt_succ_self _
      · exact Nat.lt_succ_of_lt (h.fresh g n hg)
    · -- the new number is larger than those that were given before
      rw [hget, hnew] at hg hg'
      split at hg <;> split at hg'
      · rename_i heq heq'
        rw [heq, heq']
      · cases hg
        exact absurd (h.fresh g' _ hg') (Nat.lt_irrefl _)
      · cases hg'
        exact absurd (h.fresh g _ hg) (Nat.lt_irrefl _)
      · exact h.injective g g' n hg hg'
    · rw [functions_intern] at hs
      exact get?_interner_intern_of_some (h.own n s hs)
    · rw [functions_intern]
      exact h.live

/-- The function has its number now, and the signatures are those that were there. -/
theorem Numbering.of_intern_eq (h : m.Numbering listed) {n : Nat} {m' : SymbolMaps}
    (hintern : m.intern f = (n, m')) :
    m'.Numbering listed ∧ m'.interner.get? f = some n ∧ m'.functions = m.functions := by
  have hkept := h.intern f
  have hget := get?_interner_intern (m := m) (f := f) f
  have hfunctions := functions_intern (m := m) (f := f)
  rw [hintern] at hkept hget hfunctions
  exact ⟨hkept, hget.trans (if_pos rfl), hfunctions⟩

end Intern

/-! ## Declarations -/

/-- A number that is not listed under its function's file has no signature. -/
theorem Numbering.get?_functions_eq_none {m : SymbolMaps} {listed : FileKey → List Nat}
    (h : m.Numbering listed) {f : FunctionRef} {n : Nat} (hf : m.interner.get? f = some n)
    (hn : n ∉ listed f.file) : m.functions.get? n = none := by
  cases hs : m.functions.get? n with
  | none => rfl
  | some s =>
    have href : s.ref = f := h.injective _ _ n (h.own n s hs) hf
    exact absurd ((h.live f.file n).mpr ⟨s, hs, congrArg FunctionRef.file href⟩) hn

theorem get?_functions_put (m : SymbolMaps) (n : Nat) (s : Signature) (n' : Nat) :
    (m.put n s).functions.get? n' = if n' = n then some s else m.functions.get? n' :=
  OrderedMap.get?_insert_eq_ite m.functions n s n'

/-- A signature is put in under the number of its function, which is then listed under its file. -/
theorem Numbering.put {m : SymbolMaps} {listed : FileKey → List Nat} (h : m.Numbering listed)
    {n : Nat} {s : Signature} (hown : m.interner.get? s.ref = some n)
    (hn : n ∉ listed s.path.key) :
    (m.put n s).Numbering fun k => if k = s.path.key then listed k ++ [n] else listed k := by
  have hnone := h.get?_functions_eq_none hown hn
  have hget := get?_functions_put m n s
  refine ⟨h.fresh, h.injective, fun n' s' hs' => ?_, fun key n' => ?_, fun key => ?_⟩
  · rw [hget] at hs'
    split at hs'
    · rename_i hn'
      cases hs'
      exact hn' ▸ hown
    · exact h.own n' s' hs'
  · simp only [hget]
    by_cases hn' : n' = n
    · subst hn'
      simp only [if_true, Option.some.injEq, exists_eq_left']
      constructor
      · intro hmem
        split at hmem
        · rename_i hk
          exact hk.symm
        · obtain ⟨s', hs', -⟩ := (h.live key n').mp hmem
          rw [hnone] at hs'
          cases hs'
      · rintro rfl
        rw [if_pos rfl]
        exact List.mem_append_right _ (List.mem_singleton.mpr rfl)
    · simp only [if_neg hn', ← h.live]
      split
      · rw [List.mem_append, List.mem_singleton]
        exact ⟨fun hmem => hmem.resolve_right hn', .inl⟩
      · exact Iff.rfl
  · split
    · rename_i hk
      rw [List.nodup_append]
      refine ⟨h.distinct key, by simp, fun a ha b hb hab => hn ?_⟩
      rw [List.mem_singleton] at hb
      exact hk ▸ hb ▸ hab ▸ ha
    · exact h.distinct key

section Declare

variable {registry : Registry} {moduleName : String} {u : SourceUnit}
  {state : List Nat × SymbolMaps} {d : Spanned FunctionDecl} {n : Nat} {m : SymbolMaps}

theorem declare_of_mem (hintern : state.2.intern ⟨u.path.key, d.node.name⟩ = (n, m))
    (hn : n ∈ state.1) : declare registry moduleName u state d = (state.1, m) := by
  unfold declare
  rw [hintern]
  exact if_pos hn

theorem declare_of_not_mem (hintern : state.2.intern ⟨u.path.key, d.node.name⟩ = (n, m))
    (hn : n ∉ state.1) : declare registry moduleName u state d =
      (state.1 ++ [n], m.put n (.ofDecl registry moduleName u d)) := by
  unfold declare
  rw [hintern]
  exact if_neg hn

variable (registry moduleName u) in
theorem lists_declare (state : List Nat × SymbolMaps) (d : Spanned FunctionDecl) :
    (declare registry moduleName u state d).2.byFile = state.2.byFile ∧
      (declare registry moduleName u state d).2.conversions = state.2.conversions := by
  have hbyFile := byFile_intern (m := state.2) (f := ⟨u.path.key, d.node.name⟩)
  have hconversions := conversions_intern (m := state.2) (f := ⟨u.path.key, d.node.name⟩)
  unfold declare
  split
  rename_i n m hintern
  rw [hintern] at hbyFile hconversions
  split
  · exact ⟨hbyFile, hconversions⟩
  · exact ⟨hbyFile, hconversions⟩

variable (registry moduleName u) in
theorem Numbering.declare {listed : FileKey → List Nat} (h : state.2.Numbering listed)
    (hlisted : listed u.path.key = state.1) (d : Spanned FunctionDecl) :
    (declare registry moduleName u state d).2.Numbering fun k =>
      if k = u.path.key then (declare registry moduleName u state d).1 else listed k := by
  obtain ⟨n, m, hintern⟩ : ∃ n m, state.2.intern ⟨u.path.key, d.node.name⟩ = (n, m) := ⟨_, _, rfl⟩
  obtain ⟨hm, hown, -⟩ := h.of_intern_eq hintern
  by_cases hn : n ∈ state.1
  · rw [declare_of_mem hintern hn]
    refine hm.congr fun k => ?_
    split
    · rename_i hk
      rw [hk, hlisted]
    · rfl
  · have hput := hm.put (s := .ofDecl registry moduleName u d) hown (hlisted ▸ hn)
    rw [declare_of_not_mem hintern hn]
    refine hput.congr fun k => ?_
    show (if k = u.path.key then listed k ++ [n] else listed k) = _
    split
    · rename_i hk
      rw [hk, hlisted]
    · rfl

theorem lists_foldl_declare (ds : List (Spanned FunctionDecl)) (state : List Nat × SymbolMaps) :
    (ds.foldl (SymbolMaps.declare registry moduleName u) state).2.byFile = state.2.byFile ∧
      (ds.foldl (SymbolMaps.declare registry moduleName u) state).2.conversions =
        state.2.conversions := by
  induction ds generalizing state with
  | nil => exact ⟨rfl, rfl⟩
  | cons d rest ih =>
    obtain ⟨hbyFile, hconversions⟩ := lists_declare registry moduleName u state d
    obtain ⟨hbyFile', hconversions'⟩ := ih (SymbolMaps.declare registry moduleName u state d)
    exact ⟨hbyFile'.trans hbyFile, hconversions'.trans hconversions⟩

variable (registry moduleName u state) in
/-- What a file declares, one declaration after the other. -/
theorem Numbering.foldl_declare {listed : FileKey → List Nat} (h : state.2.Numbering listed)
    (hlisted : listed u.path.key = state.1) (ds : List (Spanned FunctionDecl)) :
    (ds.foldl (SymbolMaps.declare registry moduleName u) state).2.Numbering fun k =>
      if k = u.path.key then (ds.foldl (SymbolMaps.declare registry moduleName u) state).1
      else listed k := by
  induction ds generalizing state listed with
  | nil =>
    refine h.congr fun k => ?_
    split
    · rename_i hk
      rw [hk, hlisted]
      rfl
    · rfl
  | cons d rest ih =>
    refine (ih _ (h.declare registry moduleName u hlisted d) (if_pos rfl)).congr fun k => ?_
    rw [List.foldl_cons]
    by_cases hk : k = u.path.key
    · rw [if_pos hk, if_pos hk]
    · rw [if_neg hk, if_neg hk, if_neg hk]

end Declare

/-! ## The invariant -/

/-- The lists under files are those of the numbers with signatures, and conversions are listed under
files that were collected, if there are any. -/
structure Valid (m : SymbolMaps) : Prop where
  numbering : m.Numbering m.numbersIn
  converting : ∀ key conversions, m.conversions.get? key = some conversions →
    conversions ≠ [] ∧ ∃ numbers, m.byFile.get? key = some numbers

/-- Without files the maps are valid if no two functions have one number. -/
theorem valid_clear {m : SymbolMaps} (hfresh : ∀ f n, m.interner.get? f = some n → n < m.nextNumber)
    (hinjective : ∀ f g n, m.interner.get? f = some n → m.interner.get? g = some n → f = g) :
    m.clear.Valid where
  numbering := by
    refine ⟨hfresh, hinjective, fun n s hs => ?_, fun key n => ?_, fun key => .nil⟩
    · cases hs
    · constructor
      · intro hn
        cases hn
      · rintro ⟨s, hs, -⟩
        cases hs
  converting key conversions h := by cases h

theorem valid_empty : ({} : SymbolMaps).Valid :=
  valid_clear (m := {}) (fun _ _ h => by cases h) fun _ _ _ h => by cases h

theorem Valid.clear {m : SymbolMaps} (h : m.Valid) : m.clear.Valid :=
  valid_clear h.numbering.fresh h.numbering.injective

section Remove

variable {m : SymbolMaps} (key : FileKey)

theorem get?_byFile_remove (k : FileKey) :
    (m.remove key).2.byFile.get? k = if k = key then none else m.byFile.get? k :=
  OrderedMap.get?_erase_eq_ite m.byFile key k

theorem get?_conversions_remove (k : FileKey) :
    (m.remove key).2.conversions.get? k = if k = key then none else m.conversions.get? k :=
  OrderedMap.get?_erase_eq_ite m.conversions key k

theorem numbersIn_remove (k : FileKey) :
    (m.remove key).2.numbersIn k = if k = key then [] else m.numbersIn k := by
  unfold numbersIn
  rw [get?_byFile_remove]
  split <;> rfl

theorem numbersIn_remove_self : (m.remove key).2.numbersIn key = [] :=
  (numbersIn_remove key key).trans (if_pos rfl)

theorem get?_functions_remove (n : Nat) : (m.remove key).2.functions.get? n =
    if n ∈ m.numbersIn key then none else m.functions.get? n :=
  OrderedMap.get?_foldl_erase _ _ n

variable {key}

/-- The signatures of other files stay. -/
theorem Numbering.get?_functions_remove_of_ne (h : m.Numbering m.numbersIn) {n : Nat}
    {s : Signature} (hne : s.path.key ≠ key) :
    (m.remove key).2.functions.get? n = some s ↔ m.functions.get? n = some s := by
  rw [get?_functions_remove]
  split
  · rename_i hn
    obtain ⟨s', hs', hkey⟩ := (h.live key n).mp hn
    refine ⟨fun hs => (by cases hs), fun hs => ?_⟩
    rw [hs] at hs'
    cases hs'
    exact absurd hkey hne
  · exact Iff.rfl

theorem Numbering.remove (h : m.Numbering m.numbersIn) (key : FileKey) :
    (m.remove key).2.Numbering (m.remove key).2.numbersIn := by
  refine ⟨h.fresh, h.injective, fun n s hs => ?_, fun k n => ?_, fun k => ?_⟩
  · rw [get?_functions_remove] at hs
    split at hs
    · cases hs
    · exact h.own n s hs
  · rw [numbersIn_remove]
    by_cases hk : k = key
    · rw [if_pos hk]
      refine ⟨fun hn => absurd hn List.not_mem_nil, fun ⟨s, hs, hkey⟩ => ?_⟩
      -- a signature of the file would be listed under it
      rw [get?_functions_remove] at hs
      split at hs
      · cases hs
      · rename_i hn
        exact absurd ((h.live key n).mpr ⟨s, hs, hkey.trans hk⟩) hn
    · rw [if_neg hk, h.live]
      refine exists_congr fun s => and_congr_left fun hkey => ?_
      exact (h.get?_functions_remove_of_ne (hkey ▸ hk)).symm
  · rw [numbersIn_remove]
    split
    · exact .nil
    · exact h.distinct k

theorem Valid.remove (h : m.Valid) (key : FileKey) : (m.remove key).2.Valid where
  numbering := h.numbering.remove key
  converting k conversions hget := by
    rw [get?_conversions_remove] at hget
    split at hget
    · cases hget
    · rename_i hk
      rw [get?_byFile_remove, if_neg hk]
      exact h.converting k conversions hget

end Remove

section Collect

variable {m : SymbolMaps} (registry : Registry) (moduleName : String) (u : SourceUnit)

theorem lists_redeclare :
    (m.redeclare registry moduleName u).2.byFile = m.byFile.erase u.path.key ∧
      (m.redeclare registry moduleName u).2.conversions = m.conversions.erase u.path.key :=
  lists_foldl_declare u.functions ([], (m.remove u.path.key).2)

theorem collect_eq : m.collect registry moduleName u =
    ((m.redeclare registry moduleName u).1,
      addConversions
        { (m.redeclare registry moduleName u).2 with
          byFile := (m.redeclare registry moduleName u).2.byFile.insert u.path.key
            (m.redeclare registry moduleName u).1 }
        u.path.key u.conversions) := rfl

/-- Conversions are not listed under numbers. -/
theorem addConversions_eq (m : SymbolMaps) (key : FileKey) (conversions : List TypeDecl) :
    m.addConversions key conversions =
      { m with conversions := (m.addConversions key conversions).conversions } := by
  unfold addConversions
  split <;> rfl

theorem get?_byFile_collect (k : FileKey) : (m.collect registry moduleName u).2.byFile.get? k =
    if k = u.path.key then some (m.collect registry moduleName u).1 else m.byFile.get? k := by
  rw [collect_eq, addConversions_eq]
  show ((m.redeclare registry moduleName u).2.byFile.insert _ _).get? k = _
  rw [OrderedMap.get?_insert_eq_ite, (lists_redeclare registry moduleName u).1,
    OrderedMap.get?_erase_eq_ite]
  split <;> rfl

theorem get?_conversions_collect (k : FileKey) :
    (m.collect registry moduleName u).2.conversions.get? k =
      if k = u.path.key then (if u.conversions.isEmpty then none else some u.conversions)
      else m.conversions.get? k := by
  have hlists := (lists_redeclare (m := m) registry moduleName u).2
  rw [collect_eq]
  unfold addConversions
  split
  · show (m.redeclare registry moduleName u).2.conversions.get? k = _
    rw [hlists, OrderedMap.get?_erase_eq_ite]
  · show ((m.redeclare registry moduleName u).2.conversions.insert _ _).get? k = _
    rw [OrderedMap.get?_insert_eq_ite, hlists, OrderedMap.get?_erase_eq_ite]
    split <;> rfl

theorem interner_collect : (m.collect registry moduleName u).2.interner =
    (m.redeclare registry moduleName u).2.interner := by
  rw [collect_eq, addConversions_eq]

theorem functions_collect : (m.collect registry moduleName u).2.functions =
    (m.redeclare registry moduleName u).2.functions := by
  rw [collect_eq, addConversions_eq]

theorem numbersIn_collect (k : FileKey) : (m.collect registry moduleName u).2.numbersIn k =
    if k = u.path.key then (m.collect registry moduleName u).1 else m.numbersIn k := by
  unfold numbersIn
  rw [get?_byFile_collect]
  split <;> rfl

theorem Numbering.redeclare (h : m.Numbering m.numbersIn) :
    (m.redeclare registry moduleName u).2.Numbering fun k =>
      if k = u.path.key then (m.redeclare registry moduleName u).1 else m.numbersIn k := by
  have hremoved := h.remove u.path.key
  refine (hremoved.foldl_declare registry moduleName u ([], (m.remove u.path.key).2)
    (numbersIn_remove_self _) u.functions).congr fun k => ?_
  by_cases hk : k = u.path.key
  · rw [if_pos hk, if_pos hk]
    rfl
  · rw [if_neg hk, if_neg hk, numbersIn_remove, if_neg hk]

theorem Valid.collect (h : m.Valid) : (m.collect registry moduleName u).2.Valid where
  numbering := by
    have hnumbers := h.numbering.redeclare registry moduleName u
    have hnumbering : (m.collect registry moduleName u).2.Numbering fun k =>
        if k = u.path.key then (m.redeclare registry moduleName u).1 else m.numbersIn k := by
      rw [collect_eq, addConversions_eq]
      exact ⟨hnumbers.fresh, hnumbers.injective, hnumbers.own, hnumbers.live,
        hnumbers.distinct⟩
    exact hnumbering.congr fun k => (numbersIn_collect registry moduleName u k).symm
  converting k conversions hget := by
    rw [get?_conversions_collect] at hget
    rw [get?_byFile_collect]
    by_cases hk : k = u.path.key
    · rw [if_pos hk] at hget ⊢
      split at hget
      · cases hget
      · rename_i hne
        cases hget
        exact ⟨fun hnil => hne (hnil ▸ rfl), _, rfl⟩
    · rw [if_neg hk] at hget ⊢
      exact h.converting k conversions hget

end Collect

end SymbolMaps

end EffectAudit
