import EffectAudit.Function.Scope
import EffectAudit.Proofs.SymbolTable

/-!
# Candidates of a call

An unqualified name is looked for level by level: in the file, in the rest of its module, among its
imports. No level has a function twice, whatever the number of imports that bring it. So the first
level with a candidate binds the call if there is no other, and refuses it as ambiguous if there is.

## Main definitions

* `Level`: the levels of the search
* `CallOutcome.FindsFunction`: calls for which there are functions
* `ResolvedImport.Brings`: the qualifiers of an import
* `Scope.candidates`: the functions that a name may stand for at a level
* `Scope.moduleFor?`: the module that a qualifier stands for in a file

## Main results

* `Scope.nodup_candidates`: no level has a function twice
* `Scope.resolveName_of_first`: the first level with candidates decides
* `Scope.choose?_of_unique`, `Scope.choose?_of_ne`: one candidate is called, several are ambiguous
* `Scope.candidate_of_resolveName`, `Scope.candidate_of_resolveQualified`: functions that are called
  are candidates
* `Scope.findsFunction_resolveName`, `Scope.findsFunction_resolveQualified`: calls find functions
  where there are some
-/

namespace EffectAudit

/-- Where the functions that an unqualified name may stand for are looked for. -/
inductive Level where
  | file
  | module
  | imports
  deriving DecidableEq

/-- The place of a level in the order of the search. -/
def Level.rank : Level → Nat
  | file => 0
  | module => 1
  | imports => 2

/-- An import makes a qualifier known for its module. -/
def ResolvedImport.Brings (i : ResolvedImport) (qualifier : String) : Prop :=
  i.moduleName = qualifier ∨ i.qualifier = some qualifier

/-- There are functions for a call: it is bound to the only one, or refused because there are
several. -/
inductive CallOutcome.FindsFunction : CallOutcome → Prop
  | bound (g : FunctionRef) : FindsFunction (.bound (.function g))
  | ambiguous (name : String) (candidates : List String) :
      FindsFunction (.refused (.ambiguousReference name candidates))

namespace Scope

/-- The functions that a name may stand for at a level. -/
def candidates (s : Scope) (name : String) : Level → List Signature
  | .file => (s.own? name).toList
  | .module => s.siblings name
  | .imports => s.imported name

/-- The module that a qualifier stands for. The name of the own module stands for this module,
whatever is imported. -/
def moduleFor? (s : Scope) (qualifier : String) : Option String :=
  if qualifier = s.moduleName then some s.moduleName else s.qualified? qualifier

variable {s : Scope}

/-! ## Membership -/

section Membership

variable {f : Signature} {m name : String}

theorem mem_defined : f ∈ s.defined m name ↔
    s.symbols.lookup? f.ref = some f ∧ f.ref.file ∈ s.graph.filesOf m ∧ f.ref.name = name := by
  unfold defined SymbolTable.lookupIn
  rw [List.mem_filterMap]
  constructor
  · rintro ⟨key, hkey, hf⟩
    have hr := SymbolTable.ref_of_lookup? hf
    rw [hr]
    exact ⟨hf, hkey, rfl⟩
  · rintro ⟨hf, hfile, rfl⟩
    exact ⟨f.ref.file, hfile, hf⟩

theorem mem_exported : f ∈ s.exported m name ↔
    (s.symbols.lookup? f.ref = some f ∧ f.isExported = true) ∧
      f.ref.file ∈ s.graph.filesOf m ∧ f.ref.name = name := by
  unfold exported
  rw [List.mem_filter, mem_defined]
  tauto

theorem mem_siblings : f ∈ s.siblings name ↔
    s.symbols.lookup? f.ref = some f ∧ f.ref.file ∈ s.graph.filesOf s.moduleName ∧
      f.ref.file ≠ s.file ∧ f.ref.name = name := by
  unfold siblings
  rw [List.mem_filter, mem_defined, decide_eq_true_iff]
  exact ⟨fun ⟨⟨hf, hfile, hname⟩, hne⟩ => ⟨hf, hfile, hne, hname⟩,
    fun ⟨hf, hfile, hne, hname⟩ => ⟨⟨hf, hfile, hname⟩, hne⟩⟩

theorem mem_own : f ∈ (s.own? name).toList ↔
    s.symbols.lookup? f.ref = some f ∧ f.ref = ⟨s.file, name⟩ := by
  unfold own?
  rw [Option.mem_toList]
  constructor
  · intro hf
    have hr := SymbolTable.ref_of_lookup? hf
    exact ⟨hr ▸ hf, hr⟩
  · rintro ⟨hf, hr⟩
    exact hr ▸ hf

theorem mem_imported : f ∈ s.imported name ↔ ∃ i ∈ s.resolution.imports,
    f ∈ s.broughtByName i name ∨ f ∈ s.broughtByWildcard i name := by
  unfold imported
  rw [mem_distinct, List.mem_append, List.mem_flatMap, List.mem_flatMap]
  simp only [← exists_or, ← and_or_left]

theorem mem_broughtByName {i : ResolvedImport} : f ∈ s.broughtByName i name ↔
    ∃ names, i.kind = .names names ∧ ∃ n ∈ names, n.localName = name ∧
      f ∈ s.exported i.moduleName n.name := by
  unfold broughtByName
  cases i.kind with
  | module => simp
  | wildcard => simp
  | names names => simp [and_assoc]

theorem mem_broughtByWildcard {i : ResolvedImport} : f ∈ s.broughtByWildcard i name ↔
    i.kind = .wildcard ∧ f ∈ s.exported i.moduleName name := by
  unfold broughtByWildcard
  cases i.kind with
  | module => simp
  | wildcard => simp
  | names names => simp

theorem of_qualified? {qualifier : String} (h : s.qualified? qualifier = some m) :
    ∃ i ∈ s.resolution.imports, i.moduleName = m ∧ i.Brings qualifier := by
  unfold qualified? at h
  obtain ⟨i, hi, rfl⟩ := Option.map_eq_some_iff.mp h
  refine ⟨i, List.mem_reverse.mp (List.mem_of_find?_eq_some hi), rfl, ?_⟩
  simpa [ResolvedImport.Brings] using List.find?_some hi

/-- What an import brings is exported by its module. -/
theorem exported_of_imported (h : f ∈ s.imported name) :
    ∃ i ∈ s.resolution.imports, ∃ n, f ∈ s.exported i.moduleName n := by
  obtain ⟨i, hi, hf | hf⟩ := mem_imported.mp h
  · obtain ⟨-, -, n, -, -, hf⟩ := mem_broughtByName.mp hf
    exact ⟨i, hi, n.name, hf⟩
  · exact ⟨i, hi, name, (mem_broughtByWildcard.mp hf).2⟩

theorem lookup?_of_mem_candidates {level : Level} (h : f ∈ s.candidates name level) :
    s.symbols.lookup? f.ref = some f := by
  cases level with
  | file => exact (mem_own.mp h).1
  | module => exact (mem_siblings.mp h).1
  | imports =>
    obtain ⟨i, -, n, hf⟩ := exported_of_imported h
    exact (mem_exported.mp hf).1.1

end Membership

/-! ## Levels -/

section Levels

variable (hfiles : ∀ m, (s.graph.filesOf m).Nodup)

include hfiles

theorem nodup_defined (m name : String) : (s.defined m name).Nodup := by
  refine List.Nodup.filterMap (fun key key' f hf hf' => ?_) (hfiles m)
  have hr := (SymbolTable.ref_of_lookup? hf).symm.trans (SymbolTable.ref_of_lookup? hf')
  exact congrArg FunctionRef.file hr

/-- **No level has a function twice**, however many imports bring it. -/
theorem nodup_candidates (name : String) (level : Level) :
    ((s.candidates name level).map (·.ref)).Nodup := by
  have hnodup : (s.candidates name level).Nodup := by
    cases level with
    | file => exact Option.toList_nodup _
    | module => exact (nodup_defined hfiles s.moduleName name).filter _
    | imports => exact nodup_distinct _
  -- in a table a function has one signature
  refine hnodup.map_on fun f hf f' hf' hr => ?_
  have hlookup := lookup?_of_mem_candidates hf
  rw [hr, lookup?_of_mem_candidates hf'] at hlookup
  exact (Option.some.inj hlookup).symm

end Levels

theorem choose?_eq_none {shown : String} {candidates : List Signature} :
    choose? shown candidates = none ↔ candidates = [] := by
  match candidates with
  | [] => simp [choose?]
  | [_] => simp [choose?]
  | _ :: _ :: _ => simp [choose?]

/-- One candidate is called. -/
theorem choose?_of_unique {candidates : List Signature}
    (hnodup : (candidates.map (·.ref)).Nodup) {f : Signature} (hf : f ∈ candidates)
    (hall : ∀ f' ∈ candidates, f'.ref = f.ref) (shown : String) :
    choose? shown candidates = some (.bound (.function f.ref)) := by
  match candidates with
  | [] => exact absurd hf List.not_mem_nil
  | [f'] =>
    rw [← hall f' (List.mem_singleton_self f')]
    rfl
  | f' :: f'' :: rest =>
    -- two candidates would be one function, which is not there twice
    have hr : f'.ref = f''.ref := (hall f' (by simp)).trans (hall f'' (by simp)).symm
    rw [List.map_cons, List.map_cons, hr] at hnodup
    exact absurd List.mem_cons_self (List.nodup_cons.mp hnodup).1

/-- Several candidates are ambiguous. -/
theorem choose?_of_ne {candidates : List Signature} {f f' : Signature} (hf : f ∈ candidates)
    (hf' : f' ∈ candidates) (hne : f.ref ≠ f'.ref) (shown : String) :
    choose? shown candidates =
      some (.refused (.ambiguousReference shown (candidates.map describe))) := by
  match candidates with
  | [] => exact absurd hf List.not_mem_nil
  | [_] =>
    rw [List.mem_singleton.mp hf, List.mem_singleton.mp hf'] at hne
    exact absurd rfl hne
  | _ :: _ :: _ => rfl

/-- **The first level with candidates decides.** -/
theorem resolveName_of_first {name : String} {level : Level} {outcome : CallOutcome}
    (hbefore : ∀ l : Level, l.rank < level.rank → s.candidates name l = [])
    (h : choose? name (s.candidates name level) = some outcome) : s.resolveName name = outcome := by
  have hlevels : [(s.own? name).toList, s.siblings name, s.imported name] =
      [Level.file, .module, .imports].map (s.candidates name) := rfl
  have hnone : ∀ l : Level, l.rank < level.rank → choose? name (s.candidates name l) = none :=
    fun l hl => choose?_eq_none.mpr (hbefore l hl)
  unfold resolveName
  rw [hlevels]
  cases level with
  | file => simp [h]
  | module => simp [h, hnone .file (by decide)]
  | imports => simp [h, hnone .file (by decide), hnone .module (by decide)]

/-! ## Functions that are called -/

theorem of_choose? {shown : String} {candidates : List Signature} {g : FunctionRef}
    (h : choose? shown candidates = some (.bound (.function g))) :
    ∃ f ∈ candidates, f.ref = g := by
  match candidates with
  | [] => cases h
  | [f] =>
    cases h
    exact ⟨f, List.mem_singleton_self f, rfl⟩
  | _ :: _ :: _ => cases h

theorem operationOr_ne {shown : String} {otherwise : Finding} {g : FunctionRef} :
    s.operationOr shown otherwise ≠ .bound (.function g) := by
  unfold operationOr
  split <;> intro h <;> cases h

/-- A function that is called by its name is a candidate at some level. -/
theorem candidate_of_resolveName {name : String} {g : FunctionRef}
    (h : s.resolveName name = .bound (.function g)) :
    ∃ level, ∃ f ∈ s.candidates name level, f.ref = g := by
  unfold resolveName at h
  dsimp only at h
  split at h
  · rename_i outcome ho
    subst h
    obtain ⟨level, hlevel, hc⟩ := List.exists_of_findSome?_eq_some ho
    have hf := of_choose? hc
    -- the search has stopped at one of the three levels
    simp only [List.mem_cons, List.not_mem_nil, or_false] at hlevel
    rcases hlevel with rfl | rfl | rfl
    · exact ⟨.file, hf⟩
    · exact ⟨.module, hf⟩
    · exact ⟨.imports, hf⟩
  · split at h
    · cases h
    · exact absurd h operationOr_ne

theorem exported_of_resolveExported {m name shown : String} {g : FunctionRef}
    (h : s.resolveExported m name shown = .bound (.function g)) :
    ∃ f ∈ s.exported m name, f.ref = g := by
  unfold resolveExported at h
  split at h
  · rename_i outcome ho
    subst h
    exact of_choose? ho
  · split at h
    · exact absurd h operationOr_ne
    · cases h

/-- A function that is called behind a qualifier is a candidate of the file or of its module, if the
qualifier is the name of this module; else the qualifier stands for a module that exports it. -/
theorem candidate_of_resolveQualified {qualifier name : String}
    {g : FunctionRef} (h : s.resolveQualified qualifier name = .bound (.function g)) :
    (qualifier = s.moduleName ∧
      ∃ level, level ≠ Level.imports ∧ ∃ f ∈ s.candidates name level, f.ref = g) ∨
    ∃ m, s.qualified? qualifier = some m ∧ ∃ f ∈ s.exported m name, f.ref = g := by
  unfold resolveQualified at h
  dsimp only at h
  split at h
  · rename_i hown
    refine .inl ⟨hown, ?_⟩
    split at h
    · rename_i outcome ho
      subst h
      obtain ⟨f, hf, hr⟩ := of_choose? ho
      split at hf
      · rename_i own hown
        obtain rfl := List.mem_singleton.mp hf
        exact ⟨.file, by decide, f, Option.mem_toList.mpr hown, hr⟩
      · -- the file itself has no function of the name, so this one is in another file
        rename_i hnone
        obtain ⟨hlookup, hfile, hname⟩ := mem_defined.mp hf
        have hne : f.ref.file ≠ s.file := by
          intro hkey
          have hmem : f ∈ (s.own? name).toList :=
            mem_own.mpr ⟨hlookup, by rw [← hkey, ← hname]⟩
          rw [hnone] at hmem
          exact List.not_mem_nil hmem
        exact ⟨.module, by decide, f, mem_siblings.mpr ⟨hlookup, hfile, hne, hname⟩, hr⟩
    · exact absurd h operationOr_ne
  · split at h
    · rename_i m hm
      exact .inr ⟨m, hm, exported_of_resolveExported h⟩
    · split at h
      · cases h
      · exact absurd h operationOr_ne

/-! ## Calls that find functions -/

theorem findsFunction_of_choose? {shown : String} {candidates : List Signature}
    {outcome : CallOutcome} (h : choose? shown candidates = some outcome) :
    outcome.FindsFunction := by
  match candidates with
  | [] => cases h
  | [f] =>
    cases h
    exact .bound f.ref
  | _ :: _ :: _ =>
    cases h
    exact .ambiguous shown _

/-- A name with a candidate at any level finds a function. -/
theorem findsFunction_resolveName {name : String} {level : Level}
    (h : s.candidates name level ≠ []) : (s.resolveName name).FindsFunction := by
  unfold resolveName
  dsimp only
  split
  · rename_i outcome ho
    obtain ⟨_, -, hc⟩ := List.exists_of_findSome?_eq_some ho
    exact findsFunction_of_choose? hc
  · -- otherwise no level would have a candidate
    rename_i hnone
    have hlevel : s.candidates name level ∈
        [(s.own? name).toList, s.siblings name, s.imported name] := by
      cases level <;> simp [candidates]
    exact absurd (choose?_eq_none.mp (List.findSome?_eq_none_iff.mp hnone _ hlevel)) h

theorem findsFunction_resolveExported {m name : String} (h : s.exported m name ≠ [])
    (shown : String) : (s.resolveExported m name shown).FindsFunction := by
  unfold resolveExported
  split
  · exact findsFunction_of_choose? ‹_›
  · exact absurd (choose?_eq_none.mp ‹_›) h

/-- A name behind a qualifier finds a function if the module of the qualifier exports one. -/
theorem findsFunction_resolveQualified {qualifier m name : String}
    (hm : s.moduleFor? qualifier = some m) (h : s.exported m name ≠ []) :
    (s.resolveQualified qualifier name).FindsFunction := by
  unfold moduleFor? at hm
  unfold resolveQualified
  dsimp only
  split at hm
  · rename_i hown
    cases hm
    rw [if_pos hown]
    split
    · exact findsFunction_of_choose? ‹_›
    · -- what the own module exports is also defined there
      rename_i hnone
      have hempty := choose?_eq_none.mp hnone
      split at hempty
      · cases hempty
      · unfold exported at h
        rw [hempty] at h
        exact absurd rfl h
  · rename_i hother
    rw [if_neg hother, hm]
    exact findsFunction_resolveExported h _

end Scope

end EffectAudit
