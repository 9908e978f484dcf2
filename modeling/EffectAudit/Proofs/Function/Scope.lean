import EffectAudit.Proofs.Function.Candidates

/-!
# What calls in a file depend on

A call in a file is decided by the functions of the file itself, of its module and of the modules
that it imports, and by nothing else. Two scopes that agree on these give the same meaning to every
call. Imports that have failed only count for calls that no function answers.

## Main definitions

* `FailedImport.HidesCall`: calls that may have gone through a failed import
* `Scope.Sees`: the modules that are visible in a file
* `Scope.SameFunctions`: scopes with the same functions in visible modules
* `Scope.SeesAlike`: scopes with the same visible functions
* `Scope.Agrees`: such scopes in which the same imports have failed

## Main results

* `Scope.Agrees.resolve_eq`: calls mean the same in scopes that agree
* `Scope.SeesAlike.resolve_function_iff`: functions are called alike where they are seen alike
* `Scope.visible_of_resolve`: functions that are called are in the table, and in visible files
* `Scope.hidesCall_of_skipped`: calls that are passed over go through failed imports
-/

namespace EffectAudit

/-- A call may have gone through a failed import: its name may have come from there, or the import
would have brought its qualifier. -/
def FailedImport.HidesCall (f : FailedImport) (path : CallPath) : Prop :=
  match path.qualifier with
  | none => f.hides path.name = true
  | some qualifier => qualifier ∈ f.qualifiers

namespace Scope

/-- A module is visible in a file: it is the module of the file, or imported. -/
def Sees (s : Scope) (m : String) : Prop :=
  m = s.moduleName ∨ ∃ i ∈ s.resolution.imports, i.moduleName = m

/-- Two scopes of one file, with the same functions in the file and in the modules that are
visible. -/
structure SameFunctions (s t : Scope) : Prop where
  registry : s.registry = t.registry
  file : s.file = t.file
  moduleName : s.moduleName = t.moduleName
  own : ∀ name, s.own? name = t.own? name
  defined : ∀ m name, s.Sees m → s.defined m name = t.defined m name

/-- Two scopes of one file, in which the same functions are visible. -/
structure SeesAlike (s t : Scope) : Prop where
  registry : s.registry = t.registry
  file : s.file = t.file
  moduleName : s.moduleName = t.moduleName
  imports : s.resolution.imports = t.resolution.imports
  own : ∀ name, s.own? name = t.own? name
  defined : ∀ m name, s.Sees m → s.defined m name = t.defined m name

/-- Two scopes of one file, in which the same functions are visible and the same imports have
failed. -/
structure Agrees (s t : Scope) : Prop where
  registry : s.registry = t.registry
  file : s.file = t.file
  moduleName : s.moduleName = t.moduleName
  resolution : s.resolution = t.resolution
  own : ∀ name, s.own? name = t.own? name
  defined : ∀ m name, s.Sees m → s.defined m name = t.defined m name

/-! ## Scopes that agree -/

theorem Agrees.seesAlike {s t : Scope} (h : s.Agrees t) : s.SeesAlike t :=
  ⟨h.registry, h.file, h.moduleName, congrArg (·.imports) h.resolution, h.own, h.defined⟩

theorem SeesAlike.agrees {s t : Scope} (h : s.SeesAlike t) (hr : s.resolution = t.resolution) :
    s.Agrees t :=
  ⟨h.registry, h.file, h.moduleName, hr, h.own, h.defined⟩

theorem sees_of_qualified {s : Scope} {qualifier m : String}
    (h : s.qualified? qualifier = some m) : s.Sees m := by
  obtain ⟨i, hi, hm, -⟩ := of_qualified? h
  exact .inr ⟨i, hi, hm⟩

namespace SameFunctions

variable {s t : Scope} (h : s.SameFunctions t)

include h

theorem exported_eq {m : String} (hm : s.Sees m) (name : String) :
    s.exported m name = t.exported m name := by
  unfold exported
  rw [h.defined m name hm]

theorem siblings_eq (name : String) : s.siblings name = t.siblings name := by
  unfold siblings
  rw [h.defined s.moduleName name (.inl rfl), h.moduleName, h.file]

theorem broughtByName_eq {i : ResolvedImport} (hi : i ∈ s.resolution.imports) (name : String) :
    s.broughtByName i name = t.broughtByName i name := by
  unfold broughtByName
  simp only [h.exported_eq (.inr ⟨i, hi, rfl⟩)]

theorem broughtByWildcard_eq {i : ResolvedImport} (hi : i ∈ s.resolution.imports)
    (name : String) : s.broughtByWildcard i name = t.broughtByWildcard i name := by
  unfold broughtByWildcard
  simp only [h.exported_eq (.inr ⟨i, hi, rfl⟩)]

/-- The imports of the one scope bring the same functions in the other. -/
theorem imported_eq (name : String) : s.imported name =
    distinct ((s.resolution.imports.flatMap fun i => t.broughtByName i name) ++
      s.resolution.imports.flatMap fun i => t.broughtByWildcard i name) := by
  have hnames : (s.resolution.imports.flatMap fun i => s.broughtByName i name) =
      s.resolution.imports.flatMap fun i => t.broughtByName i name :=
    congrArg List.flatten (List.map_congr_left fun i hi => h.broughtByName_eq hi name)
  have hwild : (s.resolution.imports.flatMap fun i => s.broughtByWildcard i name) =
      s.resolution.imports.flatMap fun i => t.broughtByWildcard i name :=
    congrArg List.flatten (List.map_congr_left fun i hi => h.broughtByWildcard_eq hi name)
  unfold imported
  dsimp only
  rw [hnames, hwild]

theorem operationOr_eq (shown : String) (otherwise : Finding) :
    s.operationOr shown otherwise = t.operationOr shown otherwise := by
  unfold operationOr
  rw [h.registry]

theorem resolveExported_eq {m : String} (hm : s.Sees m) (name shown : String) :
    s.resolveExported m name shown = t.resolveExported m name shown := by
  unfold resolveExported
  rw [h.exported_eq hm, h.defined m name hm, h.operationOr_eq]

end SameFunctions

namespace SeesAlike

variable {s t : Scope} (h : s.SeesAlike t)

include h

theorem sameFunctions : s.SameFunctions t :=
  ⟨h.registry, h.file, h.moduleName, h.own, h.defined⟩

theorem sees_iff {m : String} : s.Sees m ↔ t.Sees m := by
  unfold Sees
  rw [h.moduleName, h.imports]

theorem symm : t.SeesAlike s where
  registry := h.registry.symm
  file := h.file.symm
  moduleName := h.moduleName.symm
  imports := h.imports.symm
  own name := (h.own name).symm
  defined m name hm := (h.defined m name (h.sees_iff.mpr hm)).symm

theorem imported_eq (name : String) : s.imported name = t.imported name := by
  rw [h.sameFunctions.imported_eq, h.imports]
  rfl

theorem qualified_eq (qualifier : String) : s.qualified? qualifier = t.qualified? qualifier := by
  unfold qualified?
  rw [h.imports]

end SeesAlike

namespace Agrees

variable {s t : Scope} (h : s.Agrees t)

include h

theorem resolveName_eq (name : String) : s.resolveName name = t.resolveName name := by
  have halike := h.seesAlike
  have hsame := halike.sameFunctions
  unfold resolveName
  rw [h.own, hsame.siblings_eq, halike.imported_eq, h.resolution, hsame.operationOr_eq]

theorem resolveQualified_eq (qualifier name : String) :
    s.resolveQualified qualifier name = t.resolveQualified qualifier name := by
  have halike := h.seesAlike
  have hsame := halike.sameFunctions
  unfold resolveQualified
  dsimp only
  rw [h.own, h.defined s.moduleName name (.inl rfl), h.moduleName, halike.qualified_eq,
    h.resolution, hsame.operationOr_eq, hsame.operationOr_eq]
  split
  · rfl
  · cases hq : t.qualified? qualifier with
    | none => rfl
    | some m =>
      have hm : s.Sees m := sees_of_qualified ((halike.qualified_eq qualifier).trans hq)
      exact hsame.resolveExported_eq hm name _

/-- **Calls mean the same in scopes that agree.** -/
theorem resolve_eq (path : CallPath) : s.resolve path = t.resolve path := by
  unfold resolve
  cases path.qualifier with
  | none => exact h.resolveName_eq path.name
  | some qualifier => exact h.resolveQualified_eq qualifier path.name

end Agrees

/-! ## Functions that are called -/

/-- A function is visible in a file: it is in the table, and its file is the file itself or belongs
to a visible module. -/
def Visible (s : Scope) (f : FunctionRef) : Prop :=
  (∃ sig, s.symbols.lookup? f = some sig) ∧
    (f.file = s.file ∨ ∃ m, s.Sees m ∧ f.file ∈ s.graph.filesOf m)

section Visible

variable {s : Scope}

theorem visible_of_exported {m name : String} (hm : s.Sees m) {f : Signature}
    (h : f ∈ s.exported m name) : s.Visible f.ref := by
  obtain ⟨⟨hf, -⟩, hfile, -⟩ := mem_exported.mp h
  exact ⟨⟨f, hf⟩, .inr ⟨m, hm, hfile⟩⟩

theorem visible_of_candidate {name : String} {level : Level} {f : Signature}
    (h : f ∈ s.candidates name level) : s.Visible f.ref := by
  cases level with
  | file =>
    obtain ⟨hf, hr⟩ := mem_own.mp h
    exact ⟨⟨f, hf⟩, .inl (congrArg FunctionRef.file hr)⟩
  | module =>
    obtain ⟨hf, hfile, -⟩ := mem_siblings.mp h
    exact ⟨⟨f, hf⟩, .inr ⟨s.moduleName, .inl rfl, hfile⟩⟩
  | imports =>
    obtain ⟨i, hi, n, hf⟩ := exported_of_imported h
    exact visible_of_exported (.inr ⟨i, hi, rfl⟩) hf

theorem visible_of_resolveQualified {qualifier name : String} {g : FunctionRef}
    (h : s.resolveQualified qualifier name = .bound (.function g)) : s.Visible g := by
  rcases candidate_of_resolveQualified h with ⟨-, level, -, f, hf, rfl⟩ | ⟨m, hm, f, hf, rfl⟩
  · exact visible_of_candidate hf
  · exact visible_of_exported (sees_of_qualified hm) hf

/-- **Functions that are called are visible.** -/
theorem visible_of_resolve {path : CallPath} {g : FunctionRef}
    (h : s.resolve path = .bound (.function g)) : s.Visible g := by
  unfold resolve at h
  split at h
  · obtain ⟨level, f, hf, rfl⟩ := candidate_of_resolveName h
    exact visible_of_candidate hf
  · exact visible_of_resolveQualified h

end Visible

/-! ## Calls of functions -/

namespace SeesAlike

variable {s t : Scope} (h : s.SeesAlike t)

include h

theorem function_of_resolveName {name : String} {g : FunctionRef}
    (hs : s.resolveName name = .bound (.function g)) :
    t.resolveName name = .bound (.function g) := by
  unfold resolveName at hs ⊢
  rw [h.own, h.sameFunctions.siblings_eq, h.imported_eq] at hs
  dsimp only at hs ⊢
  split at hs
  · exact hs
  · -- without a candidate the call is passed over, or it is no call of a function
    split at hs
    · cases hs
    · exact absurd hs operationOr_ne

theorem function_of_resolveQualified {qualifier name : String} {g : FunctionRef}
    (hs : s.resolveQualified qualifier name = .bound (.function g)) :
    t.resolveQualified qualifier name = .bound (.function g) := by
  have hsame := h.sameFunctions
  unfold resolveQualified at hs ⊢
  dsimp only at hs ⊢
  rw [h.own, h.defined s.moduleName name (.inl rfl), h.moduleName, h.qualified_eq,
    hsame.operationOr_eq, hsame.operationOr_eq] at hs
  split at hs
  · rename_i hown
    rw [if_pos hown]
    exact hs
  · rename_i hother
    rw [if_neg hother]
    cases hq : t.qualified? qualifier with
    | some m =>
      have hm : s.Sees m := sees_of_qualified ((h.qualified_eq qualifier).trans hq)
      rw [hq] at hs
      exact (hsame.resolveExported_eq hm name _).symm.trans hs
    | none =>
      rw [hq] at hs
      dsimp only at hs
      split at hs
      · cases hs
      · exact absurd hs operationOr_ne

/-- **Functions are called alike where they are seen alike**, whatever imports have failed. -/
theorem resolve_function_iff {path : CallPath} {g : FunctionRef} :
    s.resolve path = .bound (.function g) ↔ t.resolve path = .bound (.function g) := by
  unfold resolve
  cases path.qualifier with
  | none => exact ⟨h.function_of_resolveName, h.symm.function_of_resolveName⟩
  | some qualifier => exact ⟨h.function_of_resolveQualified, h.symm.function_of_resolveQualified⟩

end SeesAlike

/-! ## Calls that are passed over -/

section Skipped

variable {s : Scope}

theorem choose?_ne_skipped {shown : String} {candidates : List Signature} :
    choose? shown candidates ≠ some .skipped := by
  unfold choose?
  split <;> simp

theorem operationOr_ne_skipped {shown : String} {otherwise : Finding} :
    s.operationOr shown otherwise ≠ .skipped := by
  unfold operationOr
  split <;> simp

theorem resolveExported_ne_skipped {m name shown : String} :
    s.resolveExported m name shown ≠ .skipped := by
  intro h
  unfold resolveExported at h
  split at h
  · rename_i outcome ho
    subst h
    exact choose?_ne_skipped ho
  · split at h
    · exact operationOr_ne_skipped h
    · cases h

theorem any_hides_of_skipped {name : String} (h : s.resolveName name = .skipped) :
    s.resolution.failed.any (·.hides name) = true := by
  unfold resolveName at h
  dsimp only at h
  split at h
  · rename_i outcome ho
    subst h
    obtain ⟨level, -, hc⟩ := List.exists_of_findSome?_eq_some ho
    exact absurd hc choose?_ne_skipped
  · split at h
    · assumption
    · exact absurd h operationOr_ne_skipped

theorem any_qualifiers_of_skipped {qualifier name : String}
    (h : s.resolveQualified qualifier name = .skipped) :
    s.resolution.failed.any (·.qualifiers.contains qualifier) = true := by
  unfold resolveQualified at h
  dsimp only at h
  split at h
  · split at h
    · rename_i outcome ho
      subst h
      exact absurd ho choose?_ne_skipped
    · exact absurd h operationOr_ne_skipped
  · split at h
    · exact absurd h resolveExported_ne_skipped
    · split at h
      · assumption
      · exact absurd h operationOr_ne_skipped

/-- **Only calls through failed imports are passed over.** -/
theorem hidesCall_of_skipped {path : CallPath} (h : s.resolve path = .skipped) :
    ∃ failed ∈ s.resolution.failed, failed.HidesCall path := by
  unfold resolve at h
  unfold FailedImport.HidesCall
  cases hq : path.qualifier with
  | none =>
    rw [hq] at h
    exact List.any_eq_true.mp (any_hides_of_skipped h)
  | some qualifier =>
    rw [hq] at h
    obtain ⟨failed, hfailed, hc⟩ := List.any_eq_true.mp (any_qualifiers_of_skipped h)
    exact ⟨failed, hfailed, List.contains_iff_mem.mp hc⟩

theorem resolve_ne_skipped (hs : s.resolution.failed = []) (path : CallPath) :
    s.resolve path ≠ .skipped := by
  intro h
  obtain ⟨failed, hfailed, -⟩ := hidesCall_of_skipped h
  rw [hs] at hfailed
  exact List.not_mem_nil hfailed

end Skipped

end Scope

end EffectAudit
