import EffectAudit.Proofs.Function.Scope

/-!
# Scopes with permuted imports

The imports of a file add up to the candidates of a name. Their order shows in the order of the
candidates and nowhere else: an unqualified call comes to the same, and so does a qualified call
whose qualifier has one meaning. Of imports that bring one qualifier for different modules the last
one counts.

## Main definitions

* `CallOutcome.Alike`: calls that come to the same
* `Scope.MeansOneModule`: qualifiers that the imports of a file bring for one module
* `Scope.PermutesImports`: scopes of one file with imports in different orders

## Main results

* `Scope.qualified?_of_last`: the last import that brings a qualifier says what it stands for
* `Scope.PermutesImports.resolveName_alike`: unqualified calls come to the same
* `Scope.PermutesImports.resolveQualified_eq`: so do qualified ones whose qualifier has one meaning
-/

namespace EffectAudit

/-- Two calls come to the same: both are bound to one callee, both are passed over, or both are
reported under one rule. -/
inductive CallOutcome.Alike : CallOutcome → CallOutcome → Prop
  | bound (callee : Callee) : Alike (.bound callee) (.bound callee)
  | skipped : Alike .skipped .skipped
  | refused {a b : Finding} (hrule : a.rule = b.rule) : Alike (.refused a) (.refused b)

theorem CallOutcome.Alike.refl (o : CallOutcome) : o.Alike o := by
  cases o with
  | bound callee => exact .bound callee
  | skipped => exact .skipped
  | refused finding => exact .refused rfl

namespace Scope

/-- All imports of the file that bring a qualifier bring it for the same module. -/
def MeansOneModule (s : Scope) (qualifier : String) : Prop :=
  ∀ i ∈ s.resolution.imports, ∀ j ∈ s.resolution.imports, i.Brings qualifier → j.Brings qualifier →
    i.moduleName = j.moduleName

/-- Two scopes of one file, with the same functions in visible modules and with imports in different
orders. -/
structure PermutesImports (s t : Scope) : Prop extends SameFunctions s t where
  imports : s.resolution.imports.Perm t.resolution.imports
  failed : s.resolution.failed.Perm t.resolution.failed

/-! ## Qualifiers -/

section Qualifiers

variable {s : Scope} {qualifier m : String}

/-- A qualifier with one meaning stands for the module of any import that brings it. -/
theorem qualified?_eq_some_iff (hone : s.MeansOneModule qualifier) :
    s.qualified? qualifier = some m ↔
      ∃ i ∈ s.resolution.imports, i.moduleName = m ∧ i.Brings qualifier := by
  refine ⟨of_qualified?, ?_⟩
  rintro ⟨i, hi, rfl, hbrings⟩
  cases hq : s.qualified? qualifier with
  | some m' =>
    obtain ⟨j, hj, rfl, hbrings'⟩ := of_qualified? hq
    rw [hone j hj i hi hbrings' hbrings]
  | none =>
    have hnone := List.find?_eq_none.mp (Option.map_eq_none_iff.mp hq) i (List.mem_reverse.mpr hi)
    exact absurd hbrings (by simpa [ResolvedImport.Brings] using hnone)

/-- **The last import that brings a qualifier** says what it stands for. -/
theorem qualified?_of_last {before after : List ResolvedImport} {i : ResolvedImport}
    (hsplit : s.resolution.imports = before ++ i :: after) (hi : i.Brings qualifier)
    (hlast : ∀ j ∈ after, ¬ j.Brings qualifier) : s.qualified? qualifier = some i.moduleName := by
  unfold qualified?
  rw [hsplit, List.reverse_append, List.reverse_cons, List.append_assoc, List.find?_append]
  have hnone : (after.reverse.find? fun j =>
      j.moduleName == qualifier || j.qualifier == some qualifier) = none := by
    refine List.find?_eq_none.mpr fun j hj => ?_
    simpa [ResolvedImport.Brings] using hlast j (List.mem_reverse.mp hj)
  rw [hnone, Option.none_or, List.singleton_append, List.find?_cons_of_pos]
  · rfl
  · simpa [ResolvedImport.Brings] using hi

end Qualifiers

/-! ## Candidates in another order -/

/-- Candidates in another order decide alike. -/
theorem rel_choose? {candidates candidates' : List Signature} (h : candidates.Perm candidates')
    (shown : String) :
    Option.Rel CallOutcome.Alike (choose? shown candidates) (choose? shown candidates') := by
  match candidates with
  | [] =>
    obtain rfl := List.nil_perm.mp h
    exact .none
  | [f] =>
    obtain rfl := List.singleton_perm.mp h
    exact .some (CallOutcome.Alike.refl _)
  | f :: f' :: rest =>
    -- a rearrangement of several candidates has several candidates as well
    match candidates' with
    | [] => exact absurd h.length_eq (by simp)
    | [_] => exact absurd h.length_eq (by simp)
    | _ :: _ :: _ => exact .some (CallOutcome.Alike.refused rfl)

namespace PermutesImports

variable {s t : Scope} (h : s.PermutesImports t)

include h

/-- The imports bring the same functions, in another order. -/
theorem perm_imported (name : String) : (s.imported name).Perm (t.imported name) := by
  rw [h.imported_eq]
  exact perm_distinct ((h.imports.flatMap_right _).append (h.imports.flatMap_right _))

theorem qualified?_eq {qualifier : String} (hone : s.MeansOneModule qualifier) :
    s.qualified? qualifier = t.qualified? qualifier := by
  have hone' : t.MeansOneModule qualifier := fun i hi j hj =>
    hone i (h.imports.mem_iff.mpr hi) j (h.imports.mem_iff.mpr hj)
  -- the search itself goes from the last import; with one meaning any import will do
  refine Option.ext fun m => ?_
  rw [qualified?_eq_some_iff hone, qualified?_eq_some_iff hone']
  simp only [h.imports.mem_iff]

/-! ## Calls -/

/-- **Unqualified calls come to the same.** -/
theorem resolveName_alike (name : String) : (s.resolveName name).Alike (t.resolveName name) := by
  have hlevels : Option.Rel CallOutcome.Alike
      ([(s.own? name).toList, s.siblings name, s.imported name].findSome? (choose? name))
      ([(t.own? name).toList, t.siblings name, t.imported name].findSome? (choose? name)) := by
    apply rel_findSome?
    rw [h.own, h.siblings_eq]
    exact .cons (rel_choose? (.refl _) name) (.cons (rel_choose? (.refl _) name)
      (.cons (rel_choose? (h.perm_imported name) name) .nil))
  -- where no level has a candidate, failed imports and operations decide, in whatever order
  unfold resolveName
  dsimp only
  rw [h.failed.any_eq, h.operationOr_eq]
  generalize [(s.own? name).toList, s.siblings name, s.imported name].findSome? (choose? name) = o,
    [(t.own? name).toList, t.siblings name, t.imported name].findSome? (choose? name) =
      o' at hlevels
  cases hlevels with
  | none => exact .refl _
  | some halike => exact halike

/-- **Qualified calls come to the same** if the qualifier is the name of the own module or has one
meaning. -/
theorem resolveQualified_eq {qualifier : String}
    (hq : qualifier = s.moduleName ∨ s.MeansOneModule qualifier) (name : String) :
    s.resolveQualified qualifier name = t.resolveQualified qualifier name := by
  unfold resolveQualified
  dsimp only
  rw [h.own, h.defined s.moduleName name (.inl rfl), h.failed.any_eq, h.operationOr_eq,
    h.operationOr_eq, ← h.moduleName]
  by_cases hown : qualifier = s.moduleName
  · rw [if_pos hown, if_pos hown]
  · have heq := h.qualified?_eq (hq.resolve_left hown)
    rw [if_neg hown, if_neg hown, heq]
    cases hm : t.qualified? qualifier with
    | none => rfl
    | some m => exact h.resolveExported_eq (sees_of_qualified (heq.trans hm)) name _

end PermutesImports

end Scope

end EffectAudit
