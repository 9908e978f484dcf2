import EffectAudit.Modules.Graph

/-!
# Owners of exported names

The files of a module are scanned in path order for names that several of them export. A name
belongs to the first file that exports and defines it, and every later export of the name is
compared with this owner alone. An export of a name by its own owner is a later export, too.

## Main definitions

* `SourceUnit.offers`: a file exports a name that it defines
* `ModuleGraph.Ownership.Refuses`: an export is reported
* `ModuleGraph.reportsBehind`: the reports of a file behind some other files of its module

## Main results

* `ModuleGraph.Ownership.owner?_claim`, `ModuleGraph.Ownership.mem_conflicts_claim`: what one export
  does to a scan
* `ModuleGraph.owner?_ownersAfter`: the owner of a name is the first file that offers it
* `ModuleGraph.mem_reportsBehind_iff`: the exports of a file that are reported
* `ModuleGraph.mem_conflictsIn_iff`: the files of a module that have reports
-/

namespace EffectAudit

/-- Whether a file exports a name that it defines itself. -/
def SourceUnit.offers (u : SourceUnit) (name : String) : Bool :=
  u.exportsName name && u.defines name

theorem SourceUnit.offers_iff {u : SourceUnit} {name : String} :
    u.offers name = true ↔ name ∈ u.exports.map (·.node) ∧ u.defines name = true := by
  unfold offers exportsName
  rw [Bool.and_eq_true, List.any_eq_true, List.mem_map]
  simp only [beq_iff_eq]

namespace ModuleGraph

/-! ## One file -/

namespace Ownership

variable {policy : Policy} {m : String} {u : SourceUnit}

/-- The file that owns a name. -/
def owner? (o : Ownership) (name : String) : Option Path := (o.owners.find? (·.1 == name)).map (·.2)

/-- An export is refused: the name has an owner, and the owner and the file are not both fragments
of the module. -/
def Refuses (policy : Policy) (m : String) (u : SourceUnit) (o : Ownership) (e : Spanned String)
    (d : Diagnostic) : Prop :=
  u.defines e.node = true ∧ ∃ owner, o.owner? e.node = some owner ∧
    policy.areFragments m owner.key u.path.key = false ∧
    d = (Finding.duplicateModule m e.node owner).report u.path e.span

theorem owner?_claim (o : Ownership) (e : Spanned String) (name : String) :
    (claim policy m u o e).owner? name =
      (o.owner? name).or (if u.defines name = true ∧ name = e.node then some u.path else none) := by
  unfold claim
  cases hdef : u.defines e.node with
  | false =>
    have hnot : ¬ (u.defines name = true ∧ name = e.node) := by
      rintro ⟨hname, rfl⟩
      simp [hdef] at hname
    simp [hnot]
  | true =>
    simp only [Bool.not_true, Bool.false_eq_true, if_false]
    split
    · -- the name gets an owner
      rename_i hnone
      unfold owner?
      rw [List.find?_append]
      by_cases hname : name = e.node
      · subst hname
        simp [hnone, hdef]
      · have hne : (e.node == name) = false := by simpa using Ne.symm hname
        simp [hname, hne]
    · -- the name keeps its owner
      rename_i other owner hsome
      have hkeep : (o.owner? name).or
          (if u.defines name = true ∧ name = e.node then some u.path else none) =
            o.owner? name := by
        by_cases hname : name = e.node
        · subst hname
          simp [owner?, hsome]
        · simp [hname]
      rw [hkeep]
      split
      · rfl
      · rfl

theorem mem_conflicts_claim {o : Ownership} {e : Spanned String} {d : Diagnostic} :
    d ∈ (claim policy m u o e).conflicts ↔ d ∈ o.conflicts ∨ o.Refuses policy m u e d := by
  unfold claim Refuses owner?
  cases hdef : u.defines e.node with
  | false => simp
  | true =>
    simp only [Bool.not_true, Bool.false_eq_true, if_false]
    cases hfind : o.owners.find? (·.1 == e.node) with
    | none => simp
    | some entry =>
      cases hfrag : policy.areFragments m entry.2.key u.path.key with
      | true => simp [hfrag]
      | false => simp [hfrag]

/-- The export list of a file gives the file every name that it offers and that has no owner yet. -/
theorem owner?_foldl_claim (exports : List (Spanned String)) (o : Ownership) (name : String) :
    (exports.foldl (claim policy m u) o).owner? name = (o.owner? name).or
      (if u.defines name = true ∧ name ∈ exports.map (·.node) then some u.path else none) := by
  induction exports generalizing o with
  | nil => simp
  | cons e rest ih =>
    rw [List.foldl_cons, ih, owner?_claim, Option.or_assoc]
    congr 1
    by_cases hname : name = e.node
    · subst hname
      cases hdef : u.defines e.node <;> simp
    · simp [hname]

/-- A report of a file is about one of its exports, which is refused after those before it. -/
theorem mem_conflicts_foldl {exports : List (Spanned String)} {o : Ownership} {d : Diagnostic} :
    d ∈ (exports.foldl (claim policy m u) o).conflicts ↔ d ∈ o.conflicts ∨
      ∃ front e back, exports = front ++ e :: back ∧
        (front.foldl (claim policy m u) o).Refuses policy m u e d := by
  induction exports generalizing o with
  | nil => simp
  | cons e rest ih =>
    rw [List.foldl_cons, ih, mem_conflicts_claim, or_assoc]
    refine or_congr_right ⟨?_, ?_⟩
    · rintro (hrefuses | ⟨front, e', back, rfl, hrefuses⟩)
      · exact ⟨[], e, rest, rfl, hrefuses⟩
      · exact ⟨e :: front, e', back, rfl, hrefuses⟩
    · rintro ⟨front, e', back, hsplit, hrefuses⟩
      cases front with
      | nil =>
        obtain ⟨rfl, rfl⟩ := List.cons.inj hsplit
        exact .inl hrefuses
      | cons x front =>
        obtain ⟨rfl, rfl⟩ := List.cons.inj hsplit
        exact .inr ⟨front, e', back, rfl, hrefuses⟩

end Ownership

/-! ## The files of a module -/

section Scan

variable {policy : Policy} {m : String}

/-- The owners of names after some files of a module. -/
def ownersAfter (policy : Policy) (m : String) (before : List (FileKey × SourceUnit)) :
    List (String × Path) :=
  before.foldl
    (fun owners x => (x.2.exports.foldl (Ownership.claim policy m x.2) { owners }).owners)
    []

/-- The reports of a file behind some other files of its module. -/
def reportsBehind (policy : Policy) (m : String) (before : List (FileKey × SourceUnit))
    (u : SourceUnit) : List Diagnostic :=
  (u.exports.foldl (Ownership.claim policy m u) { owners := ownersAfter policy m before }).conflicts

/-- The owner of a name is the first file that offers it. -/
theorem owner?_ownersAfter (before : List (FileKey × SourceUnit)) (name : String) :
    Ownership.owner? { owners := ownersAfter policy m before } name =
      (before.find? (·.2.offers name)).map (·.2.path) := by
  have hfold : ∀ owners : List (String × Path),
      Ownership.owner? { owners := before.foldl (fun owners x =>
        (x.2.exports.foldl (Ownership.claim policy m x.2) { owners }).owners) owners } name =
      (Ownership.owner? { owners } name).or ((before.find? (·.2.offers name)).map (·.2.path)) := by
    induction before with
    | nil => simp
    | cons x rest ih =>
      intro owners
      rw [List.foldl_cons, ih]
      -- one file gives itself the names that it offers and that had no owner
      have howner : Ownership.owner? { owners := (x.2.exports.foldl
          (Ownership.claim policy m x.2) { owners }).owners } name =
            (x.2.exports.foldl (Ownership.claim policy m x.2) { owners }).owner? name := rfl
      rw [howner, Ownership.owner?_foldl_claim, Option.or_assoc]
      congr 1
      cases hoffers : x.2.offers name with
      | true =>
        have hboth := SourceUnit.offers_iff.mp hoffers
        rw [if_pos ⟨hboth.2, hboth.1⟩, List.find?_cons, hoffers]
        rfl
      | false =>
        have hnot : ¬ (x.2.defines name = true ∧ name ∈ x.2.exports.map (·.node)) := by
          intro hboth
          rw [SourceUnit.offers_iff.mpr hboth.symm] at hoffers
          cases hoffers
        rw [if_neg hnot, List.find?_cons, hoffers]
        rfl
  exact hfold []

/-- An export is reported if the name is offered by an earlier file or stands on the same list
before, unless the owner and the file are both fragments of the module. -/
theorem mem_reportsBehind_iff {before : List (FileKey × SourceUnit)} {u : SourceUnit}
    {d : Diagnostic} :
    d ∈ reportsBehind policy m before u ↔ ∃ front e back, u.exports = front ++ e :: back ∧
      u.defines e.node = true ∧ ∃ owner, ((before.find? (·.2.offers e.node)).map (·.2.path)).or
          (if e.node ∈ front.map (·.node) then some u.path else none) = some owner ∧
        policy.areFragments m owner.key u.path.key = false ∧
        d = (Finding.duplicateModule m e.node owner).report u.path e.span := by
  unfold reportsBehind
  rw [Ownership.mem_conflicts_foldl]
  simp only [List.not_mem_nil, false_or, Ownership.Refuses, Ownership.owner?_foldl_claim,
    owner?_ownersAfter]
  refine exists_congr fun front => exists_congr fun e => exists_congr fun back =>
    and_congr_right fun _ => and_congr_right fun hdef => ?_
  simp only [hdef, true_and]

/-- A file has conflicts if it has reports behind the files before it that are not halted. -/
theorem mem_conflictsIn_iff {halted : List FileKey} {units : List (FileKey × SourceUnit)}
    {e : FileKey × List Diagnostic} :
    e ∈ conflictsIn policy m halted units ↔ ∃ before u after,
      units.filter (·.1 ∉ halted) = before ++ (e.1, u) :: after ∧
        e.2 = reportsBehind policy m before u ∧ e.2 ≠ [] := by
  have hfold : ∀ (live before : List (FileKey × SourceUnit))
      (out : List (FileKey × List Diagnostic)),
      e ∈ (live.foldl (fun acc x =>
        let o := x.2.exports.foldl (Ownership.claim policy m x.2) { owners := acc.1 }
        (o.owners, if o.conflicts.isEmpty then acc.2 else acc.2 ++ [(x.1, o.conflicts)]))
        (ownersAfter policy m before, out)).2 ↔
      e ∈ out ∨ ∃ between u after, live = between ++ (e.1, u) :: after ∧
        e.2 = reportsBehind policy m (before ++ between) u ∧ e.2 ≠ [] := by
    intro live
    induction live with
    | nil => simp
    | cons x rest ih =>
      intro before out
      have howners : (x.2.exports.foldl (Ownership.claim policy m x.2)
          { owners := ownersAfter policy m before }).owners =
            ownersAfter policy m (before ++ [x]) := by
        unfold ownersAfter
        rw [List.foldl_append]
        rfl
      rw [List.foldl_cons]
      dsimp only
      rw [howners, ih]
      have hout : e ∈ (if (reportsBehind policy m before x.2).isEmpty then out
          else out ++ [(x.1, reportsBehind policy m before x.2)]) ↔
          e ∈ out ∨ e.1 = x.1 ∧ e.2 = reportsBehind policy m before x.2 ∧ e.2 ≠ [] := by
        cases hreports : reportsBehind policy m before x.2 with
        | nil => simp
        | cons d ds =>
          have hne : e.2 = d :: ds → e.2 ≠ [] := fun he => he ▸ List.cons_ne_nil d ds
          simpa [Prod.ext_iff] using or_congr_right (and_congr_right fun _ =>
            (and_iff_left_of_imp hne).symm)
      refine (or_congr_left hout).trans ?_
      rw [or_assoc]
      refine or_congr_right ⟨?_, ?_⟩
      · rintro (⟨hkey, hreports⟩ | ⟨between, u, after, rfl, hreports⟩)
        · exact ⟨[], x.2, rest, by rw [hkey]; rfl, by simpa using hreports⟩
        · exact ⟨x :: between, u, after, rfl, by simpa using hreports⟩
      · rintro ⟨between, u, after, hsplit, hreports⟩
        cases between with
        | nil =>
          obtain ⟨rfl, rfl⟩ := List.cons.inj hsplit
          exact .inl ⟨rfl, by simpa using hreports⟩
        | cons y between =>
          obtain ⟨rfl, rfl⟩ := List.cons.inj hsplit
          exact .inr ⟨between, u, after, rfl, by simpa using hreports⟩
  have hlive := hfold (units.filter (·.1 ∉ halted)) [] []
  simp only [List.not_mem_nil, false_or, List.nil_append] at hlive
  exact hlive

end Scan

end ModuleGraph

end EffectAudit
