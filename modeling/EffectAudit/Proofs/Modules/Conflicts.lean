import EffectAudit.Proofs.Modules.Attribution
import EffectAudit.Proofs.Modules.Ownership

/-!
# Conflicting exports

Files that declare the same module must not export the same name, unless the policy lists them as
fragments of the module. Files on import cycles are not compared. A file in which an export is
refused is halted, and the names that it owns stay its own.

## Main definitions

* `Policy.IsFragment`: a file is listed as a fragment of a module
* `Program.Offers`: a file exports and defines a name in a module
* `Program.Owns`: the file that other exports of a name are compared with
* `Program.Clashes`: a file exports a name that it may not export

## Main results

* `ModuleGraph.mem_duplicateReports_iff`: the exports that are reported
* `ModuleGraph.isHalted_iff_duplicateReport`: the files that are halted
* `ModuleGraph.no_export_conflict_survives`: what is left is free of conflicts
* `ModuleGraph.duplicate_reports_name_owner`: what reports of conflicts say
* `ModuleGraph.file_conflicts_with_itself`: a file that is refused although no other file is like it
-/

namespace EffectAudit

open Relation

/-- A file is listed as a fragment of a module. -/
def Policy.IsFragment (policy : Policy) (m : String) (key : FileKey) : Prop :=
  ∃ files, policy.fragments.get? m = some files ∧ ∃ path ∈ files, path.key = key

theorem Policy.areFragments_iff {policy : Policy} {m : String} {a b : FileKey} :
    policy.areFragments m a b = true ↔ policy.IsFragment m a ∧ policy.IsFragment m b := by
  unfold areFragments IsFragment
  cases policy.fragments.get? m with
  | none => simp
  | some files => simp

namespace Program

/-- A file exports and defines a name in a module that it declares. -/
def Offers (p : Program) (m name : String) (key : FileKey) : Prop :=
  ∃ f, p.get? key = some f ∧ f.unit.declaredModule? = some m ∧ f.unit.offers name = true

/-- Of the files that offer a name in a module and are on no import cycle, the first one in path
order owns the name. -/
structure Owns (p : Program) (m name : String) (key : FileKey) : Prop where
  offers : p.Offers m name key
  acyclic : ¬ TransGen p.Imports key key
  first : ∀ other, p.Offers m name other → ¬ TransGen p.Imports other other →
    compare key other ≠ .gt

/-- A file clashes with the owner of a name: it offers the name too, in a module that other files
declare as well, and the two are not both fragments of the module. -/
structure Clashes (p : Program) (policy : Policy) (m name : String)
    (key owner : FileKey) : Prop where
  offers : p.Offers m name key
  acyclic : ¬ TransGen p.Imports key key
  owns : p.Owns m name owner
  shared : ∃ other, other ≠ key ∧ p.DeclaresModule m other
  apart : ¬ (policy.IsFragment m owner ∧ policy.IsFragment m key)

theorem Owns.unique {p : Program} {m name : String} {a b : FileKey} (ha : p.Owns m name a)
    (hb : p.Owns m name b) : a = b := by
  have hab := ha.first b hb.offers hb.acyclic
  have hba := hb.first a ha.offers ha.acyclic
  have hswap : compare b a = (compare a b).swap := Std.OrientedOrd.eq_swap
  rw [hswap] at hba
  refine Std.LawfulEqOrd.eq_of_compare ?_
  cases hc : compare a b with
  | lt => simp [hc] at hba
  | eq => rfl
  | gt => exact absurd hc hab

end Program

namespace ModuleGraph

/-! ## The files that are compared -/

variable {p : Program} {policy : Policy} {m name : String} {key : FileKey} {f : SourceFile}

/-- The files whose exports are compared: those that declare the module and are on no cycle. -/
def compared (p : Program) (m : String) : List (FileKey × SourceUnit) :=
  (declaring p m).filter (·.1 ∉ Cycle.files (importGraph p))

theorem mem_declaring {u : SourceUnit} :
    (key, u) ∈ declaring p m ↔
      ∃ f, p.get? key = some f ∧ f.unit.declaredModule? = some m ∧ f.unit = u := by
  unfold declaring
  simp only [List.mem_map, List.mem_filter, Prod.exists, OrderedMap.mem_entries_iff, beq_iff_eq,
    Prod.mk.injEq]
  constructor
  · rintro ⟨_, f, ⟨hf, hm⟩, rfl, rfl⟩
    exact ⟨f, hf, hm, rfl⟩
  · rintro ⟨f, hf, hm, rfl⟩
    exact ⟨key, f, ⟨hf, hm⟩, rfl, rfl⟩

theorem sorted_declaring (p : Program) (m : String) :
    (declaring p m).Pairwise fun a b => compare a.1 b.1 = .lt :=
  List.pairwise_map.mpr (p.sorted.filter _)

theorem mem_compared {u : SourceUnit} :
    (key, u) ∈ compared p m ↔ (∃ f, p.get? key = some f ∧ f.unit.declaredModule? = some m ∧
      f.unit = u) ∧ ¬ TransGen p.Imports key key := by
  unfold compared
  rw [List.mem_filter, mem_declaring, decide_eq_true_iff, mem_files_importGraph]

theorem sorted_compared (p : Program) (m : String) :
    (compared p m).Pairwise fun a b => compare a.1 b.1 = .lt :=
  (sorted_declaring p m).filter _

/-- The first of the compared files that offers a name owns it. -/
theorem owns_of_find? {x : FileKey × SourceUnit}
    (h : (compared p m).find? (·.2.offers name) = some x) :
    p.Owns m name x.1 ∧ ∃ f, p.get? x.1 = some f ∧ f.unit = x.2 := by
  obtain ⟨hoffers, before, after, hsplit, hbefore⟩ := List.find?_eq_some_iff_append.mp h
  have hmem : (x.1, x.2) ∈ compared p m := List.mem_of_find?_eq_some h
  obtain ⟨⟨f, hf, hm, hunit⟩, hacyclic⟩ := mem_compared.mp hmem
  refine ⟨⟨⟨f, hf, hm, by rw [hunit]; exact hoffers⟩, hacyclic, ?_⟩, f, hf, hunit⟩
  rintro other ⟨f', hf', hm', hoffers'⟩ hacyclic'
  have hother : (other, f'.unit) ∈ compared p m :=
    mem_compared.mpr ⟨⟨f', hf', hm', rfl⟩, hacyclic'⟩
  have hsorted := sorted_compared p m
  rw [hsplit] at hother hsorted
  -- no file before the owner offers the name, and those behind it come later in path order
  rcases List.mem_append.mp hother with hin | hin
  · have hnot := hbefore _ hin
    simp [hoffers'] at hnot
  · rcases List.mem_cons.mp hin with rfl | hin
    · simp
    · have hlt := (List.pairwise_cons.mp (List.pairwise_append.mp hsorted).2.1).1 _ hin
      simp [hlt]

/-- A module has at least two files if a file other than the given one declares it. -/
theorem exists_other_iff {x : FileKey × SourceUnit} (hx : x ∈ declaring p m) :
    2 ≤ (declaring p m).length ↔ ∃ other, other ≠ x.1 ∧ p.DeclaresModule m other := by
  have hkeys : ((declaring p m).map (·.1)).Nodup :=
    List.pairwise_map.mpr ((sorted_declaring p m).imp fun hlt heq => by simp [heq] at hlt)
  rw [← List.length_map (·.1), two_le_length_iff hkeys (List.mem_map_of_mem hx)]
  constructor
  · rintro ⟨other, hmem, hne⟩
    obtain ⟨⟨_, u⟩, hu, rfl⟩ := List.mem_map.mp hmem
    obtain ⟨f, hf, hm, -⟩ := mem_declaring.mp hu
    exact ⟨_, hne, f, hf, hm⟩
  · rintro ⟨other, hne, f, hf, hm⟩
    exact ⟨other, List.mem_map.mpr ⟨_, mem_declaring.mpr ⟨f, hf, hm, rfl⟩, rfl⟩, hne⟩

/-- The conflicts of a module that several files declare are those of the compared files. -/
theorem mem_moduleConflicts_iff {e : FileKey × List Diagnostic} :
    e ∈ moduleConflicts p policy ↔ ∃ m before u after, compared p m = before ++ (e.1, u) :: after ∧
      (∃ other, other ≠ e.1 ∧ p.DeclaresModule m other) ∧
      e.2 = reportsBehind policy m before u ∧ e.2 ≠ [] := by
  constructor
  · intro he
    obtain ⟨m, -, he⟩ := List.mem_flatMap.mp he
    dsimp only at he
    split at he
    · exact absurd he List.not_mem_nil
    · rename_i hlen
      obtain ⟨before, u, after, hsplit, hreports⟩ := mem_conflictsIn_iff.mp he
      have hsplit : compared p m = before ++ (e.1, u) :: after := hsplit
      have hmem : (e.1, u) ∈ compared p m := by simp [hsplit]
      refine ⟨m, before, u, after, hsplit, ?_, hreports⟩
      exact (exists_other_iff (List.mem_filter.mp hmem).1).mp (Nat.le_of_not_lt hlen)
  · rintro ⟨m, before, u, after, hsplit, hother, hreports⟩
    have hmem : (e.1, u) ∈ compared p m := by simp [hsplit]
    obtain ⟨⟨f, hf, hm, -⟩, -⟩ := mem_compared.mp hmem
    refine List.mem_flatMap.mpr ⟨m, mem_declaredModules.mpr ⟨e.1, f, hf, hm⟩, ?_⟩
    have hlen := (exists_other_iff (List.mem_filter.mp hmem).1).mpr hother
    exact (if_neg (Nat.not_lt_of_le hlen)).symm ▸
      mem_conflictsIn_iff.mpr ⟨before, u, after, hsplit, hreports⟩

theorem mem_duplicateReports {d : Diagnostic} :
    d ∈ (build p policy).diagnosticsOf key ∧ d.rule = .duplicateModule ↔
      ∃ e ∈ moduleConflicts p policy, e.1 = key ∧ d ∈ e.2 := by
  rw [diagnosticsOf_build]
  constructor
  · rintro ⟨hd, hrule⟩
    rcases List.mem_append.mp hd with hd | hd
    · -- diagnostics about imports and cycles have other rules
      exfalso
      rcases List.mem_append.mp hd with hd | hd
      · obtain ⟨-, -, hother, -⟩ := of_mem_resolvedFiles hd
        rw [hother] at hrule
        cases hrule
      · obtain ⟨c, -, rfl⟩ := List.mem_map.mp hd
        cases hrule
    · obtain ⟨e, he, hd⟩ := List.mem_flatMap.mp hd
      obtain ⟨he, hkey⟩ := List.mem_filter.mp he
      exact ⟨e, he, eq_of_beq hkey, hd⟩
  · rintro ⟨e, he, rfl, hd⟩
    obtain ⟨⟨_, _, hreports⟩, -⟩ := of_mem_moduleConflicts he
    refine ⟨List.mem_append_right _ (List.mem_flatMap.mpr ⟨e, ?_, hd⟩), (hreports d hd).1⟩
    exact List.mem_filter.mpr ⟨he, beq_self_eq_true e.1⟩

/-- Files that are halted and on no cycle are those in which a conflict is reported. -/
theorem isHalted_iff_duplicateReport (hacyclic : ¬ TransGen p.Imports key key) :
    (build p policy).isHalted key = true ↔
      ∃ d ∈ (build p policy).diagnosticsOf key, d.rule = .duplicateModule := by
  have hhalted := isHalted_build p policy key
  rw [or_iff_right hacyclic] at hhalted
  rw [hhalted, List.mem_map]
  constructor
  · rintro ⟨e, he, rfl⟩
    obtain ⟨-, -, hne⟩ := of_mem_moduleConflicts he
    obtain ⟨d, hd⟩ := List.exists_mem_of_ne_nil _ hne
    exact ⟨d, mem_duplicateReports.mpr ⟨e, he, rfl, hd⟩⟩
  · rintro ⟨d, hd⟩
    obtain ⟨e, he, hkey, -⟩ := mem_duplicateReports.mp hd
    exact ⟨e, he, hkey⟩

/-- A compared file that offers a name, with the owner of this name: an earlier file, or else the
file itself. -/
theorem owner_cases {before after : List (FileKey × SourceUnit)} {u : SourceUnit}
    (hsplit : compared p m = before ++ (key, u) :: after) (hoffers : u.offers name = true) :
    (∃ owner fo, before.find? (·.2.offers name) = some (owner, fo.unit) ∧
      p.Owns m name owner ∧ p.get? owner = some fo ∧ compare owner key = .lt) ∨
    before.find? (·.2.offers name) = none ∧ p.Owns m name key := by
  have hfind : (compared p m).find? (·.2.offers name) =
      (before.find? (·.2.offers name)).or (some (key, u)) := by
    rw [hsplit, List.find?_append, List.find?_cons, hoffers]
  cases hbefore : before.find? (·.2.offers name) with
  | none =>
    rw [hbefore] at hfind
    exact .inr ⟨rfl, (owns_of_find? hfind).1⟩
  | some x =>
    rw [hbefore] at hfind
    obtain ⟨howns, fo, hfo, hunit⟩ := owns_of_find? hfind
    have hsorted := sorted_compared p m
    rw [hsplit] at hsorted
    have hlt := (List.pairwise_append.mp hsorted).2.2 x (List.mem_of_find?_eq_some hbefore) (key, u)
      List.mem_cons_self
    exact .inl ⟨x.1, fo, by rw [hunit], howns, hfo, hlt⟩

/-- **Which exports are reported**: those of names that the file clashes over with an earlier file,
and those of names that it clashes over with itself since it lists them twice. -/
theorem mem_duplicateReports_iff (hp : p.Keyed) (hf : p.get? key = some f) {d : Diagnostic} :
    d ∈ (build p policy).diagnosticsOf key ∧ d.rule = .duplicateModule ↔
      ∃ m name owner fo front span back, p.Clashes policy m name key owner ∧
        p.get? owner = some fo ∧ f.unit.exports = front ++ ⟨name, span⟩ :: back ∧
        (compare owner key = .lt ∨ owner = key ∧ name ∈ front.map (·.node)) ∧
        d = (Finding.duplicateModule m name fo.unit.path).report f.unit.path span := by
  rw [mem_duplicateReports]
  constructor
  · rintro ⟨e, he, rfl, hd⟩
    obtain ⟨m, before, u, after, hsplit, hother, hreports, -⟩ := mem_moduleConflicts_iff.mp he
    have hmem : (e.1, u) ∈ compared p m := by simp [hsplit]
    obtain ⟨⟨f', hf', hm, rfl⟩, hacyclic⟩ := mem_compared.mp hmem
    cases hf.symm.trans hf'
    rw [hreports] at hd
    obtain ⟨front, ⟨name, span⟩, back, hexports, hdef, path, howner, hfragments, rfl⟩ :=
      mem_reportsBehind_iff.mp hd
    have hoffers : f.unit.offers name = true :=
      SourceUnit.offers_iff.mpr ⟨by simp [hexports], hdef⟩
    rw [hp e.1 f hf] at hfragments
    have hnot : ∀ owner, path.key = owner →
        ¬ (policy.IsFragment m owner ∧ policy.IsFragment m e.1) := by
      rintro owner rfl hboth
      rw [Policy.areFragments_iff.mpr hboth] at hfragments
      cases hfragments
    rcases owner_cases hsplit hoffers with ⟨owner, fo, hbefore, howns, hfo, hlt⟩ | ⟨hbefore, howns⟩
    · rw [hbefore] at howner
      cases howner
      exact ⟨m, name, owner, fo, front, span, back, ⟨⟨f, hf, hm, hoffers⟩, hacyclic, howns, hother,
        hnot owner (hp owner fo hfo)⟩, hfo, hexports, .inl hlt, rfl⟩
    · -- no earlier file offers the name, so that the file itself lists it before
      rw [hbefore] at howner
      by_cases hfront : name ∈ front.map (·.node)
      · rw [if_pos hfront] at howner
        cases howner
        exact ⟨m, name, e.1, f, front, span, back, ⟨⟨f, hf, hm, hoffers⟩, hacyclic, howns, hother,
          hnot e.1 (hp e.1 f hf)⟩, hf, hexports, .inr ⟨rfl, hfront⟩, rfl⟩
      · rw [if_neg hfront] at howner
        cases howner
  · rintro ⟨m, name, owner, fo, front, span, back, ⟨⟨f', hf', hm, hoffers⟩, hacyclic, howns, hother,
      hapart⟩, hfo, hexports, hplace, rfl⟩
    cases hf.symm.trans hf'
    obtain ⟨before, after, hsplit⟩ := List.append_of_mem
      (mem_compared.mpr ⟨⟨f, hf, hm, rfl⟩, hacyclic⟩)
    have hd : (Finding.duplicateModule m name fo.unit.path).report f.unit.path span ∈
        reportsBehind policy m before f.unit := by
      refine mem_reportsBehind_iff.mpr ⟨front, ⟨name, span⟩, back, hexports,
        (SourceUnit.offers_iff.mp hoffers).2, fo.unit.path, ?_, ?_, rfl⟩
      · rcases owner_cases hsplit hoffers with ⟨owner', fo', hbefore, howns', hfo', hlt⟩ |
          ⟨hbefore, howns'⟩
        · obtain rfl := howns.unique howns'
          cases hfo.symm.trans hfo'
          rw [hbefore]
          rfl
        · obtain rfl := howns.unique howns'
          cases hf.symm.trans hfo
          have hfront : name ∈ front.map (·.node) := by
            rcases hplace with hlt | ⟨-, hfront⟩
            · simp at hlt
            · exact hfront
          rw [hbefore, if_pos hfront]
          rfl
      · rw [hp key f hf, hp owner fo hfo, Bool.eq_false_iff]
        exact fun hboth => hapart (Policy.areFragments_iff.mp hboth)
    exact ⟨(key, reportsBehind policy m before f.unit), mem_moduleConflicts_iff.mpr
      ⟨m, before, f.unit, after, hsplit, hother, rfl, List.ne_nil_of_mem hd⟩, rfl, hd⟩

theorem acyclic_of_live (hlive : (build p policy).isHalted key = false) :
    ¬ TransGen p.Imports key key := by
  intro hcycle
  rw [(isHalted_build p policy key).mpr (.inl hcycle)] at hlive
  cases hlive

theorem exists_owner (hoffers : p.Offers m name key) (hacyclic : ¬ TransGen p.Imports key key) :
    ∃ owner, p.Owns m name owner := by
  obtain ⟨f, hf, hm, hoffers⟩ := hoffers
  obtain ⟨before, after, hsplit⟩ := List.append_of_mem
    (mem_compared.mpr ⟨⟨f, hf, hm, rfl⟩, hacyclic⟩)
  rcases owner_cases hsplit hoffers with ⟨owner, -, -, howns, -⟩ | ⟨-, howns⟩
  · exact ⟨owner, howns⟩
  · exact ⟨key, howns⟩

/-- A file that is not halted shares a name with its owner only as a fragment beside a fragment. -/
theorem fragments_of_live (hp : p.Keyed) {owner : FileKey} (howns : p.Owns m name owner)
    (hoffers : p.Offers m name key) (hlive : (build p policy).isHalted key = false)
    (hne : owner ≠ key) : policy.IsFragment m owner ∧ policy.IsFragment m key := by
  by_contra hapart
  have hacyclic := acyclic_of_live hlive
  obtain ⟨fo, hfo, hmo, -⟩ := howns.offers
  obtain ⟨f, hf, -, hlists⟩ := id hoffers
  obtain ⟨⟨name', span⟩, he, rfl⟩ := List.mem_map.mp (SourceUnit.offers_iff.mp hlists).1
  obtain ⟨front, back, hexports⟩ := List.append_of_mem he
  have hlt : compare owner key = .lt := by
    cases hc : compare owner key with
    | lt => rfl
    | eq => exact absurd (Std.LawfulEqOrd.eq_of_compare hc) hne
    | gt => exact absurd hc (howns.first key hoffers hacyclic)
  have hclash : p.Clashes policy m name' key owner :=
    ⟨hoffers, hacyclic, howns, ⟨owner, hne, fo, hfo, hmo⟩, hapart⟩
  have hreport := (mem_duplicateReports_iff hp hf).mpr
    ⟨m, name', owner, fo, front, span, back, hclash, hfo, hexports, .inl hlt, rfl⟩
  rw [(isHalted_iff_duplicateReport hacyclic).mpr ⟨_, hreport⟩] at hlive
  cases hlive

/-- **No export conflict survives.** Two files that are not halted and offer the same name in the
same module are both fragments of this module. A file that is halted without being on an import
cycle has the report of a conflict, and some other file declares its module too. -/
theorem no_export_conflict_survives (hp : p.Keyed) (policy : Policy) :
    let g := build p policy
    (∀ m name a b, a ≠ b → p.Offers m name a → p.Offers m name b → g.isHalted a = false →
      g.isHalted b = false → policy.IsFragment m a ∧ policy.IsFragment m b) ∧
    ∀ key, g.isHalted key = true → ¬ TransGen p.Imports key key →
      (∃ d ∈ g.diagnosticsOf key, d.rule = .duplicateModule) ∧
      ∃ m, p.DeclaresModule m key ∧ ∃ other, other ≠ key ∧ p.DeclaresModule m other := by
  intro g
  constructor
  · intro m name a b hne ha hb hlivea hliveb
    obtain ⟨owner, howns⟩ := exists_owner ha (acyclic_of_live hlivea)
    -- each of the two is compared with the owner, unless it is the owner
    by_cases hao : owner = a
    · subst hao
      exact fragments_of_live hp howns hb hliveb hne
    · refine ⟨(fragments_of_live hp howns ha hlivea hao).2, ?_⟩
      by_cases hbo : owner = b
      · subst hbo
        exact (fragments_of_live hp howns ha hlivea hao).1
      · exact (fragments_of_live hp howns hb hliveb hbo).2
  · intro key hhalted hacyclic
    obtain ⟨d, hd⟩ := (isHalted_iff_duplicateReport hacyclic).mp hhalted
    obtain ⟨e, he, rfl, -⟩ := mem_duplicateReports.mp hd
    obtain ⟨⟨f, hf, -⟩, -⟩ := of_mem_moduleConflicts he
    obtain ⟨m, _, _, _, _, _, _, hclash, -⟩ := (mem_duplicateReports_iff hp hf).mp hd
    obtain ⟨f', hf', hm, -⟩ := hclash.offers
    exact ⟨⟨d, hd⟩, m, ⟨f', hf', hm⟩, hclash.shared⟩

/-- A file of a kit with one function and the given export list. -/
def kitUnit (path : String) (exports : List String) : SourceUnit where
  path := ⟨path⟩
  moduleDecl := some ⟨"kit", ⟨0, 1, 1⟩⟩
  declarations := [⟨.function { name := "open", returns := .unit }, ⟨1, 1, 1⟩⟩]
  exports := exports.map fun name => ⟨name, ⟨2, 1, 4⟩⟩

/-- The first two files of the kit are fragments of it. -/
def kitPolicy : Policy where
  fragments := .ofList [("kit", [⟨"kit/a.cdz"⟩, ⟨"kit/b.cdz"⟩])]

theorem kit_without_conflicts :
    let p := Program.ofUnits [kitUnit "kit/a.cdz" ["open"], kitUnit "kit/b.cdz" ["open"],
      kitUnit "kit/c.cdz" ["open"]]
    let g := build p kitPolicy
    let a := Path.key ⟨"kit/a.cdz"⟩
    let b := Path.key ⟨"kit/b.cdz"⟩
    let c := Path.key ⟨"kit/c.cdz"⟩
    p.Keyed ∧ g.isHalted a = false ∧ g.isHalted b = false ∧
    kitPolicy.IsFragment "kit" a ∧ kitPolicy.IsFragment "kit" b ∧ g.isHalted c = true ∧
    ∃ d ∈ g.diagnosticsOf c, d.rule = .duplicateModule := by
  intro p g a b c
  have hp : p.Keyed := (Program.wellListed_ofUnits _).keyed
  obtain ⟨hsurvive, hhalted⟩ := no_export_conflict_survives hp kitPolicy
  have hlivea : g.isHalted a = false := by decide +kernel
  have hliveb : g.isHalted b = false := by decide +kernel
  have hhaltc : g.isHalted c = true := by decide +kernel
  have hacyclic : ¬ TransGen p.Imports c c := by
    rw [← mem_files_importGraph]
    decide +kernel
  obtain ⟨ha, hb⟩ := hsurvive "kit" "open" a b (by decide +kernel)
    ⟨⟨⟨"kit/a.cdz"⟩, kitUnit "kit/a.cdz" ["open"]⟩, by rfl, by rfl, by decide +kernel⟩
    ⟨⟨⟨"kit/b.cdz"⟩, kitUnit "kit/b.cdz" ["open"]⟩, by rfl, by rfl, by decide +kernel⟩ hlivea hliveb
  exact ⟨hp, hlivea, hliveb, ha, hb, hhaltc, (hhalted c hhaltc hacyclic).1⟩

/-- **Reports of conflicts name the owner.** A file has a report for every export of a name that it
clashes over with the owner of this name, and no others. The owner is an earlier file, or the file
itself where it lists the name twice. If a file lists no name twice that it defines, every conflict
that is reported is with an earlier file on no import cycle that offers the same name in the same
module; the file is halted only if it is on a cycle or there is such another file. -/
theorem duplicate_reports_name_owner (hp : p.Keyed) (policy : Policy) (hf : p.get? key = some f) :
    let g := build p policy
    (∀ d, d ∈ g.diagnosticsOf key ∧ d.rule = .duplicateModule ↔
      ∃ m name owner fo front span back, p.Clashes policy m name key owner ∧
        p.get? owner = some fo ∧ f.unit.exports = front ++ ⟨name, span⟩ :: back ∧
        (compare owner key = .lt ∨ owner = key ∧ name ∈ front.map (·.node)) ∧
        d = (Finding.duplicateModule m name fo.unit.path).report f.unit.path span) ∧
    ((∀ name, f.unit.defines name = true → (f.unit.exports.map (·.node)).count name ≤ 1) →
      (∀ d ∈ g.diagnosticsOf key, d.rule = .duplicateModule → ∃ m name other fo span,
        compare other key = .lt ∧ ¬ TransGen p.Imports other other ∧ p.Offers m name other ∧
        p.Offers m name key ∧ p.get? other = some fo ∧
        d = (Finding.duplicateModule m name fo.unit.path).report f.unit.path span) ∧
      (g.isHalted key = true → TransGen p.Imports key key ∨
        ∃ m name other, other ≠ key ∧ p.Offers m name other ∧ p.Offers m name key)) := by
  intro g
  refine ⟨fun d => mem_duplicateReports_iff hp hf, fun honce => ?_⟩
  have hearlier : ∀ d ∈ g.diagnosticsOf key, d.rule = .duplicateModule → ∃ m name other fo span,
      compare other key = .lt ∧ ¬ TransGen p.Imports other other ∧ p.Offers m name other ∧
      p.Offers m name key ∧ p.get? other = some fo ∧
      d = (Finding.duplicateModule m name fo.unit.path).report f.unit.path span := by
    intro d hd hrule
    obtain ⟨m, name, owner, fo, front, span, back, hclash, hfo, hexports, hplace, hreport⟩ :=
      (mem_duplicateReports_iff hp hf).mp ⟨hd, hrule⟩
    refine ⟨m, name, owner, fo, span, hplace.resolve_right ?_, hclash.owns.acyclic,
      hclash.owns.offers, hclash.offers, hfo, hreport⟩
    -- the name would be listed once in front of the export and once by the export itself
    rintro ⟨-, hfront⟩
    obtain ⟨f', hf', -, hoffers⟩ := hclash.offers
    cases hf.symm.trans hf'
    have hcount := honce name (SourceUnit.offers_iff.mp hoffers).2
    rw [hexports, List.map_append, List.count_append, List.map_cons, List.count_cons_self] at hcount
    have hpos := List.count_pos_iff.mpr hfront
    omega
  refine ⟨hearlier, fun hhalted => or_iff_not_imp_left.mpr fun hacyclic => ?_⟩
  obtain ⟨d, hd, hrule⟩ := (isHalted_iff_duplicateReport hacyclic).mp hhalted
  obtain ⟨m, name, other, -, -, hlt, -, hother, hkey, -⟩ := hearlier d hd hrule
  refine ⟨m, name, other, ?_, hother, hkey⟩
  rintro rfl
  simp at hlt

theorem kit_duplicate_reports :
    let p := Program.ofUnits [kitUnit "kit/a.cdz" ["open", "shut", "shut"],
      kitUnit "kit/b.cdz" ["shut", "open"]]
    let g := build p {}
    let b := Path.key ⟨"kit/b.cdz"⟩
    p.Keyed ∧ g.isHalted b = true ∧
    (Finding.duplicateModule "kit" "open" ⟨"kit/a.cdz"⟩).report ⟨"kit/b.cdz"⟩ ⟨2, 1, 4⟩ ∈
      g.diagnosticsOf b ∧
    ∃ m name other, other ≠ b ∧ p.Offers m name other ∧ p.Offers m name b := by
  intro p g b
  have hp : p.Keyed := (Program.wellListed_ofUnits _).keyed
  have hf : p.get? b = some ⟨⟨"kit/b.cdz"⟩, kitUnit "kit/b.cdz" ["shut", "open"]⟩ := by rfl
  obtain ⟨-, hearlier⟩ := duplicate_reports_name_owner hp {} hf
  have honce : ∀ name, (kitUnit "kit/b.cdz" ["shut", "open"]).defines name = true →
      ((kitUnit "kit/b.cdz" ["shut", "open"]).exports.map (·.node)).count name ≤ 1 :=
    fun name _ => List.nodup_iff_count_le_one.mp (by decide) name
  have hhalted : g.isHalted b = true := by decide +kernel
  have hacyclic : ¬ TransGen p.Imports b b := by
    rw [← mem_files_importGraph]
    decide +kernel
  exact ⟨hp, hhalted, by decide +kernel, ((hearlier honce).2 hhalted).resolve_left hacyclic⟩

/-- **A file may be reported as a duplicate of itself**: if it lists a name twice that it defines,
and any other file declares its module, it is halted, although no other file offers the name. -/
theorem file_conflicts_with_itself :
    let p := Program.ofUnits [kitUnit "kit/a.cdz" ["open", "open"], kitUnit "kit/b.cdz" []]
    let g := build p {}
    let a := Path.key ⟨"kit/a.cdz"⟩
    p.Keyed ∧ g.isHalted a = true ∧ ¬ TransGen p.Imports a a ∧
    (Finding.duplicateModule "kit" "open" ⟨"kit/a.cdz"⟩).report ⟨"kit/a.cdz"⟩ ⟨2, 1, 4⟩ ∈
      g.diagnosticsOf a ∧
    ∀ m name other, p.Offers m name a → p.Offers m name other → other = a := by
  intro p g a
  have hacyclic : ¬ TransGen p.Imports a a := by
    rw [← mem_files_importGraph]
    decide +kernel
  refine ⟨(Program.wellListed_ofUnits _).keyed, by decide +kernel, hacyclic, by decide +kernel, ?_⟩
  rintro m name other - ⟨f, hf, -, hoffers⟩
  have hentries : ∀ e ∈ p.entries, e.1 ≠ a → e.2.unit.exports = [] := by decide +kernel
  by_contra hne
  have hnone := hentries (other, f) (OrderedMap.mem_entries_iff.mpr hf) hne
  have hlisted := (SourceUnit.offers_iff.mp hoffers).1
  rw [hnone] at hlisted
  exact List.not_mem_nil hlisted

end ModuleGraph

end EffectAudit
