import EffectAudit.Proofs.Modules.Exposure
import EffectAudit.Proofs.Session.FailedImport
import EffectAudit.Proofs.Session.Rebinding

/-!
# What calls may mean

A call means a function of its own file, a function in the rest of the module, or an exported
function of a module that the file imports, by the name or behind the qualifier under which it is
imported. Which functions these are is said on the sources of the program alone.

## Main definitions

* `Program.Candidate`: the functions that a call may mean at a level

## Main results

* `Session.Loaded.candidate_iff`: the candidates that the scope of a file finds are these functions
* `Session.Loaded.candidate_of_resolve`: functions that are called are candidates
* `Session.Loaded.resolve_of_unique`, `Session.Loaded.resolve_of_ne`: one candidate is called,
  several are ambiguous
* `Session.calls_respect_visibility`: all of this together
-/

namespace EffectAudit

open ModuleTable

/-- The functions that a call in a file may mean at a level: those of the called name in the file or
in the rest of its module, if the call is unqualified or qualified by the name of this module; or
those which files of an imported module export, known to the call through the import. -/
def Program.Candidate (p : Program) (f : SourceFile) (path : CallPath) :
    Level → FunctionRef → Prop
  | .file, g => (path.qualifier = none ∨ path.qualifier = some f.moduleName) ∧
      p.Declares g ∧ g.file = f.path.key ∧ g.name = path.name
  | .module, g => (path.qualifier = none ∨ path.qualifier = some f.moduleName) ∧
      p.Declares g ∧ g.file ∈ (ofProgram p).filesOf f.moduleName ∧ g.file ≠ f.path.key ∧
      g.name = path.name
  | .imports, g => ∃ d ∈ f.unit.imports, ∃ m qualifier,
      (ofProgram p).findTarget? f.path.key d.node = some (m, qualifier) ∧
      d.node.Exposes (ofProgram p) f.path.key m path g.name ∧
      p.Exports g ∧ g.file ∈ (ofProgram p).filesOf m

/-- Behind the name of the own module a name means what it means without a qualifier, imports
apart. -/
theorem Program.Candidate.qualify {p : Program} {f : SourceFile} {name : String} {level : Level}
    {g : FunctionRef} (h : p.Candidate f ⟨none, name⟩ level g) (hlevel : level ≠ .imports) :
    p.Candidate f ⟨some f.moduleName, name⟩ level g := by
  cases level with
  | file => exact ⟨.inr rfl, h.2⟩
  | module => exact ⟨.inr rfl, h.2⟩
  | imports => exact absurd rfl hlevel

namespace Session

namespace Loaded

variable {s : Session} (h : s.Loaded)

include h

/-! ## Declarations and look-ups -/

theorem exists_lookup?_iff {g : FunctionRef} {b : Bool} :
    (∃ signature, s.symbols.lookup? g = some signature ∧ signature.isExported = b) ↔
      ∃ f, s.program.get? g.file = some f ∧ (∃ d ∈ f.unit.functions, d.node.name = g.name) ∧
        f.unit.exportsName g.name = b := by
  constructor
  · rintro ⟨signature, hlookup, rfl⟩
    obtain ⟨f, hf, d, hd, hname, rfl⟩ := h.exists_decl_of_lookup? hlookup
    exact ⟨f, hf, ⟨d, mem_of_mem_firstDeclarations hd, hname⟩, by rw [← hname]; rfl⟩
  · rintro ⟨f, hf, ⟨d, hd, hname⟩, rfl⟩
    -- the table has the first declaration of the name
    obtain ⟨first, hfirst, hsame⟩ := exists_firstDeclaration hd
    have hlookup := h.lookup?_eq hf hfirst
    rw [hsame, hname] at hlookup
    refine ⟨_, hlookup, ?_⟩
    show f.unit.exportsName first.node.name = _
    rw [hsame, hname]

theorem declares_iff_lookup? {g : FunctionRef} :
    s.program.Declares g ↔ ∃ signature, s.symbols.lookup? g = some signature := by
  constructor
  · rintro ⟨f, hf, hd⟩
    obtain ⟨signature, hlookup, -⟩ := h.exists_lookup?_iff.mpr ⟨f, hf, hd, rfl⟩
    exact ⟨signature, hlookup⟩
  · rintro ⟨signature, hlookup⟩
    obtain ⟨f, hf, hd, -⟩ := h.exists_lookup?_iff.mp ⟨signature, hlookup, rfl⟩
    exact ⟨f, hf, hd⟩

/-- The declared functions are those of which there are signatures. -/
theorem declares_iff {g : FunctionRef} : s.program.Declares g ↔
    ∃ signature, s.symbols.lookup? signature.ref = some signature ∧ signature.ref = g := by
  rw [h.declares_iff_lookup?]
  constructor
  · rintro ⟨signature, hlookup⟩
    have hr := SymbolTable.ref_of_lookup? hlookup
    exact ⟨signature, hr ▸ hlookup, hr⟩
  · rintro ⟨signature, hlookup, rfl⟩
    exact ⟨signature, hlookup⟩

/-- The exported functions of a module are those which its files export. -/
theorem exported_iff {key : FileKey} {m name : String} {g : FunctionRef} :
    (∃ signature ∈ (s.scope key).exported m name, signature.ref = g) ↔
      s.program.Exports g ∧ g.file ∈ (ofProgram s.program).filesOf m ∧ g.name = name := by
  rw [← h.filesOf_eq]
  constructor
  · rintro ⟨signature, hmem, rfl⟩
    obtain ⟨hlookup, hplace⟩ := Scope.mem_exported.mp hmem
    exact ⟨h.exists_lookup?_iff.mp ⟨signature, hlookup⟩, hplace⟩
  · rintro ⟨hexports, hplace⟩
    obtain ⟨signature, hlookup, hexported⟩ := h.exists_lookup?_iff.mpr hexports
    have hr := SymbolTable.ref_of_lookup? hlookup
    refine ⟨signature, Scope.mem_exported.mpr ?_, hr⟩
    rw [hr]
    exact ⟨⟨hlookup, hexported⟩, hplace⟩

/-! ## Imports -/

section Imports

variable {key : FileKey} {f : SourceFile} (hf : s.program.get? key = some f)

include hf

theorem resolution_scope :
    (s.scope key).resolution = ((ofProgram s.program).resolveFile f).1 := by
  unfold Scope.resolution scope
  dsimp only
  rw [h.resolution?_eq, hf]
  rfl

theorem imports_scope : (s.scope key).resolution.imports =
    f.unit.imports.filterMap fun d => ((ofProgram s.program).resolveImport f.path d).resolved := by
  rw [h.resolution_scope hf, imports_resolveFile]

theorem mem_imports_iff {i : ResolvedImport} :
    i ∈ (s.scope key).resolution.imports ↔ ∃ d ∈ f.unit.imports, ∃ m qualifier,
      (ofProgram s.program).findTarget? f.path.key d.node = some (m, qualifier) ∧
        i = ⟨m, qualifier, (ofProgram s.program).importKind m d.node.items, d.span⟩ := by
  rw [h.imports_scope hf, List.mem_filterMap]
  simp only [resolved_eq_some_iff]

omit hf in
/-- What an import brings by a name is what its module exports by a name that the import exposes. -/
theorem brought_iff {d : Spanned ImportDecl} {m name : String} {qualifier : Option String}
    {signature : Signature} (importer : FileKey) :
    let i : ResolvedImport :=
      ⟨m, qualifier, (ofProgram s.program).importKind m d.node.items, d.span⟩
    (signature ∈ (s.scope key).broughtByName i name ∨
      signature ∈ (s.scope key).broughtByWildcard i name) ↔
    ∃ n, d.node.Exposes (ofProgram s.program) importer m ⟨none, name⟩ n ∧
      signature ∈ (s.scope key).exported m n := by
  intro i
  rw [Scope.mem_broughtByName, Scope.mem_broughtByWildcard]
  constructor
  · rintro (⟨names, hkind, n, hn, rfl, hmem⟩ | ⟨hkind, hmem⟩)
    · obtain ⟨items, hitems, rfl⟩ := importKind_eq_names_iff.mp hkind
      obtain ⟨item, hitem, rfl⟩ := List.mem_map.mp hn
      exact ⟨item.node.name, .item hitems (List.mem_filter.mp hitem).1, hmem⟩
    · exact ⟨name, .wildcard (importKind_eq_wildcard_iff.mp hkind), hmem⟩
  · rintro ⟨n, hexposes, hmem⟩
    cases hexposes with
    | wildcard hitems => exact .inr ⟨importKind_eq_wildcard_iff.mpr hitems, hmem⟩
    | @item items item hitems hitem =>
      -- the item is accepted, since a file of the module lists the function
      obtain ⟨hexports, hfile, hname⟩ := h.exported_iff.mp ⟨signature, hmem, rfl⟩
      have haccepted := exportsName_of_exports hexports hfile
      rw [hname] at haccepted
      have hkept : item ∈ items.filter fun i =>
          (ofProgram s.program).exportsName m i.node.name :=
        List.mem_filter.mpr ⟨hitem, haccepted⟩
      exact .inl ⟨_, importKind_eq_names_iff.mpr ⟨items, hitems, rfl⟩, _,
        List.mem_map_of_mem hkept, rfl, hmem⟩

/-! ## Candidates -/

/-- **The candidates that a scope finds** are the functions which a call may mean. -/
theorem candidate_iff {name : String} {level : Level} {g : FunctionRef} :
    s.program.Candidate f ⟨none, name⟩ level g ↔
      g ∈ ((s.scope key).candidates name level).map (·.ref) := by
  -- the file is listed under its own key, so its path and the scope name the same file
  have hkey : f.path.key = key := (h.listed key f hf).1
  rw [List.mem_map]
  cases level with
  | file =>
    constructor
    · rintro ⟨-, hg, hfile, hname : g.name = name⟩
      obtain ⟨signature, hlookup, rfl⟩ := h.declares_iff.mp hg
      refine ⟨signature, Scope.mem_own.mpr ⟨hlookup, ?_⟩, rfl⟩
      rw [← hname]
      exact congrArg (FunctionRef.mk · signature.ref.name) (hfile.trans hkey)
    · rintro ⟨signature, hmem, rfl⟩
      obtain ⟨hlookup, hown⟩ := Scope.mem_own.mp hmem
      refine ⟨.inl rfl, h.declares_iff.mpr ⟨signature, hlookup, rfl⟩, ?_, ?_⟩
      · rw [hown, hkey]
        rfl
      · rw [hown]
  | module =>
    have hmodule : (s.scope key).graph.filesOf (s.scope key).moduleName =
        (ofProgram s.program).filesOf f.moduleName := by
      rw [h.moduleName_scope hf]
      exact h.filesOf_eq f.moduleName
    constructor
    · rintro ⟨-, hg, hfile, hne, hname⟩
      obtain ⟨signature, hlookup, rfl⟩ := h.declares_iff.mp hg
      refine ⟨signature, Scope.mem_siblings.mpr ?_, rfl⟩
      exact ⟨hlookup, hmodule ▸ hfile, hkey ▸ hne, hname⟩
    · rintro ⟨signature, hmem, rfl⟩
      obtain ⟨hlookup, hfile, hne, hname⟩ := Scope.mem_siblings.mp hmem
      exact ⟨.inl rfl, h.declares_iff.mpr ⟨signature, hlookup, rfl⟩, hmodule ▸ hfile,
        hkey.symm ▸ hne, hname⟩
  | imports =>
    constructor
    · rintro ⟨d, hd, m, qualifier, htarget, hexposes, hexports, hfile⟩
      obtain ⟨signature, hmem, hr⟩ := h.exported_iff.mpr ⟨hexports, hfile, rfl⟩
      refine ⟨signature, Scope.mem_imported.mpr ?_, hr⟩
      exact ⟨_, (h.mem_imports_iff hf).mpr ⟨d, hd, m, qualifier, htarget, rfl⟩,
        (h.brought_iff f.path.key).mpr ⟨g.name, hexposes, hmem⟩⟩
    · rintro ⟨signature, hmem, rfl⟩
      obtain ⟨i, hi, hmem⟩ := Scope.mem_imported.mp hmem
      obtain ⟨d, hd, m, qualifier, htarget, rfl⟩ := (h.mem_imports_iff hf).mp hi
      obtain ⟨n, hexposes, hmem⟩ := (h.brought_iff f.path.key).mp hmem
      -- the name by which the module exports the function is the one that it is declared by
      obtain ⟨hexports, hfile, rfl⟩ := h.exported_iff.mp ⟨signature, hmem, rfl⟩
      exact ⟨d, hd, m, qualifier, htarget, hexposes, hexports, hfile⟩

/-- **Functions that are called are candidates.** -/
theorem candidate_of_resolve {path : CallPath} {g : FunctionRef}
    (hr : (s.scope key).resolve path = .bound (.function g)) :
    ∃ level, s.program.Candidate f path level g := by
  obtain ⟨qualifier, name⟩ := path
  cases qualifier with
  | none =>
    obtain ⟨level, hg⟩ := Scope.candidate_of_resolveName hr
    exact ⟨level, (h.candidate_iff hf).mpr (List.mem_map.mpr hg)⟩
  | some qualifier =>
    rcases Scope.candidate_of_resolveQualified hr with
      ⟨rfl, level, hlevel, hg⟩ | ⟨m, hm, hg⟩
    · rw [h.moduleName_scope hf]
      have hcandidate := (h.candidate_iff hf).mpr (List.mem_map.mpr hg)
      exact ⟨level, hcandidate.qualify hlevel⟩
    · obtain ⟨hexports, hfile, rfl⟩ := h.exported_iff.mp hg
      obtain ⟨i, hi, rfl, hqualifier⟩ := Scope.of_qualified? hm
      obtain ⟨d, hd, m, qualifier', htarget, rfl⟩ := (h.mem_imports_iff hf).mp hi
      refine ⟨.imports, d, hd, m, qualifier', htarget, ?_, hexports, hfile⟩
      -- the qualifier is the name of the module, or else an alias or the stem of a file
      rcases hqualifier with rfl | rfl
      · exact .name
      · exact exposes_of_findTarget? htarget g.name

section First

variable {name : String} {level : Level}
  (hbefore : ∀ l g, l.rank < level.rank → ¬ s.program.Candidate f ⟨none, name⟩ l g)

include hbefore

theorem candidates_before (l : Level) (hl : l.rank < level.rank) :
    (s.scope key).candidates name l = [] := by
  refine List.eq_nil_iff_forall_not_mem.mpr fun signature hmem => ?_
  exact hbefore l signature.ref hl ((h.candidate_iff hf).mpr (List.mem_map_of_mem hmem))

/-- A candidate without a rival is called. -/
theorem resolve_of_unique {g : FunctionRef} (hg : s.program.Candidate f ⟨none, name⟩ level g)
    (hall : ∀ g', s.program.Candidate f ⟨none, name⟩ level g' → g' = g) :
    (s.scope key).resolve ⟨none, name⟩ = .bound (.function g) := by
  obtain ⟨signature, hmem, rfl⟩ := List.mem_map.mp ((h.candidate_iff hf).mp hg)
  have hnodup := Scope.nodup_candidates (s := s.scope key)
    (fun m => h.filesOf_eq m ▸ nodup_filesOf s.program m) name level
  refine Scope.resolveName_of_first (h.candidates_before hf hbefore) ?_
  refine Scope.choose?_of_unique hnodup hmem (fun signature' hmem' => hall _ ?_) name
  exact (h.candidate_iff hf).mpr (List.mem_map_of_mem hmem')

/-- Candidates of one level are ambiguous. -/
theorem resolve_of_ne {g g' : FunctionRef} (hg : s.program.Candidate f ⟨none, name⟩ level g)
    (hg' : s.program.Candidate f ⟨none, name⟩ level g') (hne : g ≠ g') :
    (s.scope key).resolve ⟨none, name⟩ = .refused (.ambiguousReference name
      (((s.scope key).candidates name level).map Scope.describe)) := by
  obtain ⟨signature, hmem, rfl⟩ := List.mem_map.mp ((h.candidate_iff hf).mp hg)
  obtain ⟨signature', hmem', rfl⟩ := List.mem_map.mp ((h.candidate_iff hf).mp hg')
  exact Scope.resolveName_of_first (h.candidates_before hf hbefore)
    (Scope.choose?_of_ne hmem hmem' hne name)

end First

end Imports

end Loaded

/-- **Calls respect visibility.** Let modules and symbols be those of the program, as they are after
every analysis and after every edit. Binding a file binds the functions that it declares, each by
the first declaration of its name, and the bound calls are those of the body that could be bound. A
call that is bound to a function is bound to a candidate: a function of the file or of the rest of
its module, or one that an imported module exports and that is known to the call through this
import. The first level at which an unqualified name has a candidate decides: one candidate is
called, however many imports bring it, and several make the call ambiguous. So the call is among the
bound calls, or the ambiguity is reported at its place. -/
theorem calls_respect_visibility :
    (∀ before units, (analyze before units).Loaded) ∧
    (∀ registry policy steps, SpelledAlike steps →
      ((start registry policy).run steps).Loaded) ∧
    ∀ s : Session, s.Loaded → ∀ key f, s.program.get? key = some f →
      let binding := Scope.bindFile s.registry s.symbols s.graph f.unit
      (∀ d ∈ f.unit.functions, ∃ b ∈ binding.functions, b.ref = ⟨key, d.node.name⟩) ∧
      (∀ b ∈ binding.functions, ∃ d ∈ f.unit.functions, b.ref = ⟨key, d.node.name⟩ ∧
        f.unit.functions.find? (·.node.name == b.ref.name) = some d ∧
        (∀ c ∈ b.calls, ∃ call ∈ Stmt.calls d.node.body, call.span = c.span ∧
          (s.scope key).resolve call.node = .bound c.callee) ∧
        ∀ call ∈ Stmt.calls d.node.body, ∀ name level, call.node = ⟨none, name⟩ →
          (∀ l g, l.rank < level.rank → ¬ s.program.Candidate f ⟨none, name⟩ l g) →
          (∀ g, s.program.Candidate f ⟨none, name⟩ level g →
            (∀ g', s.program.Candidate f ⟨none, name⟩ level g' → g' = g) →
              ⟨.function g, call.span⟩ ∈ b.calls) ∧
          ∀ g g', s.program.Candidate f ⟨none, name⟩ level g →
            s.program.Candidate f ⟨none, name⟩ level g' → g ≠ g' → ∃ candidates,
              (Finding.ambiguousReference name candidates).report f.unit.path call.span ∈
                binding.diagnostics) ∧
      (∀ path g, (s.scope key).resolve path = .bound (.function g) →
        ∃ level, s.program.Candidate f path level g) ∧
      ∀ name level, (∀ l g, l.rank < level.rank → ¬ s.program.Candidate f ⟨none, name⟩ l g) →
        (∀ g, s.program.Candidate f ⟨none, name⟩ level g →
          (∀ g', s.program.Candidate f ⟨none, name⟩ level g' → g' = g) →
            (s.scope key).resolve ⟨none, name⟩ = .bound (.function g)) ∧
        ∀ g g', s.program.Candidate f ⟨none, name⟩ level g →
          s.program.Candidate f ⟨none, name⟩ level g' → g ≠ g' → ∃ candidates,
            (s.scope key).resolve ⟨none, name⟩ =
              .refused (.ambiguousReference name candidates) := by
  refine ⟨fun before units => (current_analyze before units).toLoaded,
    fun registry policy steps h => (tracked_run registry policy h).toLoaded, ?_⟩
  intro s hs key f hf binding
  refine ⟨fun d hd => ?_, fun b hb => ?_, fun path g => hs.candidate_of_resolve hf, ?_⟩
  · obtain ⟨first, hfirst, hname⟩ := exists_firstDeclaration hd
    refine ⟨(s.scope key).boundFunction first.node, ?_, hname ▸ rfl⟩
    rw [hs.functions_bindFile hf]
    exact List.mem_map_of_mem hfirst
  · rw [hs.functions_bindFile hf] at hb
    obtain ⟨d, hd, rfl⟩ := List.mem_map.mp hb
    refine ⟨d, mem_of_mem_firstDeclarations hd, rfl, find?_of_mem_firstDeclarations hd,
      fun c hc => ?_, fun call hcall name level hname hbefore => ⟨fun g hg hall => ?_, ?_⟩⟩
    · obtain ⟨call, hcall, hbound, hspan⟩ := Scope.mem_calls_boundFunction.mp hc
      exact ⟨call, hcall, hspan, hbound⟩
    · have hbound := hs.resolve_of_unique hf hbefore hg hall
      exact Scope.mem_calls_boundFunction.mpr ⟨call, hcall, hname ▸ hbound, rfl⟩
    · intro g g' hg hg' hne
      have hrefused := hs.resolve_of_ne hf hbefore hg hg' hne
      rw [← hname] at hrefused
      exact ⟨_, hs.mem_diagnostics_bindFile hf hd
        (Scope.mem_diagnostics_bindFunction f.unit.path hcall hrefused)⟩
  · intro name level hbefore
    refine ⟨fun g hg hall => hs.resolve_of_unique hf hbefore hg hall, ?_⟩
    intro g g' hg hg' hne
    exact ⟨_, hs.resolve_of_ne hf hbefore hg hg' hne⟩

/-- A file with one function that is exported. -/
def exportingUnit (m function : String) : SourceUnit where
  path := ⟨m ++ ".cdz"⟩
  moduleDecl := some ⟨m, ⟨0, 1, 1⟩⟩
  declarations := [⟨.function { name := function, returns := .unit }, ⟨1, 1, 1⟩⟩]
  exports := [⟨function, ⟨2, 1, 1⟩⟩]

/-- A function that calls `save` by three names, and `post`. -/
def officeRun : FunctionDecl where
  name := "run"
  returns := .unit
  body := callBody { name := "save" } ++ callBody { name := "keep" } ++
    callBody { name := "post" } ++ callBody { qualifier := some "safe", name := "save" }

/-- A file that gets one function by three imports, and two functions of one name. -/
def officeUnit : SourceUnit where
  path := ⟨"office.cdz"⟩
  imports :=
    [importAll "vault" 1,
      ⟨{ target := .module "vault"
         items := .names [⟨{ name := "save" }, ⟨2, 1, 1⟩⟩,
           ⟨{ name := "save", rename := some "keep" }, ⟨2, 5, 1⟩⟩] }, ⟨2, 1, 1⟩⟩,
      ⟨{ target := .file "vault", rename := some "safe" }, ⟨3, 1, 1⟩⟩,
      importAll "mail" 4, importAll "press" 5]
  declarations := [⟨.function officeRun, ⟨6, 1, 1⟩⟩]

theorem office_calls_respect_visibility :
    let s := (start .standard {}).analyze ([exportingUnit "vault" "save",
      exportingUnit "mail" "post", exportingUnit "press" "post"] ++ [officeUnit])
    let save : FunctionRef := ⟨Path.key ⟨"vault.cdz"⟩, "save"⟩
    let scope := s.scope officeUnit.path.key
    let binding := Scope.bindFile s.registry s.symbols s.graph officeUnit
    s.Loaded ∧ scope.resolve ⟨none, "save"⟩ = .bound (.function save) ∧
    (∃ b ∈ binding.functions, b.ref = ⟨officeUnit.path.key, "run"⟩ ∧
      ⟨.function save, ⟨0, 1, 1⟩⟩ ∈ b.calls) ∧
    (∃ candidates, scope.resolve ⟨none, "post"⟩ =
      .refused (.ambiguousReference "post" candidates)) ∧
    (∃ candidates, (Finding.ambiguousReference "post" candidates).report officeUnit.path ⟨0, 1, 1⟩ ∈
      binding.diagnostics) ∧
    scope.resolve ⟨some "safe", "save"⟩ = .bound (.function save) ∧
    ∃ level,
      s.program.Candidate ⟨officeUnit.path, officeUnit⟩ ⟨some "safe", "save"⟩ level save := by
  intro s save scope binding
  obtain ⟨hanalyze, -, hvisible⟩ := calls_respect_visibility
  have hs : s.Loaded := hanalyze (start .standard {}) _
  have hf := get?_analyze_concat (start .standard {}) [exportingUnit "vault" "save",
      exportingUnit "mail" "post", exportingUnit "press" "post"] officeUnit
  obtain ⟨hdeclared, hbindings, hbound, hfirst⟩ := hvisible s hs _ _ hf
  have hnone : ∀ name ∈ ["save", "post"], ∀ l g, l.rank < Level.rank .imports →
      ¬ s.program.Candidate ⟨officeUnit.path, officeUnit⟩ ⟨none, name⟩ l g := by
    intro name hname l g hl hg
    have hmem := (hs.candidate_iff hf).mp hg
    have hempty : ∀ name ∈ ["save", "post"], scope.candidates name .file = [] ∧
      scope.candidates name .module = [] := by decide +kernel
    cases l with
    | file => exact absurd ((hempty name hname).1 ▸ hmem) List.not_mem_nil
    | module => exact absurd ((hempty name hname).2 ▸ hmem) List.not_mem_nil
    | imports => exact absurd hl (by decide)
  have honly : ∀ g, s.program.Candidate ⟨officeUnit.path, officeUnit⟩ ⟨none, "save"⟩ .imports g ↔
      g = save := by
    intro g
    have hrefs : (scope.candidates "save" .imports).map (·.ref) = [save] := by decide +kernel
    rw [hs.candidate_iff hf, hrefs, List.mem_singleton]
  have hboth : ∀ m ∈ ["mail.cdz", "press.cdz"], s.program.Candidate ⟨officeUnit.path, officeUnit⟩
      ⟨none, "post"⟩ .imports ⟨Path.key ⟨m⟩, "post"⟩ := by
    intro m hm
    have hrefs : ∀ m ∈ ["mail.cdz", "press.cdz"], (⟨Path.key ⟨m⟩, "post"⟩ : FunctionRef) ∈
        (scope.candidates "post" .imports).map (·.ref) := by decide +kernel
    exact (hs.candidate_iff hf).mpr (hrefs m hm)
  have hne : (⟨Path.key ⟨"mail.cdz"⟩, "post"⟩ : FunctionRef) ≠
      ⟨Path.key ⟨"press.cdz"⟩, "post"⟩ := by
    decide
  have hsafe : scope.resolve ⟨some "safe", "save"⟩ = .bound (.function save) := by decide +kernel
  obtain ⟨b, hb, href⟩ := hdeclared ⟨officeRun, ⟨6, 1, 1⟩⟩ (List.mem_singleton.mpr rfl)
  obtain ⟨d, hd, -, -, -, hcalls⟩ := hbindings b hb
  obtain rfl := List.mem_singleton.mp hd
  refine ⟨hs, ?_, ⟨b, hb, href, ?_⟩, ?_, ?_, hsafe, hbound _ _ hsafe⟩
  · exact (hfirst "save" .imports (hnone "save" (by simp))).1 save ((honly save).mpr rfl)
      fun g hg => (honly g).mp hg
  · have hmem : ⟨⟨none, "save"⟩, ⟨0, 1, 1⟩⟩ ∈ Stmt.calls officeRun.body :=
      List.mem_of_getElem? (i := 0) rfl
    exact (hcalls _ hmem "save" .imports rfl (hnone "save" (by simp))).1 save
      ((honly save).mpr rfl) fun g hg => (honly g).mp hg
  · exact (hfirst "post" .imports (hnone "post" (by simp))).2 _ _ (hboth "mail.cdz" (by simp))
      (hboth "press.cdz" (by simp)) hne
  · have hmem : ⟨⟨none, "post"⟩, ⟨0, 1, 1⟩⟩ ∈ Stmt.calls officeRun.body :=
      List.mem_of_getElem? (i := 2) rfl
    exact (hcalls _ hmem "post" .imports rfl (hnone "post" (by simp))).2 _ _
      (hboth "mail.cdz" (by simp)) (hboth "press.cdz" (by simp)) hne

end Session

end EffectAudit
