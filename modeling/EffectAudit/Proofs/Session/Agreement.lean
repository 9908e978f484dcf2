import EffectAudit.Proofs.Locality
import EffectAudit.Proofs.Session.Current

/-!
# Sessions that agree on a file

What is published of a file depends on the file with its binding and its diagnostics about modules,
on the functions that those of the file reach, and on the conversions between error types. Two
current sessions that agree on these publish the same of the file, whatever else their programs
have.

## Main definitions

* `Session.SameModules`: two sessions hold one program with the same modules
* `Session.AgreesAt`: two sessions agree on what decides the diagnostics of a file

## Main results

* `Session.Bound.sameAt`: functions of files with the same bindings
* `Session.Verified.get?_summaries_congr`, `Session.Verified.get?_effectFaults_congr`: what is found
  about the effects of a function
* `Session.SameModules.bindings_eq`, `Session.SameModules.summaries_eq`: what does not depend on the
  policy
* `Session.AgreesAt.published_eq`: the diagnostics of a file that sessions agree on
-/

namespace EffectAudit.Session

variable {s t : Session} {key : FileKey}

/-! ## Symbols and bindings -/

theorem Loaded.get?_symbols_congr (hs : s.Loaded) (ht : t.Loaded) (hreg : s.registry = t.registry)
    (hfile : s.program.get? key = t.program.get? key) :
    s.symbols.files.get? key = t.symbols.files.get? key := by
  rw [hs.symbols, ht.symbols, hreg, hfile]

/-- The same functions are visible in a file if modules have the same files, functions the same
signatures, and the file imports the same. -/
theorem seesAlike_of_lookup? (hreg : s.registry = t.registry)
    (hmodule : s.graph.moduleOf? key = t.graph.moduleOf? key)
    (himports : (s.scope key).resolution.imports = (t.scope key).resolution.imports)
    (hfiles : ∀ m, s.graph.filesOf m = t.graph.filesOf m)
    (hlookup : ∀ f, s.symbols.lookup? f = t.symbols.lookup? f) :
    (s.scope key).SeesAlike (t.scope key) where
  registry := hreg
  file := rfl
  moduleName := congrArg (·.getD "") hmodule
  imports := himports
  own _ := hlookup _
  defined m name _ := by
    unfold Scope.defined SymbolTable.lookupIn scope
    rw [hfiles]
    exact List.filterMap_congr fun k _ => hlookup ⟨k, name⟩

/-- Of a function the same is known if its file has the same symbols and the same binding. -/
theorem Bound.sameAt (hs : s.Bound) (ht : t.Bound) {g : FunctionRef}
    (hsymbols : s.symbols.files.get? g.file = t.symbols.files.get? g.file)
    (hbindings : s.bindings.get? g.file = t.bindings.get? g.file) :
    s.linked.SameAt t.linked g := by
  refine ⟨?_, SymbolTable.lookup?_congr hsymbols⟩
  rw [hs.body?_linked, ht.body?_linked, hbindings]

/-! ## Effects -/

section Effects

variable (hs : s.Verified) (ht : t.Verified) (hreg : s.registry = t.registry) {f : FunctionRef}
  (h : ∀ g, s.linked.Reaches f g → s.linked.SameAt t.linked g)

include hs ht hreg h

/-- The summary of a function is the same where the same is known of all that it reaches. -/
theorem Verified.get?_summaries_congr : s.summaries.get? f = t.summaries.get? f := by
  have hmem : f ∈ s.symbols.functions ↔ f ∈ t.symbols.functions := by
    have hlookup : s.symbols.lookup? f = t.symbols.lookup? f := (h f .refl).2
    rw [SymbolTable.mem_functions_iff, SymbolTable.mem_functions_iff, hlookup]
  rw [hs.summaries f, ht.summaries f]
  exact if_congr hmem (congrArg some (LinkedProgram.exactSummary_congr hreg h)) rfl

/-- So are the faults in its effects. -/
theorem Verified.get?_effectFaults_congr (hpolicy : s.policy = t.policy) :
    s.effectFaults.get? f = t.effectFaults.get? f := by
  have hlookup : s.symbols.lookup? f = t.symbols.lookup? f := (h f .refl).2
  have hsummaries : ∀ g, s.linked.Reaches f g → s.summaries.get? g = t.summaries.get? g :=
    fun g hr => hs.get?_summaries_congr ht hreg fun k hk => h k (hr.trans hk)
  have hfaults := LinkedProgram.effectFaults_congr hreg h hsummaries hs.summaries
    s.policy.ignored
  have heq : s.faultsOf s.linked s.summaries f = t.faultsOf t.linked t.summaries f := by
    unfold faultsOf
    rw [hlookup, hfaults, hpolicy]
  rw [hs.faults, ht.faults]
  unfold freshFaults?
  rw [heq]

end Effects

/-! ## One program with the same modules -/

theorem lookup?_eq_of_files (h : s.symbols.files = t.symbols.files) (f : FunctionRef) :
    s.symbols.lookup? f = t.symbols.lookup? f :=
  SymbolTable.lookup?_congr (congrArg (·.get? f.file) h)

theorem converts_eq_of_files (h : s.symbols.files = t.symbols.files) :
    s.symbols.converts = t.symbols.converts :=
  SymbolTable.converts_congr fun key c => by
    rw [SymbolTable.conversionsIn_congr (congrArg (·.get? key) h)]

/-- Two sessions hold one program and see the same modules in it. Their policies may be
different. -/
structure SameModules (s t : Session) : Prop where
  registry : s.registry = t.registry
  program : s.program = t.program
  graph : s.graph = t.graph

namespace SameModules

variable (h : s.SameModules t)

include h

theorem files_eq (hs : s.Loaded) (ht : t.Loaded) : s.symbols.files = t.symbols.files :=
  OrderedMap.ext_get? fun key =>
    hs.get?_symbols_congr ht h.registry (congrArg (·.get? key) h.program)

theorem agrees (hs : s.Loaded) (ht : t.Loaded) (key : FileKey) :
    (s.scope key).Agrees (t.scope key) := by
  have hresolution : (s.scope key).resolution = (t.scope key).resolution := by
    unfold Scope.resolution scope
    rw [h.graph]
  refine (seesAlike_of_lookup? h.registry (by rw [h.graph]) (congrArg (·.imports) hresolution)
    (fun m => by rw [h.graph]) fun f => ?_).agrees hresolution
  exact lookup?_eq_of_files (h.files_eq hs ht) f

theorem bindings_eq (hs : s.Bound) (ht : t.Bound) : s.bindings = t.bindings :=
  OrderedMap.ext_get? fun key => by
    rw [hs.bindings, ht.bindings]
    refine ht.freshBinding?_congr (congrArg (·.get? key) h.program) fun _ _ => ⟨?_, ?_⟩
    · rw [h.graph]
    · exact h.agrees hs.toLoaded ht.toLoaded key

theorem sameAt (hs : s.Bound) (ht : t.Bound) (f : FunctionRef) : s.linked.SameAt t.linked f :=
  hs.sameAt ht (congrArg (·.get? f.file) (h.files_eq hs.toLoaded ht.toLoaded))
    (congrArg (·.get? f.file) (h.bindings_eq hs ht))

theorem summaries_eq (hs : s.Verified) (ht : t.Verified) : s.summaries = t.summaries :=
  OrderedMap.ext_get? fun _ =>
    hs.get?_summaries_congr ht h.registry fun g _ => h.sameAt hs.toBound ht.toBound g

theorem summary?_eq (hs : s.Verified) (ht : t.Verified) (f : FunctionRef) :
    s.summary? f = t.summary? f := by
  unfold summary?
  rw [lookup?_eq_of_files (h.files_eq hs.toLoaded ht.toLoaded), h.summaries_eq hs ht]

theorem order_eq : s.order = t.order := by
  unfold order
  rw [h.graph, h.program]

end SameModules

/-! ## Diagnostics -/

/-- Two sessions agree on a file: it is the same file, with the same binding and the same
diagnostics about modules, the same is known of the functions that its own functions reach, and
errors convert alike. -/
structure AgreesAt (s t : Session) (key : FileKey) : Prop where
  registry : s.registry = t.registry
  policy : s.policy = t.policy
  file : s.program.get? key = t.program.get? key
  diagnostics : s.graph.diagnosticsOf key = t.graph.diagnosticsOf key
  bindings : s.bindings.get? key = t.bindings.get? key
  converts : s.symbols.converts = t.symbols.converts
  reached : ∀ f ∈ s.symbols.functionsIn key, ∀ g, s.linked.Reaches f g → s.linked.SameAt t.linked g

namespace AgreesAt

variable (h : s.AgreesAt t key) (hs : s.Current) (ht : t.Current)

include h hs ht

theorem get?_symbols : s.symbols.files.get? key = t.symbols.files.get? key :=
  hs.toLoaded.get?_symbols_congr ht.toLoaded h.registry h.file

theorem functionsIn_eq : s.symbols.functionsIn key = t.symbols.functionsIn key :=
  SymbolTable.functionsIn_congr (h.get?_symbols hs ht)

theorem get?_effectFaults {f : FunctionRef} (hf : f ∈ s.symbols.functionsIn key) :
    s.effectFaults.get? f = t.effectFaults.get? f :=
  hs.toVerified.get?_effectFaults_congr ht.toVerified h.registry (h.reached f hf) h.policy

theorem get?_discharge : s.discharge.get? key = t.discharge.get? key := by
  rw [hs.discharge, ht.discharge]
  unfold freshDischarge? binding?
  rw [h.file, h.policy, ← h.bindings]
  cases hf : t.program.get? key with
  | none => rw [Option.bind_none, Option.bind_none]
  | some f =>
    cases he : s.bindings.get? key with
    | none =>
      rw [Option.map_none, Option.bind_some, Option.bind_some, Option.map_none, Option.map_none]
    | some e =>
      have heq : s.linked.fileDischarge e.2 f.unit = t.linked.fileDischarge e.2 f.unit := by
        refine LinkedProgram.fileDischarge_congr h.converts (fun name => ?_) fun b hb g hg => ?_
        · refine SymbolTable.lookup?_congr ?_
          rw [ht.listed.unit_key hf]
          exact h.get?_symbols hs ht
        · -- what the file calls is reached from the caller, which is a function of the file
          obtain ⟨rfl, hcall⟩ := hs.calls_of_mem he hb hg
          obtain ⟨body, hbody, -⟩ := hcall.exists_body
          have hmem := SymbolTable.mem_functionsIn_iff.mpr
            ⟨hs.closed_linked.body b.ref body hbody, rfl⟩
          exact (h.reached b.ref hmem g (.single hcall)).2
      rw [Option.bind_some, Option.bind_some, Option.map_some, Option.map_some, Option.map_some,
        heq]

theorem found_eq : s.found key = t.found key := by
  have hfaults : ((s.symbols.functionsIn key).flatMap fun f => (s.effectFaults.get? f).getD []) =
      (t.symbols.functionsIn key).flatMap fun f => (t.effectFaults.get? f).getD [] := by
    rw [← h.functionsIn_eq hs ht]
    exact congrArg List.flatten
      (List.map_congr_left fun f hf => by rw [h.get?_effectFaults hs ht hf])
  unfold found binding?
  rw [h.diagnostics, h.bindings, hfaults, h.get?_discharge hs ht]

/-- **What is published of a file depends on nothing but what sessions that agree on it agree
on.** -/
theorem published_eq : s.published.get? key = t.published.get? key := by
  have hfound := h.found_eq hs ht
  rw [hs.published, ht.published]
  unfold freshShown? shownDiagnostics
  rw [h.file, h.policy, hfound]

end AgreesAt

end EffectAudit.Session
