import EffectAudit.Proofs.CallGraph
import EffectAudit.Proofs.Function.Binding
import EffectAudit.Proofs.Modules.Files
import EffectAudit.Session.State

/-!
# Sessions whose files are bound

A session is loaded if its modules and symbols are those of its program, and bound if moreover every
file that is not halted has the binding that its scope gives it. In a bound session, functions with
bodies are the first declarations in these files, and what they call is visible to them.

## Main definitions

* `Session.scope`: what is visible in a file
* `Session.Loaded`, `Session.Bound`: modules, symbols and bindings are up to date
* `Session.SameProgram`: sessions that differ at most in what was found about their program

## Main results

* `Session.Loaded.freshBinding?_congr`: what the binding of a file depends on
* `Session.Bound.body?_linked`, `Session.Bound.exists_decl`, `Session.Bound.exists_body`: the bodies
  of functions
* `Session.Bound.closed_linked`: functions with bodies and callees are in the symbol table
* `Session.Bound.calls_iff`: which functions call which
* `Session.Bound.visible_of_calls`: callees are visible
-/

namespace EffectAudit.Session

/-- What is visible in a file. -/
def scope (s : Session) (key : FileKey) : Scope := ⟨s.registry, s.symbols, s.graph, key⟩

/-- The binding that a file should have, with the path by which the file is listed. -/
def freshBinding? (s : Session) (key : FileKey) : Option (Path × FileBinding) :=
  (s.program.get? key).bind fun f =>
    if s.graph.isHalted key then none
    else some (f.path, Scope.bindFile s.registry s.symbols s.graph f.unit)

/-- Modules and symbols are those of the program. -/
structure Loaded (s : Session) : Prop where
  listed : s.program.WellListed
  graph : s.graph = .build s.program s.policy
  symbols : ∀ key, s.symbols.files.get? key = (s.program.get? key).map fun f =>
    FileSymbols.ofUnit s.registry f.moduleName f.unit

/-- Bindings are those that the scopes of files give. -/
structure Bound (s : Session) : Prop extends Loaded s where
  bindings : ∀ key, s.bindings.get? key = s.freshBinding? key

/-- Two sessions that hold the same program with the same bindings. -/
structure SameProgram (s t : Session) : Prop where
  registry : s.registry = t.registry
  policy : s.policy = t.policy
  program : s.program = t.program
  graph : s.graph = t.graph
  symbols : s.symbols = t.symbols
  bindings : s.bindings = t.bindings

namespace SameProgram

variable {s t : Session} (h : s.SameProgram t)

include h

theorem linked_eq : s.linked = t.linked := by
  unfold linked
  rw [h.registry, h.symbols, h.bindings]

theorem binding?_eq (key : FileKey) : s.binding? key = t.binding? key := by
  unfold binding?
  rw [h.bindings]

theorem bound (ht : t.Bound) : s.Bound where
  listed := h.program ▸ ht.listed
  graph := by rw [h.graph, h.program, h.policy, ht.graph]
  symbols key := by rw [h.symbols, h.program, h.registry, ht.symbols]
  bindings key := by
    unfold freshBinding?
    rw [h.bindings, h.program, h.graph, h.registry, h.symbols]
    exact ht.bindings key

end SameProgram

/-! ## Loaded sessions -/

namespace Loaded

variable {s : Session} (h : s.Loaded)

include h

theorem moduleOf?_eq (key : FileKey) :
    s.graph.moduleOf? key = (s.program.get? key).map (·.moduleName) := by
  rw [h.graph]
  rfl

theorem filesOf_eq (m : String) :
    s.graph.filesOf m = (ModuleTable.ofProgram s.program).filesOf m := by
  rw [h.graph]
  rfl

theorem signaturesIn_eq {key : FileKey} {f : SourceFile} (hf : s.program.get? key = some f) :
    s.symbols.signaturesIn key =
      (FileSymbols.ofUnit s.registry f.moduleName f.unit).signatures := by
  rw [SymbolTable.signaturesIn_eq, h.symbols, hf]
  rfl

theorem exists_file_of_mem {key : FileKey} {sig : Signature}
    (hs : sig ∈ s.symbols.signaturesIn key) : ∃ f, s.program.get? key = some f := by
  cases hf : s.program.get? key with
  | none =>
    rw [SymbolTable.signaturesIn_eq, h.symbols, hf] at hs
    exact absurd hs List.not_mem_nil
  | some f => exact ⟨f, rfl⟩

/-- The signature of a function is that of the first declaration of its name. -/
theorem lookup?_eq {key : FileKey} {f : SourceFile} (hf : s.program.get? key = some f)
    {d : Spanned FunctionDecl} (hd : d ∈ firstDeclarations f.unit.functions) :
    s.symbols.lookup? ⟨key, d.node.name⟩ =
      some (Signature.ofDecl s.registry f.moduleName f.unit d) := by
  have hmem : Signature.ofDecl s.registry f.moduleName f.unit d ∈ s.symbols.signaturesIn key := by
    rw [h.signaturesIn_eq hf]
    exact List.mem_map.mpr ⟨d, hd, rfl⟩
  refine SymbolTable.lookup?_eq_some_iff.mpr ⟨SymbolTable.mem_signatures.mpr ⟨key, hmem⟩, ?_⟩
  show (⟨f.unit.path.key, d.node.name⟩ : FunctionRef) = _
  rw [h.listed.unit_key hf]

/-- A function of the table is declared in its file. -/
theorem exists_decl_of_lookup? {g : FunctionRef} {sig : Signature}
    (hg : s.symbols.lookup? g = some sig) :
    ∃ f, s.program.get? g.file = some f ∧ ∃ d ∈ firstDeclarations f.unit.functions,
      d.node.name = g.name ∧ sig = Signature.ofDecl s.registry f.moduleName f.unit d := by
  have hmem : sig ∈ s.symbols.signaturesIn g.file :=
    SymbolTable.mem_signaturesIn_of_lookup? hg
  obtain ⟨f, hf⟩ := h.exists_file_of_mem hmem
  rw [h.signaturesIn_eq hf] at hmem
  obtain ⟨d, hd, rfl⟩ := List.mem_map.mp hmem
  refine ⟨f, hf, d, hd, ?_, rfl⟩
  exact congrArg FunctionRef.name (SymbolTable.ref_of_lookup? hg)

/-- All first declarations of a file are bound when the file is. -/
theorem functions_bindFile {key : FileKey} {f : SourceFile} (hf : s.program.get? key = some f) :
    (Scope.bindFile s.registry s.symbols s.graph f.unit).functions =
      (firstDeclarations f.unit.functions).map fun d => (s.scope key).boundFunction d.node := by
  unfold Scope.bindFile
  rw [Scope.functions_bindDeclarations, h.listed.unit_key hf]
  have hall : (firstDeclarations f.unit.functions).filter ((s.scope key).binds []) =
      firstDeclarations f.unit.functions := by
    refine List.filter_eq_self.mpr fun d hd => ?_
    have hown : (s.scope key).own? d.node.name =
        some (Signature.ofDecl s.registry f.moduleName f.unit d) := h.lookup?_eq hf hd
    simp [Scope.binds, hown]
  exact congrArg _ hall

/-- What is reported of a first declaration of a file is reported when the file is bound. -/
theorem mem_diagnostics_bindFile {key : FileKey} {f : SourceFile} (hf : s.program.get? key = some f)
    {d : Spanned FunctionDecl} (hd : d ∈ firstDeclarations f.unit.functions)
    {diagnostic : Diagnostic}
    (hmem : diagnostic ∈ ((s.scope key).bindFunction f.unit.path d.node).diagnostics) :
    diagnostic ∈ (Scope.bindFile s.registry s.symbols s.graph f.unit).diagnostics := by
  have hown : (s.scope key).own? d.node.name =
      some (Signature.ofDecl s.registry f.moduleName f.unit d) := h.lookup?_eq hf hd
  have hbinds : (s.scope key).binds [] d = true := by simp [Scope.binds, hown]
  unfold Scope.bindFile
  rw [h.listed.unit_key hf]
  exact Scope.mem_diagnostics_bindDeclarations hd hbinds hmem

/-- What is reported of a file where all functions have different names. -/
theorem diagnostics_bindFile {key : FileKey} {f : SourceFile} (hf : s.program.get? key = some f)
    (hnodup : (f.unit.functions.map (·.node.name)).Nodup) :
    (Scope.bindFile s.registry s.symbols s.graph f.unit).diagnostics =
      f.unit.functions.flatMap fun d =>
        ((s.scope key).bindFunction f.unit.path d.node).diagnostics := by
  unfold Scope.bindFile
  rw [h.listed.unit_key hf]
  refine Scope.diagnostics_bindDeclarations (fun d hd => ?_) (fun _ _ => List.not_mem_nil) hnodup
  rw [← firstDeclarations_eq_self hnodup] at hd
  exact Option.isSome_iff_exists.mpr ⟨_, h.lookup?_eq hf hd⟩

omit h in
theorem freshBinding?_eq_some_iff {key : FileKey} {b : Path × FileBinding} :
    s.freshBinding? key = some b ↔ ∃ f, s.program.get? key = some f ∧
      s.graph.isHalted key = false ∧
      b = (f.path, Scope.bindFile s.registry s.symbols s.graph f.unit) := by
  unfold freshBinding?
  rw [Option.bind_eq_some_iff]
  refine exists_congr fun f => and_congr_right fun _ => ?_
  cases s.graph.isHalted key with
  | true => simp
  | false => simp [eq_comm]

/-- A file has the same binding in scopes that agree, if it is halted in both or in none. -/
theorem freshBinding?_congr {t : Session} {key : FileKey}
    (hfile : t.program.get? key = s.program.get? key)
    (hagrees : ∀ f, s.program.get? key = some f →
      t.graph.isHalted key = s.graph.isHalted key ∧ (t.scope key).Agrees (s.scope key)) :
    t.freshBinding? key = s.freshBinding? key := by
  unfold freshBinding?
  rw [hfile]
  cases hf : s.program.get? key with
  | none => rfl
  | some f =>
    obtain ⟨hhalted, hscope⟩ := hagrees f hf
    have hbind : Scope.bindFile t.registry t.symbols t.graph f.unit =
        Scope.bindFile s.registry s.symbols s.graph f.unit := by
      unfold Scope.bindFile
      rw [h.listed.unit_key hf]
      exact hscope.bindDeclarations_eq _ _ _
    rw [Option.bind_some, Option.bind_some, hbind, hhalted]

end Loaded

/-! ## Bound sessions -/

namespace Bound

variable {s : Session} (h : s.Bound)

include h

/-- The bound functions of a file are its first declarations. -/
theorem mem_functions_iff {key : FileKey} {b : BoundFunction} :
    (∃ e, s.bindings.get? key = some e ∧ b ∈ e.2.functions) ↔
      ∃ f, s.program.get? key = some f ∧ s.graph.isHalted key = false ∧
        ∃ d ∈ firstDeclarations f.unit.functions, b = (s.scope key).boundFunction d.node := by
  constructor
  · rintro ⟨e, he, hb⟩
    rw [h.bindings] at he
    obtain ⟨f, hf, hhalt, rfl⟩ := Loaded.freshBinding?_eq_some_iff.mp he
    rw [h.functions_bindFile hf] at hb
    obtain ⟨d, hd, rfl⟩ := List.mem_map.mp hb
    exact ⟨f, hf, hhalt, d, hd, rfl⟩
  · rintro ⟨f, hf, hhalt, d, hd, rfl⟩
    refine ⟨_, (h.bindings key).trans (Loaded.freshBinding?_eq_some_iff.mpr ⟨f, hf, hhalt, rfl⟩),
      ?_⟩
    rw [h.functions_bindFile hf]
    exact List.mem_map.mpr ⟨d, hd, rfl⟩

theorem mem_values_iff {b : BoundFunction} :
    b ∈ s.bindings.values.flatMap (fun e => e.2.functions) ↔
      ∃ f, s.program.get? b.ref.file = some f ∧ s.graph.isHalted b.ref.file = false ∧
        ∃ d ∈ firstDeclarations f.unit.functions,
          b = (s.scope b.ref.file).boundFunction d.node := by
  rw [List.mem_flatMap]
  constructor
  · rintro ⟨e, he, hb⟩
    obtain ⟨key, hk⟩ := OrderedMap.mem_values.mp he
    obtain ⟨f, hf, hhalt, d, hd, rfl⟩ := h.mem_functions_iff.mp ⟨e, hk, hb⟩
    exact ⟨f, hf, hhalt, d, hd, rfl⟩
  · intro hb
    obtain ⟨e, he, hb⟩ := h.mem_functions_iff.mpr hb
    exact ⟨e, OrderedMap.mem_values.mpr ⟨_, he⟩, hb⟩

omit h in
/-- First declarations are determined by their names. -/
theorem eq_of_name_eq {ds : List (Spanned FunctionDecl)} {d d' : Spanned FunctionDecl}
    (hd : d ∈ firstDeclarations ds) (hd' : d' ∈ firstDeclarations ds)
    (hn : d.node.name = d'.node.name) : d = d' :=
  List.inj_on_of_nodup_map (nodup_firstDeclarations ds) hd hd' hn

theorem inj_ref : ∀ b ∈ s.bindings.values.flatMap (fun e => e.2.functions),
    ∀ b' ∈ s.bindings.values.flatMap (fun e => e.2.functions), b.ref = b'.ref → b = b' := by
  intro b hb b' hb' hr
  obtain ⟨f, hf, -, d, hd, hbd⟩ := h.mem_values_iff.mp hb
  obtain ⟨f', hf', -, d', hd', hbd'⟩ := h.mem_values_iff.mp hb'
  rw [← hr, hf] at hf'
  cases hf'
  have hn : d.node.name = d'.node.name := by
    rw [hbd, hbd'] at hr
    exact congrArg FunctionRef.name hr
  rw [hbd, hbd', eq_of_name_eq hd hd' hn, hr]

/-- The body of a function comes from a first declaration in its file. -/
theorem exists_decl {g : FunctionRef} {b : BoundFunction} :
    s.linked.body? g = some b ↔ ∃ f, s.program.get? g.file = some f ∧
      s.graph.isHalted g.file = false ∧ ∃ d ∈ firstDeclarations f.unit.functions,
        d.node.name = g.name ∧ b = (s.scope g.file).boundFunction d.node := by
  unfold linked
  rw [LinkedProgram.body?_ofBodies h.inj_ref, h.mem_values_iff]
  constructor
  · rintro ⟨⟨f, hf, hhalt, d, hd, hb⟩, rfl⟩
    exact ⟨f, hf, hhalt, d, hd, by rw [hb]; rfl, hb⟩
  · rintro ⟨f, hf, hhalt, d, hd, hn, rfl⟩
    have href : ((s.scope g.file).boundFunction d.node).ref = g := by
      show (⟨g.file, d.node.name⟩ : FunctionRef) = g
      rw [hn]
    exact ⟨⟨f, by rw [href]; exact hf, by rw [href]; exact hhalt, d, hd, by rw [href]⟩, href⟩

/-- A function of the table has a body unless its file is halted. -/
theorem exists_body {g : FunctionRef} (hg : g ∈ s.symbols.functions)
    (hhalt : ∀ file, s.program.get? g.file = some file → s.graph.isHalted g.file = false) :
    ∃ b, s.linked.body? g = some b := by
  obtain ⟨signature, hsignature⟩ := SymbolTable.mem_functions_iff.mp hg
  obtain ⟨file, hfile, d, hd, hname, -⟩ := h.exists_decl_of_lookup? hsignature
  exact ⟨_, h.exists_decl.mpr ⟨file, hfile, hhalt file hfile, d, hd, hname, rfl⟩⟩

/-- The body of a function is found in the binding of its file. -/
theorem body?_linked (g : FunctionRef) :
    s.linked.body? g = (s.bindings.get? g.file).bind fun e => e.2.function? g := by
  refine Option.ext fun b => ?_
  unfold linked
  rw [LinkedProgram.body?_ofBodies h.inj_ref, Option.bind_eq_some_iff]
  have hvalue : ∀ {key e b}, s.bindings.get? key = some e → b ∈ e.2.functions →
      b ∈ s.bindings.values.flatMap fun e => e.2.functions :=
    fun he hb => List.mem_flatMap.mpr ⟨_, OrderedMap.mem_values.mpr ⟨_, he⟩, hb⟩
  constructor
  · rintro ⟨hb, rfl⟩
    obtain ⟨e, he, hbe⟩ := h.mem_functions_iff.mpr (h.mem_values_iff.mp hb)
    refine ⟨e, he, FileBinding.function?_eq_some hbe fun b' hb' href => ?_⟩
    exact h.inj_ref b' (hvalue he hb') b hb href
  · rintro ⟨e, he, hb⟩
    obtain ⟨hm, href⟩ := FileBinding.of_function? hb
    exact ⟨hvalue he hm, href⟩

/-- A bound function of a file calls its callees. -/
theorem calls_of_mem {key : FileKey} {e : Path × FileBinding} {b : BoundFunction}
    {g : FunctionRef} (he : s.bindings.get? key = some e) (hb : b ∈ e.2.functions)
    (hg : g ∈ b.callees) : b.ref.file = key ∧ s.linked.Calls b.ref g := by
  obtain ⟨f, hf, hhalt, d, hd, rfl⟩ := h.mem_functions_iff.mp ⟨e, he, hb⟩
  have hbody : s.linked.body? ⟨key, d.node.name⟩ = some ((s.scope key).boundFunction d.node) :=
    h.exists_decl.mpr ⟨f, hf, hhalt, d, hd, rfl, rfl⟩
  exact ⟨rfl, (LinkedProgram.calls_of_body hbody).mpr hg⟩

/-- A function calls what the calls in its first declaration are resolved to. -/
theorem calls_iff {f g : FunctionRef} :
    s.linked.Calls f g ↔ s.graph.isHalted f.file = false ∧
      ∃ ds, (s.program.get? f.file).map (·.unit.functions) = some ds ∧
        ∃ d ∈ firstDeclarations ds, d.node.name = f.name ∧
          ∃ call ∈ Stmt.calls d.node.body,
            (s.scope f.file).resolve call.node = .bound (.function g) := by
  constructor
  · intro hcall
    obtain ⟨b, hb, hg⟩ := hcall.exists_body
    obtain ⟨file, hfile, hhalt, d, hd, hname, rfl⟩ := h.exists_decl.mp hb
    obtain ⟨c, hc, hcallee⟩ := BoundFunction.mem_callees_iff.mp hg
    obtain ⟨call, hmem, hr, -⟩ := Scope.mem_calls_boundFunction.mp hc
    exact ⟨hhalt, _, congrArg (Option.map _) hfile, d, hd, hname, call, hmem, hcallee ▸ hr⟩
  · rintro ⟨hhalt, ds, hds, d, hd, hname, call, hmem, hr⟩
    obtain ⟨file, hfile, rfl⟩ := Option.map_eq_some_iff.mp hds
    have hbody := h.exists_decl.mpr ⟨file, hfile, hhalt, d, hd, hname, rfl⟩
    refine (LinkedProgram.calls_of_body hbody).mpr (BoundFunction.mem_callees_iff.mpr ?_)
    exact ⟨⟨.function g, call.span⟩,
      Scope.mem_calls_boundFunction.mpr ⟨call, hmem, hr, rfl⟩, rfl⟩

/-- Functions that are called are visible to their callers. -/
theorem visible_of_calls {f g : FunctionRef} (hc : s.linked.Calls f g) :
    (s.scope f.file).Visible g := by
  obtain ⟨c, hc, hg⟩ := hc
  cases hb : s.linked.body? f with
  | none =>
    rw [LinkedProgram.sites_of_no_body hb] at hc
    exact absurd hc List.not_mem_nil
  | some b =>
    rw [LinkedProgram.sites_of_body hb] at hc
    obtain ⟨-, -, -, d, -, -, rfl⟩ := h.exists_decl.mp hb
    exact Scope.visible_of_mem_callees hc hg

/-- Functions with bodies and functions that are called are in the symbol table. -/
theorem closed_linked : s.linked.Closed where
  body f b hb := by
    obtain ⟨file, hf, -, d, hd, hn, -⟩ := h.exists_decl.mp hb
    have hl := h.lookup?_eq hf hd
    rw [hn] at hl
    exact SymbolTable.mem_functions_iff.mpr ⟨_, hl⟩
  callee f g hc := SymbolTable.mem_functions_iff.mpr (h.visible_of_calls hc).1

end Bound

end EffectAudit.Session
