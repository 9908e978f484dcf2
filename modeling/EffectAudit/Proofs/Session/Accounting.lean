import EffectAudit.Proofs.Function.Accounting
import EffectAudit.Proofs.Session.Rebinding

/-!
# Calls of a program are accounted for

The binding of every file of a program accounts for all declarations of the file and for all calls
in them, whatever the file imports and whether its imports resolve.

## Main results

* `Session.Loaded.composedOf_bindFile`: a binding consists of what the declarations of its file add
* `Session.calls_accounted_for`: no call gets lost
-/

namespace EffectAudit.Session

/-- The signature of a declared function is that of the first declaration of its name. -/
theorem Loaded.exists_first {s : Session} (h : s.Loaded) {key : FileKey} {f : SourceFile}
    (hf : s.program.get? key = some f) {d : Spanned FunctionDecl} (hd : d ∈ f.unit.functions) :
    ∃ signature first, (s.scope key).own? d.node.name = some signature ∧
      f.unit.functions.find? (·.node.name == d.node.name) = some first ∧
      signature.span = first.span := by
  obtain ⟨first, hfirst, hname⟩ := exists_firstDeclaration hd
  have hlookup := h.lookup?_eq hf hfirst
  have hfind := find?_of_mem_firstDeclarations hfirst
  rw [hname] at hlookup hfind
  exact ⟨_, first, hlookup, hfind, rfl⟩

/-- The binding of a file consists of what its declarations add. -/
theorem Loaded.composedOf_bindFile {s : Session} (h : s.Loaded) {key : FileKey} {f : SourceFile}
    (hf : s.program.get? key = some f) :
    (s.scope key).ComposedOf f.unit.path f.unit.functions f.unit.functions.zipIdx
      (Scope.bindFile s.registry s.symbols s.graph f.unit) := by
  unfold Scope.bindFile
  rw [h.listed.unit_key hf]
  exact Scope.composedOf_bindDeclarations fun d hd => h.exists_first hf hd

/-- **Binding accounts for every call.** Let modules and symbols be those of the program, as they
are after every analysis and after every edit. The binding of a file consists of what its
declarations add, one by one: the first declaration of a name is bound, and each later one is
reported. In a declaration that is bound each call at any depth, in the order of a walk through the
body, is bound to an operation or to a function of the table, passed over for a failed import, or
reported once; the function is poisoned if and only if a call is not bound or a token of its `uses`
clause is unknown. So the calls of a function that is not poisoned are those of the body one by one,
each at its place. -/
theorem calls_accounted_for :
    (∀ before units, (analyze before units).Loaded) ∧
    (∀ registry policy steps, SpelledAlike steps →
      ((start registry policy).run steps).Loaded) ∧
    ∀ s : Session, s.Loaded → ∀ key f, s.program.get? key = some f →
      let binding := Scope.bindFile s.registry s.symbols s.graph f.unit
      (s.scope key).ComposedOf f.unit.path f.unit.functions f.unit.functions.zipIdx binding ∧
      ∀ b ∈ binding.functions, ∃ d,
        f.unit.functions.find? (·.node.name == b.ref.name) = some d ∧ b.ref = ⟨key, d.node.name⟩ ∧
        (b.isPoisoned = false → List.Forall₂ (fun e c => c.span = e.span ∧
          ∃ call, e.callPath? = some call ∧ (s.scope key).resolve call = .bound c.callee)
            (Stmt.callExprs d.node.body) b.calls) := by
  refine ⟨fun before units => (current_analyze before units).toLoaded,
    fun registry policy steps h => (tracked_run registry policy h).toLoaded, ?_⟩
  intro s hs key f hf binding
  refine ⟨hs.composedOf_bindFile hf, fun b hb => ?_⟩
  have hfunctions : binding.functions = _ := hs.functions_bindFile hf
  rw [hfunctions] at hb
  obtain ⟨d, hd, rfl⟩ := List.mem_map.mp hb
  have haccounts : (s.scope key).Accounts f.unit.path d.node _ _ :=
    Scope.accounts_bindFunction f.unit.path d.node
  exact ⟨d, find?_of_mem_firstDeclarations hd, rfl, haccounts.complete⟩

/-- A file that imports a name from nowhere. Its first function hands the result of an import that
has failed to one that is declared below, calls nothing that there is, and has a call in an arm of a
match; the second one is declared twice. -/
def counterUnit : SourceUnit :=
  let call (line : UInt32) (name : String) (args : List Expr) : Expr :=
    .node ⟨line, 3, 9⟩ none (.call { name } args)
  { path := ⟨"counter.cdz"⟩
    imports := [⟨{ target := .module "ghost", items := .names [⟨{ name := "ticket" }, ⟨1, 8, 6⟩⟩] },
      ⟨1, 1, 20⟩⟩]
    declarations :=
      [⟨.function { name := "serve"
                    returns := .unit
                    body := [.node ⟨3, 3, 9⟩ (.expr (call 3 "greet" [call 4 "ticket" []])),
                      .node ⟨5, 3, 9⟩ (.expr (.node ⟨5, 3, 9⟩ none (.matching (call 6 "nobody" [])
                        [.node ⟨7, 3, 9⟩ ⟨.wildcard, ⟨7, 3, 1⟩⟩ (.expr (call 8 "greet" []))])))] },
          ⟨2, 1, 10⟩⟩,
        ⟨.function { name := "greet", returns := .unit
                     body := [.node ⟨10, 3, 9⟩ (.expr (call 10 "print" []))] }, ⟨9, 1, 10⟩⟩,
        ⟨.function { name := "greet", returns := .unit }, ⟨11, 1, 10⟩⟩] }

theorem counter_calls_accounted_for :
    let s := (start .standard {}).analyze [counterUnit]
    let binding := Scope.bindFile s.registry s.symbols s.graph counterUnit
    s.Loaded ∧
    binding.functions.map (fun b => (b.ref.name, b.calls.map (·.span.line), b.isPoisoned)) =
      [("serve", [3, 8], true), ("greet", [10], false)] ∧
    binding.diagnostics.map (fun d => (d.rule, d.location.span.line)) =
      [(.unresolvedReference, 6), (.duplicateFunction, 11)] ∧
    (s.scope counterUnit.path.key).ComposedOf counterUnit.path counterUnit.functions
      counterUnit.functions.zipIdx binding := by
  intro s binding
  obtain ⟨hanalyze, -, haccounts⟩ := calls_accounted_for
  have hs : s.Loaded := hanalyze (start .standard {}) [counterUnit]
  exact ⟨hs, by decide +kernel, by decide +kernel,
    (haccounts s hs counterUnit.path.key ⟨counterUnit.path, counterUnit⟩ rfl).1⟩

end EffectAudit.Session
