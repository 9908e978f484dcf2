import EffectAudit.Function.Binding
import EffectAudit.Proofs.Function.Scope
import Mathlib.Data.List.Nodup

/-!
# What binding a file gives

Binding a file binds the first declaration of each function that is in the symbol table. What comes
out depends on nothing but the scope of the file.

## Main definitions

* `Scope.boundFunction`: the bound calls of one declaration

## Main results

* `Scope.functions_bindDeclarations`: which functions are bound
* `Scope.mem_diagnostics_bindDeclarations`: what is reported of a declaration
* `Scope.diagnostics_bindDeclarations`: what is reported where all names are different
* `Scope.mem_calls_boundFunction`: the bound calls of a function
* `Scope.calleeAt?_boundFunction`: what is found at the place of a call
* `Scope.Agrees.bindDeclarations_eq`: binding in scopes that agree
-/

namespace EffectAudit

theorem FileBinding.of_function? {b : FileBinding} {g : FunctionRef} {f : BoundFunction}
    (h : b.function? g = some f) : f ∈ b.functions ∧ f.ref = g := by
  unfold function? at h
  exact ⟨List.mem_of_find?_eq_some h, by simpa using List.find?_some h⟩

/-- If functions are told apart by their identities, each is found by its own. -/
theorem FileBinding.function?_eq_some {b : FileBinding} {f : BoundFunction}
    (hf : f ∈ b.functions) (hinj : ∀ f' ∈ b.functions, f'.ref = f.ref → f' = f) :
    b.function? f.ref = some f := by
  cases hg : b.function? f.ref with
  | none =>
    unfold function? at hg
    exact absurd (List.find?_eq_none.mp hg f hf) (by simp)
  | some f' => exact congrArg some (hinj f' (of_function? hg).1 (of_function? hg).2)

namespace Scope

/-- The bound calls of a declaration. -/
def boundFunction (s : Scope) (d : FunctionDecl) : BoundFunction where
  ref := ⟨s.file, d.name⟩
  calls := (Stmt.calls d.body).filterMap s.site?
  isPoisoned := !(s.unknownTokens d).isEmpty || (Stmt.calls d.body).any fun c => (s.site? c).isNone

theorem functions_bindFunction (s : Scope) (path : Path) (d : FunctionDecl) :
    (s.bindFunction path d).functions = [s.boundFunction d] := rfl

theorem functions_append (a b : FileBinding) : (a ++ b).functions = a.functions ++ b.functions :=
  rfl

theorem diagnostics_append (a b : FileBinding) :
    (a ++ b).diagnostics = a.diagnostics ++ b.diagnostics := rfl

/-- Whether a declaration is bound, where functions with the given names are bound already. -/
def binds (s : Scope) (names : List String) (d : Spanned FunctionDecl) : Bool :=
  (s.own? d.node.name).isSome && decide (d.node.name ∉ names)

/-- Later declarations of a name that is not bound are not bound either. -/
theorem filter_binds_of_false {s : Scope} {names : List String} {d : Spanned FunctionDecl}
    (hd : s.binds names d = false) (ds : List (Spanned FunctionDecl)) :
    (ds.filter fun e => s.binds names e && decide (e.node.name ≠ d.node.name)) =
      ds.filter (s.binds names) := by
  refine List.filter_congr fun e _ => ?_
  by_cases he : e.node.name = d.node.name
  · have hsame : s.binds names e = s.binds names d := by
      unfold binds
      rw [he]
    rw [hsame, hd]
    rfl
  · simp [he]

theorem binds_cons {s : Scope} {names : List String} {name : String} {e : Spanned FunctionDecl} :
    s.binds (name :: names) e = (s.binds names e && decide (e.node.name ≠ name)) := by
  unfold binds
  rw [Bool.and_assoc, ← Bool.decide_and]
  refine congrArg _ (decide_eq_decide.mpr ?_)
  rw [List.mem_cons, not_or]
  exact and_comm

/-- The first declarations of the functions in the table are bound, in source order. -/
theorem functions_bindDeclarations (s : Scope) (path : Path) (names : List String)
    (ds : List (Spanned FunctionDecl)) :
    (s.bindDeclarations path names ds).functions =
      ((firstDeclarations ds).filter (s.binds names)).map fun d => s.boundFunction d.node := by
  induction ds generalizing names with
  | nil => rfl
  | cons d rest ih =>
    unfold bindDeclarations firstDeclarations
    rw [List.filter_cons, List.filter_filter]
    cases hown : s.own? d.node.name with
    | none =>
      have hd : s.binds names d = false := by simp [binds, hown]
      rw [hd, if_neg Bool.false_ne_true, filter_binds_of_false hd]
      exact ih names
    | some f =>
      dsimp only
      by_cases hn : d.node.name ∈ names
      · have hd : s.binds names d = false := by simp [binds, hn]
        rw [hd, if_pos hn, if_neg Bool.false_ne_true, filter_binds_of_false hd, functions_append]
        exact ih names
      · -- the name is taken from here on
        have hd : s.binds names d = true := by simp [binds, hown, hn]
        rw [hd, if_neg hn, if_pos rfl, functions_append, functions_bindFunction,
          ih (d.node.name :: names), List.map_cons]
        exact congrArg _ (congrArg _ (List.filter_congr fun e _ => binds_cons))

/-- What is reported of a declaration that is bound is reported of the file. -/
theorem mem_diagnostics_bindDeclarations {s : Scope} {path : Path} {names : List String}
    {ds : List (Spanned FunctionDecl)} {d : Spanned FunctionDecl} (hd : d ∈ firstDeclarations ds)
    (hbinds : s.binds names d = true) {diagnostic : Diagnostic}
    (h : diagnostic ∈ (s.bindFunction path d.node).diagnostics) :
    diagnostic ∈ (s.bindDeclarations path names ds).diagnostics := by
  induction ds generalizing names with
  | nil => exact absurd hd List.not_mem_nil
  | cons e rest ih =>
    obtain ⟨hown, hname⟩ := Bool.and_eq_true_iff.mp hbinds
    unfold bindDeclarations
    rcases List.mem_cons.mp hd with rfl | hd
    · obtain ⟨signature, hsignature⟩ := Option.isSome_iff_exists.mp hown
      rw [hsignature]
      dsimp only
      rw [if_neg (of_decide_eq_true hname)]
      exact List.mem_append_left _ h
    · obtain ⟨hd, hne⟩ := List.mem_filter.mp hd
      cases s.own? e.node.name with
      | none => exact ih hd hbinds
      | some signature =>
        dsimp only
        split
        · exact List.mem_append_right _ (ih hd hbinds)
        · refine List.mem_append_right _ (ih hd ?_)
          rw [binds_cons, hbinds, hne]
          rfl

/-- Functions in the table with different names are bound one by one. -/
theorem diagnostics_bindDeclarations {s : Scope} {path : Path} {names : List String}
    {ds : List (Spanned FunctionDecl)} (hown : ∀ d ∈ ds, (s.own? d.node.name).isSome)
    (hnames : ∀ d ∈ ds, d.node.name ∉ names) (hnodup : (ds.map (·.node.name)).Nodup) :
    (s.bindDeclarations path names ds).diagnostics =
      ds.flatMap fun d => (s.bindFunction path d.node).diagnostics := by
  induction ds generalizing names with
  | nil => rfl
  | cons d rest ih =>
    obtain ⟨hd, hrest⟩ := List.forall_mem_cons.mp hown
    obtain ⟨hn, hnrest⟩ := List.forall_mem_cons.mp hnames
    obtain ⟨hfresh, hnodup⟩ := List.nodup_cons.mp hnodup
    obtain ⟨signature, hsig⟩ := Option.isSome_iff_exists.mp hd
    unfold bindDeclarations
    rw [hsig, List.flatMap_cons, ← ih hrest ?_ hnodup]
    · dsimp only
      rw [if_neg hn]
      rfl
    · intro e he hmem
      rcases List.mem_cons.mp hmem with heq | hmem
      · exact hfresh (List.mem_map.mpr ⟨e, he, heq⟩)
      · exact hnrest e he hmem

theorem mem_site? {s : Scope} {call : Spanned CallPath} {c : CallSite} :
    s.site? call = some c ↔ s.resolve call.node = .bound c.callee ∧ call.span = c.span := by
  unfold site?
  obtain ⟨callee, span⟩ := c
  cases s.resolve call.node with
  | bound callee' => simp
  | skipped => simp
  | refused finding => simp

/-- The bound calls of a function are the calls of its body that are bound. -/
theorem mem_calls_boundFunction {s : Scope} {d : FunctionDecl} {c : CallSite} :
    c ∈ (s.boundFunction d).calls ↔
      ∃ call ∈ Stmt.calls d.body, s.resolve call.node = .bound c.callee ∧ call.span = c.span := by
  unfold boundFunction
  rw [List.mem_filterMap]
  exact exists_congr fun call => and_congr_right fun _ => mem_site?

/-- A call that is refused is reported. -/
theorem mem_diagnostics_bindFunction {s : Scope} (path : Path) {d : FunctionDecl}
    {call : Spanned CallPath} (hcall : call ∈ Stmt.calls d.body) {finding : Finding}
    (hrefused : s.resolve call.node = .refused finding) :
    finding.report path call.span ∈ (s.bindFunction path d).diagnostics := by
  refine List.mem_append_right _ (List.mem_filterMap.mpr ⟨call, hcall, ?_⟩)
  unfold complaint?
  rw [hrefused]

/-- If no two calls stand at one place, the callee that is found at the place of a call is that of
the call. -/
theorem calleeAt?_boundFunction {s : Scope} {d : FunctionDecl}
    (hspans : ((Stmt.calls d.body).map (·.span)).Nodup) {call : Spanned CallPath}
    (hcall : call ∈ Stmt.calls d.body) {callee : Callee} :
    (s.boundFunction d).calleeAt? call.span = some callee ↔
      s.resolve call.node = .bound callee := by
  have hfound : ∀ callee, (s.boundFunction d).calleeAt? call.span = some callee →
      s.resolve call.node = .bound callee := by
    intro callee h
    obtain ⟨c, hc, rfl⟩ := Option.map_eq_some_iff.mp h
    -- what is found at the place is a call, and only this one stands there
    obtain ⟨other, hother, hr, hspan⟩ := mem_calls_boundFunction.mp (List.mem_of_find?_eq_some hc)
    have hat : c.span = call.span := by simpa using List.find?_some hc
    obtain rfl := List.inj_on_of_nodup_map hspans hother hcall (hspan.trans hat)
    exact hr
  refine ⟨hfound callee, fun hr => ?_⟩
  have hmem : (⟨callee, call.span⟩ : CallSite) ∈ (s.boundFunction d).calls :=
    mem_calls_boundFunction.mpr ⟨call, hcall, hr, rfl⟩
  cases hat : (s.boundFunction d).calleeAt? call.span with
  | none =>
    have hnone := List.find?_eq_none.mp (Option.map_eq_none_iff.mp hat) _ hmem
    exact absurd BEq.rfl hnone
  | some found =>
    have hsame := (hfound found hat).symm.trans hr
    cases hsame
    rfl

/-- A function that a body calls is visible. -/
theorem visible_of_mem_callees {s : Scope} {d : FunctionDecl}
    {c : CallSite} {g : FunctionRef} (hc : c ∈ (s.boundFunction d).calls)
    (hg : c.callee = .function g) : s.Visible g := by
  obtain ⟨call, -, hr, -⟩ := mem_calls_boundFunction.mp hc
  exact visible_of_resolve (hr.trans (congrArg _ hg))

/-! ## Bindings without diagnostics -/

section Clean

variable {s : Scope} {path : Path}

/-- Where nothing is reported of a function all its tokens are known and all its calls are bound. -/
theorem of_bindFunction_clean (hs : s.resolution.failed = []) {d : FunctionDecl}
    (h : (s.bindFunction path d).diagnostics = []) :
    (s.boundFunction d).isPoisoned = false ∧ s.unknownTokens d = [] ∧
      ∀ call ∈ Stmt.calls d.body, ∃ callee, s.resolve call.node = .bound callee := by
  obtain ⟨htokens, hcalls⟩ := List.append_eq_nil_iff.mp h
  have hunknown : s.unknownTokens d = [] := List.map_eq_nil_iff.mp htokens
  have hbound : ∀ call ∈ Stmt.calls d.body, ∃ callee, s.resolve call.node = .bound callee := by
    intro call hcall
    have hnone := List.filterMap_eq_nil_iff.mp hcalls call hcall
    unfold complaint? at hnone
    cases hr : s.resolve call.node with
    | bound callee => exact ⟨callee, rfl⟩
    -- only a call through a failed import is neither bound nor reported
    | skipped => exact absurd hr (resolve_ne_skipped hs call.node)
    | refused finding =>
      rw [hr] at hnone
      cases hnone
  refine ⟨?_, hunknown, hbound⟩
  unfold boundFunction
  rw [hunknown, List.isEmpty_nil, Bool.not_true, Bool.false_or, List.any_eq_false]
  intro call hcall
  obtain ⟨callee, hr⟩ := hbound call hcall
  unfold site?
  rw [hr]
  exact Bool.false_ne_true

/-- Where nothing is reported of declarations, the names are different, and nothing is reported of
any of them. -/
theorem of_bindDeclarations_clean {ds : List (Spanned FunctionDecl)} {names : List String}
    (hown : ∀ d ∈ ds, (s.own? d.node.name).isSome)
    (h : (s.bindDeclarations path names ds).diagnostics = []) :
    (ds.map (·.node.name)).Nodup ∧ (∀ d ∈ ds, d.node.name ∉ names) ∧
      ∀ d ∈ ds, (s.bindFunction path d.node).diagnostics = [] := by
  induction ds generalizing names with
  | nil => exact ⟨.nil, fun _ hd => absurd hd List.not_mem_nil,
      fun _ hd => absurd hd List.not_mem_nil⟩
  | cons d rest ih =>
    obtain ⟨hd, hrest⟩ := List.forall_mem_cons.mp hown
    obtain ⟨signature, hsig⟩ := Option.isSome_iff_exists.mp hd
    unfold bindDeclarations at h
    rw [hsig] at h
    dsimp only at h
    -- a name that was bound before would be reported
    split at h
    · cases (List.append_eq_nil_iff.mp h).1
    · rename_i hn
      obtain ⟨hfirst, hothers⟩ := List.append_eq_nil_iff.mp h
      obtain ⟨hnodup, hnames, hclean⟩ := ih hrest hothers
      refine ⟨List.nodup_cons.mpr ⟨fun hmem => ?_, hnodup⟩,
        List.forall_mem_cons.mpr ⟨hn, fun e he hm => ?_⟩,
        List.forall_mem_cons.mpr ⟨hfirst, hclean⟩⟩
      · obtain ⟨e, he, heq⟩ := List.mem_map.mp hmem
        exact hnames e he (heq ▸ List.mem_cons_self)
      · exact hnames e he (List.mem_cons_of_mem _ hm)

end Clean

/-! ## Scopes that agree -/

namespace Agrees

variable {s t : Scope} (h : s.Agrees t)

include h

theorem bindFunction_eq (path : Path) (d : FunctionDecl) :
    s.bindFunction path d = t.bindFunction path d := by
  have hsite : s.site? = t.site? := funext fun call => by
    unfold site?
    rw [h.resolve_eq]
  have hcomplaint : s.complaint? path = t.complaint? path := funext fun call => by
    unfold complaint?
    rw [h.resolve_eq]
  have htokens : s.unknownTokens d = t.unknownTokens d := by
    unfold unknownTokens
    rw [h.registry]
  unfold bindFunction
  rw [hsite, hcomplaint, htokens, h.file]

theorem boundFunction_eq (d : FunctionDecl) : s.boundFunction d = t.boundFunction d := by
  have hfunctions := congrArg FileBinding.functions (h.bindFunction_eq ⟨""⟩ d)
  exact List.singleton_inj.mp hfunctions

theorem bindDeclarations_eq (path : Path) (names : List String)
    (ds : List (Spanned FunctionDecl)) :
    s.bindDeclarations path names ds = t.bindDeclarations path names ds := by
  induction ds generalizing names with
  | nil => rfl
  | cons d rest ih =>
    unfold bindDeclarations
    rw [h.own, h.bindFunction_eq, ih names, ih (d.node.name :: names)]

end Agrees

end Scope

end EffectAudit
