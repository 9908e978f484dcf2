import EffectAudit.Proofs.Function.Accounting
import EffectAudit.Proofs.Syntax.Positions
import EffectAudit.Syntax.Draft

/-!
# Calls found by their places

What a call is bound to is kept under the place of the call. The place tells calls apart in a file
that was put together construct by construct, since such a file has no two expressions at one
position.

## Main results

* `Scope.nodup_callSpans`: calls of a body whose expressions have different positions
* `Scope.built_calls_found`: calls of files that were put together
-/

namespace EffectAudit

namespace Scope

variable {s : Scope}

/-- Where the expressions of a body have different positions, no two calls stand at one place. -/
theorem nodup_callSpans {body : List Stmt} (hnodup : ((Stmt.exprs body).map Expr.start).Nodup) :
    ((Stmt.calls body).map (·.span)).Nodup := by
  have hapart := List.pairwise_map.mp hnodup
  refine List.pairwise_map.mpr (hapart.filterMap _ fun e e' hstart call hcall call' hcall' hspan =>
    ?_)
  -- calls keep the places of their expressions
  obtain ⟨path, -, rfl⟩ := Option.map_eq_some_iff.mp hcall
  obtain ⟨path', -, rfl⟩ := Option.map_eq_some_iff.mp hcall'
  have hspans : e.span = e'.span := hspan
  exact hstart (by rw [Expr.start, Expr.start, hspans])

/-- All calls of a function that is not poisoned are bound. -/
theorem exists_callee_of_not_poisoned {d : FunctionDecl}
    (hclear : (s.boundFunction d).isPoisoned = false) {e : Expr} (he : e ∈ Stmt.exprs d.body)
    {call : CallPath} (hcall : e.callPath? = some call) :
    ∃ callee, s.resolve call = .bound callee := by
  by_contra hnone
  have hmem : e ∈ Stmt.callExprs d.body :=
    List.mem_filter.mpr ⟨Stmt.exprs_eq_walk d.body ▸ he, Option.isSome_iff_exists.mpr ⟨call, hcall⟩⟩
  have hpoisoned : (s.boundFunction d).isPoisoned = true := by
    refine isPoisoned_boundFunction_iff.mpr (.inl ⟨e, hmem, ?_⟩)
    rintro ⟨call', callee, hcall', hbound⟩
    cases hcall.symm.trans hcall'
    exact hnone ⟨callee, hbound⟩
  rw [hclear] at hpoisoned
  cases hpoisoned

/-- A bound function of a file is that of the first declaration of its name. -/
theorem exists_declaration_of_mem_bindFile {registry : Registry} {symbols : SymbolTable}
    {graph : ModuleGraph} {u : SourceUnit} {b : BoundFunction}
    (hb : b ∈ (bindFile registry symbols graph u).functions) :
    ∃ d, u.functions.find? (·.node.name == b.ref.name) = some d ∧
      b = (⟨registry, symbols, graph, u.path.key⟩ : Scope).boundFunction d.node := by
  unfold bindFile at hb
  rw [functions_bindDeclarations] at hb
  obtain ⟨d, hd, rfl⟩ := List.mem_map.mp hb
  exact ⟨d, find?_of_mem_firstDeclarations (List.mem_filter.mp hd).1, rfl⟩

/-- **Files that are put together have every expression at a position of its own.** As long as the
lines and columns that are counted fit into words, the expressions of the functions of such a file
stand at the counted positions, and no two of them have the same line and column. So, in whatever
surroundings the file is bound, the place of a call that could be bound leads to the callee of this
very call; and for a function that is not poisoned these are all calls of its body. -/
theorem built_calls_found (path : Path) (items : List UnitItem)
    (hfits : ∀ p ∈ ({ unit := { path } } : UnitBuilder).positions items,
      p.1 < UInt32.size ∧ p.2 < UInt32.size) :
    let u := UnitBuilder.build path items
    let exprs := u.functions.flatMap fun f => Stmt.exprs f.node.body
    (exprs.map fun e => (e.span.line.toNat, e.span.column.toNat)) =
      ({ unit := { path } } : UnitBuilder).positions items ∧
    (exprs.map fun e => (e.span.line, e.span.column)).Nodup ∧
    ∀ registry symbols graph, ∀ b ∈ (bindFile registry symbols graph u).functions,
      let s : Scope := ⟨registry, symbols, graph, u.path.key⟩
      ∃ d, u.functions.find? (·.node.name == b.ref.name) = some d ∧ b.ref.file = u.path.key ∧
        (∀ e ∈ Stmt.exprs d.node.body, ∀ call callee, e.callPath? = some call →
          s.resolve call = .bound callee → b.calleeAt? e.span = some callee) ∧
        (b.isPoisoned = false → ∀ e ∈ Stmt.exprs d.node.body, ∀ call, e.callPath? = some call →
          ∃ callee, s.resolve call = .bound callee ∧ b.calleeAt? e.span = some callee) := by
  intro u exprs
  obtain ⟨last, hbelow⟩ := UnitBuilder.below_build path items
  have hexprs : exprs = u.walk := by
    simp only [exprs, SourceUnit.walk, Stmt.exprs_eq_walk]
  rw [← hexprs] at hbelow
  have hnodup : (exprs.map Expr.start).Nodup := hbelow.nodup_starts hfits
  refine ⟨hbelow.counts_eq hfits, hnodup, fun registry symbols graph b hb => ?_⟩
  intro s
  obtain ⟨d, hd, rfl⟩ := exists_declaration_of_mem_bindFile hb
  have hbody : ((Stmt.exprs d.node.body).map Expr.start).Nodup := by
    refine hnodup.sublist (List.Sublist.map _ ?_)
    exact List.sublist_flatten_of_mem (List.mem_map.mpr ⟨d, List.mem_of_find?_eq_some hd, rfl⟩)
  have hfound : ∀ e ∈ Stmt.exprs d.node.body, ∀ call callee, e.callPath? = some call →
      s.resolve call = .bound callee → (s.boundFunction d.node).calleeAt? e.span = some callee := by
    intro e he call callee hcall hbound
    have hmem : ⟨call, e.span⟩ ∈ Stmt.calls d.node.body :=
      List.mem_filterMap.mpr ⟨e, he, congrArg (Option.map _) hcall⟩
    exact (calleeAt?_boundFunction (nodup_callSpans hbody) hmem).mpr hbound
  refine ⟨d, hd, rfl, hfound, fun hclear e he call hcall => ?_⟩
  obtain ⟨callee, hbound⟩ := exists_callee_of_not_poisoned hclear he hcall
  exact ⟨callee, hbound, hfound e he call callee hcall hbound⟩

/-- A function whose body calls `load`, then `save` in an arm of a match on the result, and behind
the match `load` once more on the first line. -/
def retryItems : List UnitItem :=
  let load := Expr.callNamed none "load" []
  let save := Expr.callNamed none "save" []
  let arms := [Arm.bare .wildcard (.expr save)]
  [.function { name := "load" }, .function { name := "save" },
    .function
      { name := "run"
        body := [.bare (.expr (.bare (.binary (.bare (.matching load arms)) .add load)))] }]

theorem retry_calls_found :
    let u := UnitBuilder.build ⟨"a.cdz"⟩ retryItems
    let symbols := SymbolTable.ofChanges [.collect .standard "a" u]
    let graph := ModuleGraph.build (.ofUnits [u]) {}
    let ref (name : String) : FunctionRef := ⟨u.path.key, name⟩
    let exprs := u.functions.flatMap fun f => Stmt.exprs f.node.body
    (exprs.map fun e => (e.span.line.toNat, e.span.column.toNat)) =
      [(6, 5), (6, 7), (6, 9), (7, 17), (6, 16)] ∧
    (exprs.map fun e => (e.span.line, e.span.column)).Nodup ∧
    ∃ b ∈ (bindFile .standard symbols graph u).functions, b.ref = ref "run" ∧ b.isPoisoned = false ∧
      b.calleeAt? ⟨6, 9, 6⟩ = some (.function (ref "load")) ∧
      b.calleeAt? ⟨7, 17, 6⟩ = some (.function (ref "save")) ∧
      b.calleeAt? ⟨6, 16, 6⟩ = some (.function (ref "load")) := by
  intro u symbols graph ref exprs
  have hpositions : ({ unit := { path := ⟨"a.cdz"⟩ } } : UnitBuilder).positions retryItems =
      [(6, 5), (6, 7), (6, 9), (7, 17), (6, 16)] := by decide +kernel
  obtain ⟨hcounts, hnodup, hfound⟩ := built_calls_found ⟨"a.cdz"⟩ retryItems
    (by rw [hpositions]; decide)
  obtain ⟨b, hb, hrun, hclear⟩ : ∃ b ∈ (bindFile .standard symbols graph u).functions,
      b.ref = ref "run" ∧ b.isPoisoned = false := by decide +kernel
  obtain ⟨d, hd, -, hcalls, -⟩ := hfound _ _ _ b hb
  rw [hrun] at hd
  have hthird : some d = u.functions[2]? := hd.symm.trans (by rfl)
  obtain rfl : d = _ := Option.some.inj hthird
  have hload : (⟨.standard, symbols, graph, u.path.key⟩ : Scope).resolve { name := "load" } =
      .bound (.function (ref "load")) := by decide +kernel
  have hsave : (⟨.standard, symbols, graph, u.path.key⟩ : Scope).resolve { name := "save" } =
      .bound (.function (ref "save")) := by decide +kernel
  exact ⟨hcounts.trans hpositions, hnodup, b, hb, hrun, hclear,
    hcalls _ (List.mem_of_getElem? (i := 2) rfl) _ _ rfl hload,
    hcalls _ (List.mem_of_getElem? (i := 3) rfl) _ _ rfl hsave,
    hcalls _ (List.mem_of_getElem? (i := 4) rfl) _ _ rfl hload⟩

end Scope

end EffectAudit
