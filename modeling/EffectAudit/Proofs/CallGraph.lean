import EffectAudit.Function.Linked
import EffectAudit.Proofs.Digraph.Components
import EffectAudit.Proofs.Digraph.Upstream
import EffectAudit.Proofs.SymbolTable

/-!
# Calls between functions

A function calls another one if its body has a call site for it. The edges of the graph of calls are
the calls between functions of the symbol table. In a program where all callees are known these are
all calls, and the components of the graph are the groups of functions that call each other.

## Main definitions

* `LinkedProgram.Calls`, `LinkedProgram.Reaches`: direct and indirect calls
* `LinkedProgram.CallEdge`: calls from a function of the symbol table to another one
* `LinkedProgram.Closed`: all bodies and all callees belong to functions of the symbol table
* `LinkedProgram.CalleesFirst`: the groups of functions that call each other, callees first

## Main results

* `LinkedProgram.mem_successors_callGraph_iff`: the edges of the graph of calls
* `LinkedProgram.Closed.calleesFirst_groups`: the computed groups are such groups
* `LinkedProgram.Closed.mem_callersOf_iff`: the callers of functions are those that reach one
* `LinkedProgram.closed_ofBodies`: programs whose bodies call functions of the table
-/

namespace EffectAudit

open Relation

theorem BoundFunction.mem_callees_iff {b : BoundFunction} {g : FunctionRef} :
    g ∈ b.callees ↔ ∃ c ∈ b.calls, c.callee = .function g := by
  unfold BoundFunction.callees
  rw [List.mem_filterMap]
  refine exists_congr fun c => and_congr_right fun _ => ?_
  cases c.callee with
  | function f => simp
  | operation op => simp

namespace LinkedProgram

/-- A call site of `f` is bound to `g`. -/
def Calls (p : LinkedProgram) (f g : FunctionRef) : Prop :=
  ∃ c ∈ p.sites f, c.callee = .function g

/-- A call site of `f` is bound to `g`, and both are functions of the symbol table. -/
structure CallEdge (p : LinkedProgram) (f g : FunctionRef) : Prop where
  calls : p.Calls f g
  caller : f ∈ p.symbols.functions
  callee : g ∈ p.symbols.functions

/-- Calls lead from one function to another, or the two are the same. -/
def Reaches (p : LinkedProgram) : FunctionRef → FunctionRef → Prop := ReflTransGen p.Calls

/-- Bodies belong to functions of the symbol table, and so do the functions that they call. -/
structure Closed (p : LinkedProgram) : Prop where
  body : ∀ f b, p.body? f = some b → f ∈ p.symbols.functions
  callee : ∀ f g, p.Calls f g → g ∈ p.symbols.functions

/-- Groups of functions that call each other, each after those that it calls: every function is in
a group, the members of a group reach each other, and none reaches a member of a later group. -/
structure CalleesFirst (p : LinkedProgram) (groups : List (List FunctionRef)) : Prop where
  covers : ∀ f, f ∈ p.symbols.functions ↔ ∃ group ∈ groups, f ∈ group
  connected : ∀ group ∈ groups, ∀ f ∈ group, ∀ g ∈ group, p.Reaches f g
  ordered : groups.Pairwise fun c d => ∀ f ∈ c, ∀ g ∈ d, ¬ p.Reaches f g

variable {p : LinkedProgram}

theorem sites_of_body {f : FunctionRef} {b : BoundFunction} (h : p.body? f = some b) :
    p.sites f = b.calls := by
  unfold sites
  rw [h]
  rfl

theorem sites_of_no_body {f : FunctionRef} (h : p.body? f = none) : p.sites f = [] := by
  unfold sites
  rw [h]
  rfl

theorem Calls.exists_body {f g : FunctionRef} (h : p.Calls f g) :
    ∃ b, p.body? f = some b ∧ g ∈ b.callees := by
  obtain ⟨c, hc, hg⟩ := h
  cases hb : p.body? f with
  | none =>
    rw [sites_of_no_body hb] at hc
    exact absurd hc List.not_mem_nil
  | some b =>
    rw [sites_of_body hb] at hc
    exact ⟨b, rfl, BoundFunction.mem_callees_iff.mpr ⟨c, hc, hg⟩⟩

theorem calls_of_body {f g : FunctionRef} {b : BoundFunction} (h : p.body? f = some b) :
    p.Calls f g ↔ g ∈ b.callees := by
  unfold Calls
  rw [sites_of_body h, BoundFunction.mem_callees_iff]

/-- A function that is known by its signature only reaches nothing but itself. -/
theorem reaches_of_no_body {f g : FunctionRef} (h : p.body? f = none) (hr : p.Reaches f g) :
    g = f := by
  rcases ReflTransGen.cases_head hr with rfl | ⟨k, hk, -⟩
  · rfl
  · obtain ⟨b, hb, -⟩ := hk.exists_body
    rw [h] at hb
    cases hb

theorem mem_callees_iff {f g : FunctionRef} :
    g ∈ p.callees f ↔ p.Calls f g ∧ g ∈ p.symbols.functions := by
  have hknown : (p.signature? g).isSome = true ↔ g ∈ p.symbols.functions := by
    rw [SymbolTable.mem_functions_iff, Option.isSome_iff_exists]
    rfl
  unfold callees
  rw [mem_distinct, List.mem_filter, hknown]
  refine and_congr_left fun _ => ?_
  cases hb : p.body? f with
  | none =>
    refine ⟨fun h => absurd h List.not_mem_nil, fun h => ?_⟩
    obtain ⟨b, hb', -⟩ := h.exists_body
    rw [hb] at hb'
    cases hb'
  | some b => exact (calls_of_body hb).symm

/-- The edges of the graph of calls are the calls between functions of the table. -/
theorem mem_successors_callGraph_iff {f g : FunctionRef} :
    g ∈ p.callGraph.successors f ↔ p.CallEdge f g := by
  unfold callGraph
  rw [Digraph.mem_successors_ofSuccessors p.symbols.nodup_functions, mem_callees_iff]
  exact ⟨fun h => ⟨h.2.2.1, h.1, h.2.1⟩, fun h => ⟨h.caller, h.callee, h.calls, h.callee⟩⟩

variable (p) in
theorem successors_callGraph : (fun f g => g ∈ p.callGraph.successors f) = p.CallEdge := by
  funext f g
  exact propext mem_successors_callGraph_iff

variable (p) in
theorem simple_callGraph : p.callGraph.Simple :=
  Digraph.simple_ofSuccessors p.symbols.nodup_functions

theorem wellFormed_callGraph : p.callGraph.WellFormed := Digraph.wellFormed_ofSuccessors

theorem reaches_callGraph_iff {f g : FunctionRef} :
    p.callGraph.Reaches f g ↔ ReflTransGen p.CallEdge f g := by
  rw [Digraph.reaches_iff_reflTransGen, p.successors_callGraph]

/-- The callers of functions are those from which calls lead to one of them. -/
theorem mem_callersOf {fs : List FunctionRef} {f : FunctionRef} :
    f ∈ p.callersOf fs ↔ ∃ g ∈ fs, ReflTransGen p.CallEdge f g := by
  unfold callersOf
  rw [Digraph.mem_upstream_iff wellFormed_callGraph p.simple_callGraph]
  exact exists_congr fun g => and_congr_right fun _ => reaches_callGraph_iff

namespace Closed

variable (hp : p.Closed)

include hp

theorem mem_functions_of_reaches {f g : FunctionRef} (h : p.Reaches f g)
    (hf : f ∈ p.symbols.functions) : g ∈ p.symbols.functions := by
  rcases ReflTransGen.cases_tail h with rfl | ⟨k, -, hk⟩
  · exact hf
  · exact hp.callee k g hk

theorem callEdge_eq : p.CallEdge = p.Calls := by
  funext f g
  refine propext ⟨CallEdge.calls, fun h => ?_⟩
  obtain ⟨b, hb, -⟩ := h.exists_body
  exact ⟨h, hp.body f b hb, hp.callee f g h⟩

theorem reaches_callGraph_iff {f g : FunctionRef} : p.callGraph.Reaches f g ↔ p.Reaches f g := by
  rw [LinkedProgram.reaches_callGraph_iff, hp.callEdge_eq]
  rfl

/-- The computed groups are the groups of functions that call each other, callees first. -/
theorem calleesFirst_groups : p.CalleesFirst p.groups := by
  have h := Digraph.successorsFirst_components wellFormed_callGraph p.simple_callGraph
  refine ⟨h.covers, fun c hc f hf g hg => ?_, h.ordered.imp fun hcd f hf g hg hr => ?_⟩
  · exact hp.reaches_callGraph_iff.mp (h.connected c hc f hf g hg)
  · exact hcd f hf g hg (hp.reaches_callGraph_iff.mpr hr)

/-- The callers of functions are those that reach one of them. -/
theorem mem_callersOf_iff {fs : List FunctionRef} {f : FunctionRef} :
    f ∈ p.callersOf fs ↔ ∃ g ∈ fs, p.Reaches f g := by
  rw [mem_callersOf, hp.callEdge_eq]
  rfl

end Closed

/-! ## Programs of given bodies -/

section Bodies

variable {registry : Registry} {symbols : SymbolTable} {bodies : List BoundFunction}
  (hinj : ∀ b ∈ bodies, ∀ b' ∈ bodies, b.ref = b'.ref → b = b')

include hinj

theorem body?_ofBodies {f : FunctionRef} {b : BoundFunction} :
    (ofBodies registry symbols bodies).body? f = some b ↔ b ∈ bodies ∧ b.ref = f := by
  constructor
  · intro h
    obtain ⟨b', hb', he⟩ := List.mem_map.mp (OrderedMap.mem_of_get?_ofList h)
    rw [Prod.mk.injEq] at he
    obtain ⟨rfl, rfl⟩ := he
    exact ⟨hb', rfl⟩
  · rintro ⟨hb, rfl⟩
    refine OrderedMap.get?_ofList_of_mem (List.mem_map.mpr ⟨b, hb, rfl⟩) fun b' hb' => ?_
    obtain ⟨c, hc, he⟩ := List.mem_map.mp hb'
    rw [Prod.mk.injEq] at he
    obtain ⟨hr, rfl⟩ := he
    exact hinj c hc b hb hr

omit hinj in
/-- Bodies given by a list belong to the table if those of the list do. -/
theorem mem_functions_of_body? (hknown : ∀ b ∈ bodies, b.ref ∈ symbols.functions) (f : FunctionRef)
    (b : BoundFunction) (hb : (ofBodies registry symbols bodies).body? f = some b) :
    f ∈ symbols.functions := by
  obtain ⟨b', hb', he⟩ := List.mem_map.mp (OrderedMap.mem_of_get?_ofList hb)
  cases he
  exact hknown _ hb'

theorem closed_ofBodies
    (hknown : ∀ b ∈ bodies, b.ref ∈ symbols.functions ∧ ∀ g ∈ b.callees, g ∈ symbols.functions) :
    (ofBodies registry symbols bodies).Closed where
  body f b hb := by
    obtain ⟨hm, rfl⟩ := (body?_ofBodies hinj).mp hb
    exact (hknown b hm).1
  callee f g hcall := by
    obtain ⟨b, hb, hg⟩ := hcall.exists_body
    exact (hknown b ((body?_ofBodies hinj).mp hb).1).2 g hg

end Bodies

end LinkedProgram

end EffectAudit
