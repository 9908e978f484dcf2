import EffectAudit.Proofs.Effects.InTable
import EffectAudit.Proofs.Function.Numbering

/-!
# Functions that a change affects

What a change of given functions affects are these functions and all from which calls lead to one of
them. They are whole groups of functions that call each other. If the groups are gone through in
order, then what is affected and called from another group has been gone through before.

## Main results

* `LinkedProgram.CalleesFirst.mem_chooseGroups_iff_mem`: the affected functions are whole groups
* `LinkedProgram.CalleesFirst.exists_earlier_group`: what they call in other groups comes earlier
* `LinkedProgram.isRecursiveIn_iff`: which functions are recursive
* `LinkedProgram.affected_groups_exact`: which functions are affected, and in what order
-/

namespace EffectAudit.LinkedProgram

open Relation

variable {p : LinkedProgram}

variable (p) in
/-- The calls between functions of the table are those of the program without what the table does
not know. -/
theorem calls_inTable_eq : p.inTable.Calls = p.CallEdge := by
  funext f g
  refine propext ?_
  rw [calls_inTable_iff, isSome_signature?_iff, isSome_signature?_iff]
  exact ⟨fun h => ⟨h.2.2, h.1, h.2.1⟩, fun h => ⟨h.caller, h.callee, h.calls⟩⟩

variable (p) in
theorem reaches_inTable_eq :
    p.inTable.Reaches = ReflTransGen p.CallEdge := by
  unfold Reaches
  rw [p.calls_inTable_eq]

/-! ## Sets that are closed upstream -/

namespace CalleesFirst

variable {groups : List (List FunctionRef)} (h : p.CalleesFirst groups)

include h

section Upstream

variable {fs : List FunctionRef} (hup : ∀ f g, p.Reaches f g → g ∈ fs → f ∈ fs)
  (hin : ∀ f ∈ fs, f ∈ p.symbols.functions)

include hup hin

/-- The groups that meet a set closed upstream make up the set. -/
theorem mem_chooseGroups_iff_mem {f : FunctionRef} :
    (∃ group ∈ chooseGroups groups fs, f ∈ group) ↔ f ∈ fs := by
  constructor
  · rintro ⟨group, hg, hf⟩
    obtain ⟨hg, k, hk, hkfs⟩ := h.mem_chooseGroups_iff.mp hg
    exact hup f k (h.connected group hg f hf k hk) hkfs
  · intro hf
    obtain ⟨group, hg, hfg⟩ := (h.covers f).mp (hin f hf)
    exact ⟨group, h.mem_chooseGroups_iff.mpr ⟨hg, f, hfg, hf⟩, hfg⟩

/-- What a member of such a group calls is in the same group, outside the set, or in a group that
comes earlier. -/
theorem exists_earlier_group {i : Nat} {group : List FunctionRef}
    (hi : (chooseGroups groups fs)[i]? = some group) {f g : FunctionRef} (hf : f ∈ group)
    (hcall : p.Calls f g) (hg : g ∉ group) (hgfs : g ∈ fs) :
    ∃ j < i, ∃ earlier, (chooseGroups groups fs)[j]? = some earlier ∧ g ∈ earlier := by
  obtain ⟨other, hother, hgo⟩ := (h.mem_chooseGroups_iff_mem hup hin).mpr hgfs
  obtain ⟨j, hj⟩ := List.mem_iff_getElem?.mp hother
  refine ⟨j, ?_, other, hj, hgo⟩
  obtain ⟨hilt, hgi⟩ := List.getElem?_eq_some_iff.mp hi
  obtain ⟨hjlt, hgj⟩ := List.getElem?_eq_some_iff.mp hj
  rcases Nat.lt_trichotomy j i with hlt | rfl | hgt
  · exact hlt
  · rw [hj, Option.some.injEq] at hi
    exact absurd (hi ▸ hgo) hg
  · -- a later group would be one that an earlier one calls
    have hordered := List.pairwise_iff_getElem.mp (h.ordered_chooseGroups fs) i j hilt hjlt hgt
    rw [hgi, hgj] at hordered
    exact absurd (.single hcall) (hordered f hf g hgo)

end Upstream

/-! ## Recursion -/

/-- A function calls back to itself if and only if its group has another member or it calls
itself. -/
theorem transGen_iff (hp : p.Closed) {group : List FunctionRef} (hg : group ∈ groups)
    (hnodup : group.Nodup) {f : FunctionRef} (hf : f ∈ group) :
    TransGen p.Calls f f ↔ 1 < group.length ∨ p.Calls f f := by
  have hmem {g : FunctionRef} := h.mem_group_iff hp hg hf (g := g)
  rw [← Nat.succ_le_iff, two_le_length_iff hnodup hf]
  constructor
  · intro hcycle
    obtain ⟨g, hfg, hgf⟩ := TransGen.head'_iff.mp hcycle
    by_cases heq : g = f
    · exact .inr (heq ▸ hfg)
    · exact .inl ⟨g, hmem.mpr ⟨.single hfg, hgf⟩, heq⟩
  · rintro (⟨g, hgm, hne⟩ | hself)
    · obtain ⟨hfg, hgf⟩ := hmem.mp hgm
      rcases reflTransGen_iff_eq_or_transGen.mp hfg with heq | htrans
      · exact absurd heq hne
      · exact htrans.trans_left hgf
    · exact .single hself

end CalleesFirst

/-- A member of a group is found recursive if the group has another member or it calls itself. -/
theorem isRecursiveIn_iff_of_mem {groups : List (List FunctionRef)}
    (hapart : groups.Pairwise fun c d => ∀ f ∈ c, f ∉ d) {group : List FunctionRef}
    (hg : group ∈ groups) {f : FunctionRef} (hf : f ∈ group) :
    p.isRecursiveIn groups f = true ↔ 1 < group.length ∨ p.CallEdge f f := by
  obtain ⟨i, hi⟩ := List.mem_iff_getElem?.mp hg
  have hindex : (groupIndex groups).get? f = some i :=
    (get?_groupIndex hapart).mpr ⟨group, hi, hf⟩
  unfold isRecursiveIn
  rw [hindex, Option.bind_some, hi, Option.any_some, Bool.or_eq_true, decide_eq_true_eq,
    decide_eq_true_eq, mem_successors_callGraph_iff]

/-- Only members of groups are found recursive. -/
theorem exists_group_of_isRecursiveIn {groups : List (List FunctionRef)}
    (h : p.inTable.CalleesFirst groups) {f : FunctionRef} (hf : p.isRecursiveIn groups f = true) :
    ∃ group ∈ groups, f ∈ group := by
  unfold isRecursiveIn at hf
  rcases (Bool.or_eq_true _ _).mp hf with hany | hself
  · cases hindex : (groupIndex groups).get? f with
    | none =>
      rw [hindex] at hany
      cases hany
    | some i =>
      obtain ⟨group, hi, hf⟩ := (get?_groupIndex h.apart).mp hindex
      exact ⟨group, List.mem_of_getElem? hi, hf⟩
  · exact (h.covers f).mp (mem_successors_callGraph_iff.mp (of_decide_eq_true hself)).caller

/-- A function is found recursive if and only if calls, at least one, lead from it back to it. -/
theorem isRecursiveIn_iff {groups : List (List FunctionRef)}
    (h : p.inTable.CalleesFirst groups) (hnodup : ∀ group ∈ groups, group.Nodup)
    {f : FunctionRef} : p.isRecursiveIn groups f = true ↔ TransGen p.CallEdge f f := by
  have hgroup : ∀ group ∈ groups, f ∈ group →
      (p.isRecursiveIn groups f = true ↔ TransGen p.CallEdge f f) := by
    intro group hg hf
    rw [isRecursiveIn_iff_of_mem h.apart hg hf, ← p.calls_inTable_eq,
      h.transGen_iff p.closed_inTable hg (hnodup group hg) hf]
  constructor
  · intro hrec
    obtain ⟨group, hg, hf⟩ := exists_group_of_isRecursiveIn h hrec
    exact (hgroup group hg hf).mp hrec
  · intro hcycle
    obtain ⟨g, hfg, -⟩ := TransGen.head'_iff.mp hcycle
    obtain ⟨group, hg, hf⟩ := (h.covers f).mp hfg.caller
    exact (hgroup group hg hf).mpr hcycle

/-! ## Callers -/

section Callers

theorem callersOf_subset {fs : List FunctionRef} (hfs : ∀ f ∈ fs, f ∈ p.symbols.functions)
    {f : FunctionRef} (hf : f ∈ p.callersOf fs) : f ∈ p.symbols.functions := by
  obtain ⟨g, hg, hreach⟩ := mem_callersOf.mp hf
  rcases ReflTransGen.cases_head hreach with rfl | ⟨k, hk, -⟩
  · exact hfs _ hg
  · exact hk.caller

/-- What reaches a caller is a caller. -/
theorem mem_callersOf_of_reaches {fs : List FunctionRef} (f g : FunctionRef)
    (hreach : p.inTable.Reaches f g) (hg : g ∈ p.callersOf fs) : f ∈ p.callersOf fs := by
  rw [p.reaches_inTable_eq] at hreach
  obtain ⟨k, hk, hgk⟩ := mem_callersOf.mp hg
  exact mem_callersOf.mpr ⟨k, hk, hreach.trans hgk⟩

end Callers

/-- **What a change affects.** Take any symbol table, any bodies and any functions of the table. The
computed callers of these functions are exactly those from which a sequence of calls, possibly
empty, leads to one of them. For the rest take any groups of functions that reach one another,
callees first; the computed groups are such groups. The places of the groups chosen for the callers
are in ascending order, and the chosen groups have exactly the callers as members. What a member
calls in another group is no caller, or is in a group that was chosen earlier. The groups are the
classes of functions that reach one another, and a member is found recursive if its group has
another member or it calls itself. If no group lists a member twice, these are the functions from
which a sequence of calls, at least one, leads back to them. -/
theorem affected_groups_exact (registry : Registry) (changes : List SymbolTable.Change)
    (bodies : OrderedMap FunctionRef BoundFunction) (seeds : List FunctionRef)
    (hseeds : ∀ f ∈ seeds, f ∈ (SymbolTable.ofChanges changes).functions) :
    let p : LinkedProgram := ⟨registry, .ofChanges changes, bodies⟩
    let affected := p.callersOf seeds
    (∀ f, f ∈ affected ↔ ∃ g ∈ seeds, ReflTransGen p.CallEdge f g) ∧
    p.inTable.CalleesFirst p.groups ∧ (∀ group ∈ p.groups, group.Nodup) ∧
    ∀ groups, p.inTable.CalleesFirst groups →
      let chosen := chooseGroups groups affected
      (groupPlaces groups affected).Pairwise (· < ·) ∧
      chosen.Sublist groups ∧
      (∀ f, (∃ group ∈ chosen, f ∈ group) ↔ f ∈ affected) ∧
      (∀ (i : Nat) group, chosen[i]? = some group → ∀ f ∈ group, ∀ g, p.CallEdge f g → g ∉ group →
        g ∉ affected ∨ ∃ j < i, ∃ earlier, chosen[j]? = some earlier ∧ g ∈ earlier) ∧
      (∀ group ∈ groups, ∀ f ∈ group,
        (∀ g, g ∈ group ↔ ReflTransGen p.CallEdge f g ∧ ReflTransGen p.CallEdge g f) ∧
        (p.isRecursiveIn groups f = true ↔ 1 < group.length ∨ p.CallEdge f f)) ∧
      ((∀ group ∈ groups, group.Nodup) →
        ∀ f, p.isRecursiveIn groups f = true ↔ TransGen p.CallEdge f f) := by
  intro p affected
  have hup : ∀ f g, p.inTable.Reaches f g → g ∈ affected → f ∈ affected :=
    mem_callersOf_of_reaches
  have hin : ∀ f ∈ affected, f ∈ p.symbols.functions := fun f => callersOf_subset hseeds
  refine ⟨fun f => mem_callersOf, p.calleesFirst_inTable,
    fun group => Digraph.nodup_of_mem_components p.simple_callGraph, fun groups h => ?_⟩
  intro chosen
  refine ⟨pairwise_groupPlaces affected, ?_, fun f => h.mem_chooseGroups_iff_mem hup hin,
    fun i group hi f hf g hfg hg => ?_, fun group hg f hf => ⟨fun g => ?_, ?_⟩, fun hnodup f => ?_⟩
  · show (chooseGroups groups affected).Sublist groups
    rw [chooseGroups_eq h.apart]
    exact List.filter_sublist
  · by_cases haff : g ∈ affected
    · rw [← p.calls_inTable_eq] at hfg
      exact .inr (h.exists_earlier_group hup hin hi hf hfg hg haff)
    · exact .inl haff
  · rw [← p.reaches_inTable_eq]
    exact h.mem_group_iff p.closed_inTable hg hf
  · exact isRecursiveIn_iff_of_mem h.apart hg hf
  · exact isRecursiveIn_iff h hnodup

/-- A function of the file `a.cdz`. -/
def parityRef (name : String) : FunctionRef := ⟨Path.key ⟨"a.cdz"⟩, name⟩

/-- A body that calls the given functions of the file. -/
def parityBody (name : String) (callees : List String) : FunctionRef × BoundFunction :=
  (parityRef name,
    { ref := parityRef name, calls := callees.map fun g => ⟨.function (parityRef g), .unset⟩ })

/-- Two functions that call each other, with a caller that calls one of them twice; a function that
calls itself and one that is gone; and a function apart. -/
def parityProgram : LinkedProgram where
  registry := .standard
  symbols := .ofChanges [.collect .standard "a"
    (SymbolMaps.namesUnit ["main", "even", "odd", "print", "other"])]
  bodies := OrderedMap.ofList
    [parityBody "main" ["even", "even"], parityBody "even" ["odd"],
      parityBody "odd" ["even", "print"], parityBody "print" ["print", "gone"],
      parityBody "other" []]

theorem parity_affected :
    let p := parityProgram
    parityRef "print" ∈ p.symbols.functions ∧
    ReflTransGen p.CallEdge (parityRef "main") (parityRef "print") ∧
    (¬ ∃ g ∈ [parityRef "print"], ReflTransGen p.CallEdge (parityRef "other") g) ∧
    chooseGroups p.groups (p.callersOf [parityRef "print"]) =
      [[parityRef "print"], [parityRef "even", parityRef "odd"], [parityRef "main"]] ∧
    TransGen p.CallEdge (parityRef "even") (parityRef "even") ∧
    TransGen p.CallEdge (parityRef "print") (parityRef "print") ∧
    ¬ TransGen p.CallEdge (parityRef "main") (parityRef "main") := by
  intro p
  have hprint : parityRef "print" ∈ p.symbols.functions := by decide +kernel
  obtain ⟨hmem, hgroups, hnodup, hall⟩ := affected_groups_exact p.registry _ p.bodies
    [parityRef "print"] (fun f hf => List.mem_singleton.mp hf ▸ hprint)
  obtain ⟨-, -, -, -, -, hrecursive⟩ := hall p.groups hgroups
  have hcycle := hrecursive hnodup
  obtain ⟨_, hg, hmain⟩ := (hmem (parityRef "main")).mp (by decide +kernel)
  refine ⟨hprint, List.mem_singleton.mp hg ▸ hmain, fun h => ?_, by decide +kernel,
    (hcycle _).mp (by decide +kernel), (hcycle _).mp (by decide +kernel), fun h => ?_⟩
  · exact absurd ((hmem (parityRef "other")).mpr h) (by decide +kernel)
  · exact absurd ((hcycle (parityRef "main")).mpr h) (by decide +kernel)

end EffectAudit.LinkedProgram
