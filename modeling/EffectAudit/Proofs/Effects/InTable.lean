import EffectAudit.Proofs.Effects.Inference
import EffectAudit.Proofs.Lists
import EffectAudit.Proofs.Sorting

/-!
# Programs with unknown functions

A body may belong to a function that is not in the symbol table, and it may call such functions. The
summaries take no notice of either: they are those of the program in which only functions of the
table have bodies and only operations and functions of the table are called.

## Main definitions

* `LinkedProgram.inTable`: a program without what its symbol table does not know

## Main results

* `LinkedProgram.closed_inTable`: all bodies and all callees of it belong to functions of the table
* `LinkedProgram.groups_inTable`, `LinkedProgram.summarize_inTable`: it has the same groups and the
  same summaries
* `LinkedProgram.exactSummaries_inTable`: what the summaries of any program are
* `LinkedProgram.reaches_inTable_iff`, `LinkedProgram.requires_inTable_iff`: it leaves out no way to
  a function of the table and no effect, if all bodies belong to the table
-/

namespace EffectAudit.LinkedProgram

open Relation

/-- Whether a callee is an operation or a function of the table. -/
def knows (p : LinkedProgram) : Callee → Bool
  | .operation _ => true
  | .function f => (p.signature? f).isSome

/-- A body without its calls of unknown functions. -/
def trim (p : LinkedProgram) (b : BoundFunction) : BoundFunction :=
  { b with calls := b.calls.filter fun c => p.knows c.callee }

/-- The program without the bodies of unknown functions and without calls of them. -/
def inTable (p : LinkedProgram) : LinkedProgram where
  registry := p.registry
  symbols := p.symbols
  bodies := (p.bodies.filter fun f _ => (p.signature? f).isSome).map fun _ b => p.trim b

variable {p : LinkedProgram}

@[simp]
theorem registry_inTable : p.inTable.registry = p.registry := rfl

@[simp]
theorem symbols_inTable : p.inTable.symbols = p.symbols := rfl

@[simp]
theorem signature?_inTable (f : FunctionRef) : p.inTable.signature? f = p.signature? f := rfl

@[simp]
theorem isPoisoned_trim (b : BoundFunction) : (p.trim b).isPoisoned = b.isPoisoned := rfl

theorem callees_trim (b : BoundFunction) :
    (p.trim b).callees = b.callees.filter fun g => (p.signature? g).isSome := by
  unfold trim BoundFunction.callees
  rw [List.filterMap_filter, List.filter_filterMap]
  refine List.filterMap_congr fun c _ => ?_
  cases hc : c.callee with
  | operation op => simp
  | function g => cases hs : (p.signature? g).isSome <;> simp [knows, Option.filter, hs]

theorem isSome_signature?_iff {f : FunctionRef} :
    (p.signature? f).isSome = true ↔ f ∈ p.symbols.functions := by
  rw [SymbolTable.mem_functions_iff, Option.isSome_iff_exists]
  rfl

/-! ## Bodies and calls -/

theorem body?_inTable (f : FunctionRef) :
    p.inTable.body? f = ((p.body? f).filter fun _ => (p.signature? f).isSome).map p.trim := by
  unfold body? inTable
  rw [OrderedMap.get?_map, OrderedMap.get?_filter]

theorem body?_inTable_eq_some_iff {g : FunctionRef} {b : BoundFunction} :
    p.inTable.body? g = some b ↔
      ∃ b', p.body? g = some b' ∧ (p.signature? g).isSome = true ∧ p.trim b' = b := by
  rw [body?_inTable, Option.map_eq_some_iff]
  constructor
  · rintro ⟨b', hb', rfl⟩
    obtain ⟨hb', hg⟩ := Option.filter_eq_some_iff.mp hb'
    exact ⟨b', hb', hg, rfl⟩
  · rintro ⟨b', hb', hg, rfl⟩
    exact ⟨b', Option.filter_eq_some_iff.mpr ⟨hb', hg⟩, rfl⟩

theorem body?_inTable_of_known {f : FunctionRef} (hf : (p.signature? f).isSome = true) :
    p.inTable.body? f = (p.body? f).map p.trim := by
  rw [body?_inTable, hf]
  cases p.body? f with
  | none => rfl
  | some b => rfl

theorem sites_inTable {f : FunctionRef} (hf : (p.signature? f).isSome = true) :
    p.inTable.sites f = (p.sites f).filter fun c => p.knows c.callee := by
  unfold sites
  rw [body?_inTable_of_known hf]
  cases p.body? f with
  | none => rfl
  | some b => rfl

theorem known_of_mem_sites {f : FunctionRef} {c : CallSite} (hc : c ∈ p.inTable.sites f) :
    (p.signature? f).isSome = true := by
  cases hb : p.inTable.body? f with
  | none =>
    rw [sites_of_no_body hb] at hc
    exact absurd hc List.not_mem_nil
  | some b =>
    obtain ⟨-, -, hf, -⟩ := body?_inTable_eq_some_iff.mp hb
    exact hf

theorem calls_inTable_iff {f g : FunctionRef} : p.inTable.Calls f g ↔
    (p.signature? f).isSome = true ∧ (p.signature? g).isSome = true ∧ p.Calls f g := by
  constructor
  · rintro ⟨c, hc, hg⟩
    have hf := known_of_mem_sites hc
    rw [sites_inTable hf, List.mem_filter, hg] at hc
    exact ⟨hf, hc.2, c, hc.1, hg⟩
  · rintro ⟨hf, hg, c, hc, hcg⟩
    refine ⟨c, ?_, hcg⟩
    rw [sites_inTable hf, List.mem_filter, hcg]
    exact ⟨hc, hg⟩

variable (p) in
/-- All bodies and all callees belong to functions of the table. -/
theorem closed_inTable : p.inTable.Closed where
  body f b hb := by
    obtain ⟨-, -, hf, -⟩ := body?_inTable_eq_some_iff.mp hb
    exact isSome_signature?_iff.mp hf
  callee f g hcall := isSome_signature?_iff.mp (calls_inTable_iff.mp hcall).2.1

/-- Nothing is left out of a program whose bodies and callees all belong to the table. -/
theorem Closed.inTable_eq (hp : p.Closed) : p.inTable = p := by
  have hknown : ∀ {g}, g ∈ p.symbols.functions → (p.signature? g).isSome = true :=
    isSome_signature?_iff.mpr
  have hbodies : p.inTable.bodies = p.bodies := by
    refine OrderedMap.ext_get? fun f => ?_
    show p.inTable.body? f = p.body? f
    cases hb : p.body? f with
    | none => rw [body?_inTable, hb, Option.filter_none, Option.map_none]
    | some b =>
      rw [body?_inTable_of_known (hknown (hp.body f b hb)), hb, Option.map_some, Option.some_inj]
      have hcalls : b.calls.filter (fun c => p.knows c.callee) = b.calls := by
        refine List.filter_eq_self.mpr fun c hc => ?_
        cases hcallee : c.callee with
        | operation op => rfl
        | function g => exact hknown (hp.callee f g ⟨c, by rwa [sites_of_body hb], hcallee⟩)
      unfold trim
      rw [hcalls]
  show (⟨p.registry, p.symbols, p.inTable.bodies⟩ : LinkedProgram) = p
  rw [hbodies]

/-- If all bodies belong to functions of the table, every way to such a function stays in the
table. -/
theorem reaches_inTable_iff
    (hbodies : ∀ f b, p.body? f = some b → f ∈ p.symbols.functions) {f g : FunctionRef}
    (hg : g ∈ p.symbols.functions) : p.inTable.Reaches f g ↔ p.Reaches f g := by
  -- whatever reaches `g` is `g` itself or has a body
  have hknown : ∀ {k}, p.Reaches k g → (p.signature? k).isSome = true := by
    intro k hk
    rcases ReflTransGen.cases_head hk with rfl | ⟨k', hcall, -⟩
    · exact isSome_signature?_iff.mpr hg
    · obtain ⟨b, hb, -⟩ := hcall.exists_body
      exact isSome_signature?_iff.mpr (hbodies k b hb)
  constructor
  · exact ReflTransGen.mono (fun a b h => (calls_inTable_iff.mp h).2.2) f g
  · intro h
    induction h using ReflTransGen.head_induction_on with
    | refl => exact .refl
    | @head k k' hcall hrest ih =>
      have hk : (p.signature? k).isSome = true := hknown (.head hcall hrest)
      exact .head (calls_inTable_iff.mpr ⟨hk, hknown hrest, hcall⟩) ih

/-! ## Effects -/

/-- Effects come in at functions of the table only, if all bodies belong to the table. -/
theorem Introduces.mem_functions
    (hbodies : ∀ f b, p.body? f = some b → f ∈ p.symbols.functions) {g : FunctionRef} {e : Effect}
    (h : p.Introduces g e) : g ∈ p.symbols.functions := by
  rcases h with ⟨c, hc, -⟩ | ⟨-, s, hs, -⟩
  · cases hb : p.body? g with
    | none =>
      rw [sites_of_no_body hb] at hc
      exact absurd hc List.not_mem_nil
    | some b => exact hbodies g b hb
  · exact SymbolTable.mem_functions_iff.mpr ⟨s, hs⟩

theorem introduces_inTable_iff {g : FunctionRef} (hg : (p.signature? g).isSome = true)
    {e : Effect} : p.inTable.Introduces g e ↔ p.Introduces g e := by
  unfold Introduces
  rw [sites_inTable hg, body?_inTable_of_known hg, Option.map_eq_none_iff]
  refine or_congr ⟨?_, ?_⟩ Iff.rfl
  · rintro ⟨c, hc, hop⟩
    exact ⟨c, (List.mem_filter.mp hc).1, hop⟩
  · -- calls of operations are never left out
    rintro ⟨c, hc, op, hop, he⟩
    refine ⟨c, List.mem_filter.mpr ⟨hc, ?_⟩, op, hop, he⟩
    rw [hop]
    rfl

section Effects

variable (hbodies : ∀ f b, p.body? f = some b → f ∈ p.symbols.functions)

include hbodies

/-- If all bodies belong to functions of the table, no effect is left out. -/
theorem requires_inTable_iff {f : FunctionRef} {e : Effect} :
    p.inTable.Requires f e ↔ p.Requires f e := by
  constructor
  · rintro ⟨g, hr, hi⟩
    have hg : g ∈ p.symbols.functions :=
      hi.mem_functions (p := p.inTable) p.closed_inTable.body
    exact ⟨g, (reaches_inTable_iff hbodies hg).mp hr,
      (introduces_inTable_iff (isSome_signature?_iff.mpr hg)).mp hi⟩
  · rintro ⟨g, hr, hi⟩
    have hg : g ∈ p.symbols.functions := hi.mem_functions hbodies
    exact ⟨g, (reaches_inTable_iff hbodies hg).mpr hr,
      (introduces_inTable_iff (isSome_signature?_iff.mpr hg)).mpr hi⟩

theorem calleeEffects_inTable (callee : Callee) :
    p.inTable.calleeEffects callee = p.calleeEffects callee := by
  refine EffectSet.ext_iff.mpr fun e => ?_
  cases callee with
  | operation op => exact Iff.rfl
  | function g =>
    rw [mem_calleeEffects_function, mem_calleeEffects_function]
    exact requires_inTable_iff hbodies

end Effects

/-! ## Groups -/

theorem callees_inTable {f : FunctionRef} (hf : (p.signature? f).isSome = true) :
    p.inTable.callees f = p.callees f := by
  unfold callees
  rw [body?_inTable_of_known hf]
  cases p.body? f with
  | none => rfl
  | some b =>
    simp only [Option.map_some, Option.getD_some, signature?_inTable, callees_trim,
      List.filter_filter, Bool.and_self]

variable (p) in
/-- The groups are those of the functions of the table. -/
theorem groups_inTable : p.inTable.groups = p.groups := by
  have hnext : ∀ f ∈ p.symbols.functions, p.inTable.callees f = p.callees f := fun f hf =>
    callees_inTable (isSome_signature?_iff.mpr hf)
  unfold groups callGraph Digraph.ofSuccessors
  rw [symbols_inTable, List.map_congr_left fun f hf => by rw [hnext f hf]]

variable (p) in
theorem calleesFirst_inTable : p.inTable.CalleesFirst p.groups := by
  rw [← p.groups_inTable]
  exact p.closed_inTable.calleesFirst_groups

/-! ## Summaries -/

section Group

variable {known : FunctionRef → Option EffectSummary} {group : List FunctionRef}
  (hknown : ∀ f, p.signature? f = none → known f = none)
  (hgroup : ∀ f ∈ group, (p.signature? f).isSome = true)

section Calls

include hknown

/-- A call that brings an effect is one of an operation or of a function of the table. -/
theorem knows_of_mem_effectsOf {callee : Callee} {e : Effect} (he : e ∈ p.effectsOf known callee) :
    p.knows callee = true := by
  cases callee with
  | operation op => rfl
  | function g =>
    by_contra hg
    have hnone : p.signature? g = none := by simpa [knows] using hg
    have hrequired : p.requiredBy known g = ∅ := by
      unfold requiredBy
      rw [hknown g hnone, hnone]
      rfl
    have he : e ∈ p.requiredBy known g := he
    rw [hrequired] at he
    exact EffectSet.not_mem_empty e he

include hgroup

theorem groupEffects_inTable :
    p.inTable.groupEffects known group = p.groupEffects known group := by
  refine EffectSet.ext_iff.mpr fun e => ?_
  rw [mem_groupEffects, mem_groupEffects]
  refine exists_congr fun f => and_congr_right fun hf => ?_
  rw [sites_inTable (hgroup f hf)]
  constructor
  · rintro ⟨c, hc, hs, he⟩
    exact ⟨c, (List.mem_filter.mp hc).1, hs, he⟩
  · -- a call that brings an effect is among those that are kept
    rintro ⟨c, hc, hs, he⟩
    exact ⟨c, List.mem_filter.mpr ⟨hc, knows_of_mem_effectsOf hknown he⟩, hs, he⟩

theorem knows_of_mem_effectsWithin {required : EffectSet} {callee : Callee} {e : Effect}
    (he : e ∈ p.effectsWithin known group required callee) : p.knows callee = true := by
  unfold effectsWithin at he
  split at he
  · rename_i hs
    cases callee with
    | operation op => rfl
    | function g => exact hgroup g (of_decide_eq_true hs)
  · exact knows_of_mem_effectsOf hknown he

theorem originAmong?_inTable {required : EffectSet} {f : FunctionRef} (hf : f ∈ group)
    (e : Effect) :
    originAmong? (p.inTable.contributions known group required f) e =
      originAmong? (p.contributions known group required f) e := by
  have hsort : p.inTable.sitesByDirectness group f =
      (p.sitesByDirectness group f).filter fun c => p.knows c.callee := by
    unfold sitesByDirectness
    rw [sites_inTable (hgroup f hf), filter_sortBy]
    · intro a b
      simpa using Nat.le_total _ _
    · intro a b c hab hbc
      simp only [decide_eq_true_eq] at hab hbc ⊢
      exact Nat.le_trans hab hbc
  unfold originAmong? contributions
  rw [List.find?_map, List.find?_map, hsort]
  -- a call of an unknown function brings nothing, so it is not the one that is found
  have hbrings : ∀ c, (p.sitesByDirectness group f).find?
      (fun c => (p.effectsWithin known group required c.callee).contains e) = some c →
      p.knows c.callee = true := by
    intro c hc
    exact knows_of_mem_effectsWithin hknown hgroup (List.find?_eq_some_iff_append.mp hc).1
  exact congrArg (fun o => Option.map _ (Option.map _ o)) (find?_filter_of_imp hbrings)

theorem isKnown_inTable {f : FunctionRef} (hf : f ∈ group) :
    p.inTable.isKnown known group f = p.isKnown known group f := by
  unfold isKnown
  rw [body?_inTable_of_known (hgroup f hf)]
  cases p.body? f with
  | none => rfl
  | some b =>
    simp only [Option.map_some, isPoisoned_trim, callees_trim, List.all_filter]
    congr 2
    funext g
    cases hg : p.signature? g with
    | some s => simp
    | none => simp [hknown g hg]

theorem groupSummary_inTable {f : FunctionRef} (hf : f ∈ group) :
    p.inTable.groupSummary known group f = p.groupSummary known group f := by
  have hall : group.all (p.inTable.isKnown known group) = group.all (p.isKnown known group) := by
    rw [Bool.eq_iff_iff, List.all_eq_true, List.all_eq_true]
    refine forall₂_congr fun f hf => ?_
    rw [isKnown_inTable hknown hgroup hf]
  unfold groupSummary
  rw [groupEffects_inTable hknown hgroup, hall]
  simp only [originAmong?_inTable hknown hgroup hf]

end Calls

end Group

/-- A group that is connected in the table is connected. -/
theorem Connected.of_inTable {group : List FunctionRef} (h : p.inTable.Connected group) :
    p.Connected group := fun f hf g hg =>
  ReflTransGen.mono (fun _ _ hstep => ⟨hstep.1, (calls_inTable_iff.mp hstep.2).2.2⟩) _ _
    (h f hf g hg)

theorem withBody_inTable {group : List FunctionRef}
    (hgroup : ∀ f ∈ group, (p.signature? f).isSome = true) :
    p.inTable.withBody group = p.withBody group :=
  List.filter_congr fun f hf => by rw [body?_inTable_of_known (hgroup f hf), Option.isSome_map]

theorem withoutBody_inTable {group : List FunctionRef}
    (hgroup : ∀ f ∈ group, (p.signature? f).isSome = true) :
    p.inTable.withoutBody group = p.withoutBody group :=
  List.filter_congr fun f hf => by
    rw [body?_inTable_of_known (hgroup f hf), ← Option.not_isSome, Option.isSome_map,
      Option.not_isSome]

/-- The summaries of a group of the table are those that the program has without what the table does
not know. -/
theorem addGroup_inTable {cached done : Summaries} {group : List FunctionRef}
    (hknown : ∀ f, p.signature? f = none → knownIn cached done f = none)
    (hg : p.inTable.IsGroup group) (hgroup : ∀ f ∈ group, (p.signature? f).isSome = true) :
    p.inTable.addGroup cached done group = p.addGroup cached done group := by
  have hconn := hg.connected
  rw [withBody_inTable hgroup] at hconn
  have hsignatures : p.inTable.addSignatures done (p.withoutBody group) =
      p.addSignatures done (p.withoutBody group) := rfl
  -- signatures are added for members only
  have hknown' : ∀ f, p.signature? f = none →
      knownIn cached (p.addSignatures done (p.withoutBody group)) f = none := by
    intro f hf
    rw [← hknown f hf]
    unfold knownIn
    rw [get?_addSignatures_of_not_mem]
    intro hmem
    have hsome := hgroup f (List.mem_filter.mp hmem).1
    rw [hf] at hsome
    cases hsome
  show p.inTable.addBodies cached (p.inTable.addSignatures done (p.inTable.withoutBody group))
      (p.inTable.withBody group) =
    p.addBodies cached (p.addSignatures done (p.withoutBody group)) (p.withBody group)
  rw [withBody_inTable hgroup, withoutBody_inTable hgroup, hsignatures, hconn.addBodies_eq,
    hconn.of_inTable.addBodies_eq]
  congr 1
  refine List.map_congr_left fun f hf => ?_
  rw [groupSummary_inTable hknown' (fun g hg => hgroup g (List.mem_filter.mp hg).1) hf]

/-- Summaries of a group are about its members only. -/
theorem get?_addGroup_of_not_mem {cached done : Summaries} {group : List FunctionRef}
    {f : FunctionRef} (hf : f ∉ group) :
    (p.addGroup cached done group).get? f = done.get? f := by
  have hfold : ∀ (l : List FunctionRef) (done : Summaries)
      (summary : Summaries → FunctionRef → EffectSummary), f ∉ l →
      (l.foldl (fun done g => done.insert g (summary done g)) done).get? f = done.get? f := by
    intro l
    induction l with
    | nil => exact fun _ _ _ => rfl
    | cons g rest ih =>
      intro done summary hl
      obtain ⟨hne, hrest⟩ := not_or.mp (List.mem_cons.not.mp hl)
      rw [List.foldl_cons, ih _ _ hrest, OrderedMap.get?_insert_of_ne hne]
  refine (hfold _ _ _ fun hmem => hf (List.mem_filter.mp hmem).1).trans ?_
  exact get?_addSignatures_of_not_mem fun hmem => hf (List.mem_filter.mp hmem).1

/-- The summaries of groups of the table are those that the program has without what the table does
not know. -/
theorem summarize_inTable {cached : Summaries} {groups : List (List FunctionRef)}
    (hknown : ∀ f, p.signature? f = none → cached.get? f = none)
    (hgroups : ∀ group ∈ groups, p.inTable.IsGroup group ∧
      ∀ f ∈ group, (p.signature? f).isSome = true) :
    p.inTable.summarize cached groups = p.summarize cached groups := by
  have hfold : ∀ (l : List (List FunctionRef)) (done : Summaries), (∀ group ∈ l, group ∈ groups) →
      (∀ f, p.signature? f = none → knownIn cached done f = none) →
      l.foldl (p.inTable.addGroup cached) done = l.foldl (p.addGroup cached) done := by
    intro l
    induction l with
    | nil =>
      intro done _ _
      rw [List.foldl_nil, List.foldl_nil]
    | cons group rest ih =>
      intro done hl hdone
      obtain ⟨hmem, hrest⟩ := List.forall_mem_cons.mp hl
      obtain ⟨hg, hgroup⟩ := hgroups group hmem
      rw [List.foldl_cons, List.foldl_cons, addGroup_inTable hdone hg hgroup]
      refine ih _ hrest fun f hf => ?_
      -- a group adds summaries of its members only, so unknown functions still have none
      rw [← hdone f hf]
      unfold knownIn
      rw [get?_addGroup_of_not_mem]
      intro hfg
      have hsome := hgroup f hfg
      rw [hf] at hsome
      cases hsome
  exact hfold groups ∅ (fun _ h => h) fun f hf => hknown f hf

/-- **The summaries of any program** are exact for what its symbol table knows of it. -/
theorem exactSummaries_inTable {groups : List (List FunctionRef)}
    (h : p.inTable.CalleesFirst groups) : p.inTable.ExactSummaries (p.summarize ∅ groups) := by
  have hclosed := p.closed_inTable
  rw [← summarize_inTable (fun _ _ => rfl) fun group hg => ⟨hclosed.isGroup h hg, fun f hf =>
    isSome_signature?_iff.mpr ((h.covers f).mpr ⟨group, hg, hf⟩)⟩]
  exact hclosed.exactSummaries_of_calleesFirst h

end EffectAudit.LinkedProgram
