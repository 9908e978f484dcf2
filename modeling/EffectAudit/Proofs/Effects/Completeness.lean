import EffectAudit.Proofs.Effects.InTable

/-!
# Complete summaries

A summary is complete if no body behind the function is poisoned, that is, if no call of it is
missing. This too is settled by the calls alone, whatever order they are looked at in.

## Main definitions

* `LinkedProgram.PoisonBehind`: a function reaches a poisoned body
* `LinkedProgram.Reordered`: the same bodies, in another order and with their calls in another order

## Main results

* `LinkedProgram.isComplete_eq_false_iff`: exact summaries are incomplete if there is poison behind
* `LinkedProgram.Reordered.poisonBehind_iff`: other orders have poison behind the same functions
* `LinkedProgram.incomplete_iff_poison_behind`: the summaries of any program
-/

namespace EffectAudit.LinkedProgram

open Relation

/-- `f` reaches a function with a poisoned body. -/
def PoisonBehind (p : LinkedProgram) (f : FunctionRef) : Prop :=
  ∃ g b, p.Reaches f g ∧ p.body? g = some b ∧ b.isPoisoned = true

variable {p : LinkedProgram}

theorem isComplete_eq_false_iff {f : FunctionRef} :
    (p.exactSummary f).isComplete = false ↔ p.PoisonBehind f := by
  rw [← Bool.not_eq_true, isComplete_exactSummary]
  unfold FullyBound PoisonBehind
  push Not
  simp only [ne_eq, Bool.not_eq_false]
  constructor
  · rintro ⟨g, hg, b, hb, hpoisoned⟩
    exact ⟨g, b, hg, hb, hpoisoned⟩
  · rintro ⟨g, b, hg, hb, hpoisoned⟩
    exact ⟨g, hg, b, hb, hpoisoned⟩

/-- There is no poison behind a function without a body. -/
theorem not_poisonBehind_of_no_body {f : FunctionRef} (hf : p.body? f = none) :
    ¬ p.PoisonBehind f := by
  rintro ⟨g, b, hg, hb, -⟩
  obtain rfl := reaches_of_no_body hf hg
  rw [hf] at hb
  cases hb

/-! ## Poison in the table -/

/-- If all bodies belong to functions of the table, all poison is there. -/
theorem poisonBehind_inTable_iff
    (hbodies : ∀ f b, p.body? f = some b → f ∈ p.symbols.functions) {f : FunctionRef} :
    p.inTable.PoisonBehind f ↔ p.PoisonBehind f := by
  constructor
  · rintro ⟨g, b, hr, hb, hpoisoned⟩
    obtain ⟨b', hb', -, rfl⟩ := body?_inTable_eq_some_iff.mp hb
    exact ⟨g, b', (reaches_inTable_iff hbodies (hbodies g b' hb')).mp hr, hb', hpoisoned⟩
  · rintro ⟨g, b, hr, hb, hpoisoned⟩
    have hg := hbodies g b hb
    refine ⟨g, p.trim b, (reaches_inTable_iff hbodies hg).mpr hr, ?_, hpoisoned⟩
    exact body?_inTable_eq_some_iff.mpr ⟨b, hb, isSome_signature?_iff.mpr hg, rfl⟩

/-! ## Other orders -/

/-- The same bodies in another order, each with its calls in another order. -/
structure Reordered (bodies bodies' : List BoundFunction) : Prop
    extends Rearranged bodies bodies' where
  poisoned : ∀ b ∈ bodies, ∀ b' ∈ bodies', b.ref = b'.ref → b.isPoisoned = b'.isPoisoned

namespace Reordered

variable {registry : Registry} {symbols : SymbolTable} {bodies bodies' : List BoundFunction}

theorem symm (h : Reordered bodies bodies') : Reordered bodies' bodies :=
  ⟨h.toRearranged.symm, fun b' hb' b hb hr => (h.poisoned b hb b' hb' hr.symm).symm⟩

/-- Bodies in another order, with their calls as they are. -/
theorem of_perm (hrefs : (bodies.map (·.ref)).Nodup) (h : bodies.Perm bodies') :
    Reordered bodies bodies' := by
  have heq : ∀ b ∈ bodies, ∀ b' ∈ bodies', b.ref = b'.ref → b = b' := fun b hb b' hb' =>
    inj_of_nodup hrefs b hb b' (h.mem_iff.mpr hb')
  refine ⟨⟨h.map _, fun b hb b' hb' hr => ?_⟩, fun b hb b' hb' hr => ?_⟩
  · rw [heq b hb b' hb' hr]
  · rw [heq b hb b' hb' hr]

theorem poisonBehind (hrefs : (bodies.map (·.ref)).Nodup) (h : Reordered bodies bodies')
    {f : FunctionRef} (hf : (ofBodies registry symbols bodies).inTable.PoisonBehind f) :
    (ofBodies registry symbols bodies').inTable.PoisonBehind f := by
  obtain ⟨g, b, hr, hb, hpoisoned⟩ := hf
  obtain ⟨b₀, hb₀, hg, rfl⟩ := body?_inTable_eq_some_iff.mp hb
  obtain ⟨hmem, rfl⟩ := (body?_ofBodies (inj_of_nodup hrefs)).mp hb₀
  obtain ⟨b', hb', hr', -⟩ := h.toRearranged.symm.exists_body hmem
  have hbody : (ofBodies registry symbols bodies').body? b₀.ref = some b' :=
    (body?_ofBodies (inj_of_nodup (h.nodup hrefs))).mpr ⟨hb', hr'⟩
  -- the way to the poisoned body is there in the other order too
  have hcalls : (ofBodies registry symbols bodies).inTable.Calls ≤
      (ofBodies registry symbols bodies').inTable.Calls := by
    intro k k' hcall
    obtain ⟨hk, hk', c, hc, hck⟩ := calls_inTable_iff.mp hcall
    exact calls_inTable_iff.mpr ⟨hk, hk', c, h.mem_sites hrefs hc, hck⟩
  refine ⟨_, _, ReflTransGen.mono hcalls _ _ hr,
    body?_inTable_eq_some_iff.mpr ⟨b', hbody, hg, rfl⟩, ?_⟩
  rw [isPoisoned_trim, ← h.poisoned _ hmem b' hb' hr'.symm]
  exact hpoisoned

theorem poisonBehind_iff (hrefs : (bodies.map (·.ref)).Nodup) (h : Reordered bodies bodies')
    {f : FunctionRef} : (ofBodies registry symbols bodies).inTable.PoisonBehind f ↔
      (ofBodies registry symbols bodies').inTable.PoisonBehind f :=
  ⟨h.poisonBehind hrefs, h.symm.poisonBehind (h.nodup hrefs)⟩

end Reordered

/-! ## Completeness -/

/-- **Summaries are incomplete where there is poison behind.** Whatever bodies there are, every
function of the table gets a summary. Without a body it is complete; with a body it is incomplete if
and only if the function reaches a poisoned body, itself included. The calls between functions of
the table decide this, and those are all calls if all bodies belong to the table. Other orders of
the bodies, of the calls in them, and of groups and their members, as long as callees come first,
make no difference. -/
theorem incomplete_iff_poison_behind (registry : Registry) (changes : List SymbolTable.Change)
    (bodies : List BoundFunction) :
    let p := ofBodies registry (.ofChanges changes) bodies
    p.inTable.CalleesFirst p.groups ∧
    ∀ groups, p.inTable.CalleesFirst groups →
      let inferred := p.summarize ∅ groups
      (∀ f ∈ p.symbols.functions, ∃ summary, inferred.get? f = some summary ∧
        (p.body? f = none → summary.isComplete = true) ∧
        ∀ b, p.body? f = some b →
          (summary.isComplete = false ↔ p.inTable.PoisonBehind f) ∧
          ((∀ b ∈ bodies, b.ref ∈ p.symbols.functions) →
            (summary.isComplete = false ↔ p.PoisonBehind f))) ∧
      ∀ bodies' groups', (bodies.map (·.ref)).Nodup → Reordered bodies bodies' →
        (ofBodies registry (.ofChanges changes) bodies').inTable.CalleesFirst groups' →
        ∀ f, (((ofBodies registry (.ofChanges changes) bodies').summarize ∅ groups').get? f).map
          (·.isComplete) = (inferred.get? f).map (·.isComplete) := by
  intro p
  refine ⟨p.calleesFirst_inTable, fun groups hgroups => ?_⟩
  intro inferred
  have hm : p.inTable.ExactSummaries inferred := exactSummaries_inTable hgroups
  refine ⟨fun f hf => ?_, fun bodies' groups' hrefs h hgroups' f => ?_⟩
  · refine ⟨p.inTable.exactSummary f, hm.get?_of_mem hf, fun hb => ?_, fun b _ => ?_⟩
    · have hnone : p.inTable.body? f = none := by
        rw [body?_inTable, hb]
        rfl
      rw [← Bool.not_eq_false, isComplete_eq_false_iff]
      exact not_poisonBehind_of_no_body hnone
    · refine ⟨isComplete_eq_false_iff, fun hknown => ?_⟩
      rw [isComplete_eq_false_iff]
      refine poisonBehind_inTable_iff fun g b hb => ?_
      obtain ⟨b', hb', he⟩ := List.mem_map.mp (OrderedMap.mem_of_get?_ofList hb)
      cases he
      exact hknown _ hb'
  · have hm' := exactSummaries_inTable (p := ofBodies registry (.ofChanges changes) bodies')
      hgroups'
    by_cases hf : f ∈ p.symbols.functions
    · rw [hm'.get?_of_mem hf, hm.get?_of_mem hf, Option.map_some, Option.map_some, Option.some_inj,
        ← Bool.not_inj_iff, Bool.eq_iff_iff]
      simp only [Bool.not_eq_true', isComplete_eq_false_iff]
      exact (h.poisonBehind_iff hrefs).symm
    · rw [hm'.get?_of_not_mem hf, hm.get?_of_not_mem hf]

/-- Two functions that call each other, one of which has a call that could not be bound. -/
def poisonedBodies : List BoundFunction :=
  [{ ref := recursionRef "ping", calls := [⟨.function (recursionRef "pong"), ⟨0, 1, 1⟩⟩] },
    { ref := recursionRef "pong"
      calls := [⟨.function (recursionRef "ping"), ⟨1, 2, 1⟩⟩,
        ⟨.function (recursionRef "note"), ⟨1, 2, 1⟩⟩]
      isPoisoned := true }]

theorem poison_behind_recursion :
    let p := ofBodies .standard (.ofChanges recursionChanges) poisonedBodies
    let inferred := p.summarize ∅ p.groups
    let p' := ofBodies .standard (.ofChanges recursionChanges) poisonedBodies.reverse
    (∀ b ∈ poisonedBodies, b.ref ∈ p.symbols.functions) ∧
    (∃ summary, inferred.get? (recursionRef "ping") = some summary ∧
      summary.isComplete = false ∧ p.PoisonBehind (recursionRef "ping")) ∧
    (∃ summary, inferred.get? (recursionRef "note") = some summary ∧ summary.isComplete = true) ∧
    ((p'.summarize ∅ p'.groups).get? (recursionRef "ping")).map (·.isComplete) = some false := by
  intro p inferred p'
  obtain ⟨hgroups, hall⟩ := incomplete_iff_poison_behind .standard recursionChanges poisonedBodies
  obtain ⟨hgroups', -⟩ :=
    incomplete_iff_poison_behind .standard recursionChanges poisonedBodies.reverse
  obtain ⟨hsummary, horder⟩ := hall _ hgroups
  have hknown : ∀ b ∈ poisonedBodies, b.ref ∈ p.symbols.functions := by decide
  have hrefs : (poisonedBodies.map (·.ref)).Nodup := by decide
  have hping : (inferred.get? (recursionRef "ping")).map (·.isComplete) = some false := by
    decide +kernel
  refine ⟨hknown, ?_, ?_, ?_⟩
  · obtain ⟨summary, hget, -, hiff⟩ := hsummary (recursionRef "ping") (by decide)
    have hget : inferred.get? (recursionRef "ping") = some summary := hget
    rw [hget, Option.map_some, Option.some_inj] at hping
    exact ⟨summary, hget, hping, ((hiff _ rfl).2 hknown).mp hping⟩
  · obtain ⟨summary, hget, hnone, -⟩ := hsummary (recursionRef "note") (by decide)
    exact ⟨summary, hget, hnone rfl⟩
  · have hreordered := Reordered.of_perm hrefs poisonedBodies.reverse_perm.symm
    exact (horder _ _ hrefs hreordered hgroups' _).trans hping

end EffectAudit.LinkedProgram
