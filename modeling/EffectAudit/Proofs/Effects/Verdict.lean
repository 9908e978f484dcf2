import EffectAudit.Effects.Verdict
import EffectAudit.Proofs.Effects.Inference

/-!
# The verdict on declared effects

The verdict on a function is read off its summary and the summaries of what it calls. With exact
summaries a call brings what its operation has or what its function requires. If all bodies behind a
function are known, its requirements come from operations alone.

## Main definitions

* `LinkedProgram.ReachesOperation`: an operation that is called behind a function

## Main results

* `LinkedProgram.requires_iff_reachesOperation`: what functions require if all bodies are known
* `LinkedProgram.ExactSummaries.effectsOf_eq`: what a call brings
* `LinkedProgram.effectFaults_of_body`: the faults of a function in terms of its summary
-/

namespace EffectAudit

theorem EffectSet.isEmpty_iff {s : EffectSet} : s.isEmpty = true ↔ ∀ e, ¬ e ∈ s := by
  have h : s.isEmpty = true ↔ s = ∅ := by
    unfold isEmpty
    rw [beq_iff_eq]
    exact ⟨fun hb => congrArg mk hb, fun hs => congrArg bits hs⟩
  rw [h, ext_iff]
  exact forall_congr' fun e => iff_false_right (not_mem_empty e)

theorem Signature.mem_declared_ofDecl {registry : Registry} {moduleName : String} {u : SourceUnit}
    {d : Spanned FunctionDecl} {e : Effect} :
    e ∈ (ofDecl registry moduleName u d).declared ↔
      ∃ t ∈ d.node.effects, registry.effect? t.node = some e :=
  EffectSet.mem_ofList.trans List.mem_filterMap

namespace LinkedProgram

variable {p : LinkedProgram}

/-! ## Operations behind a function -/

/-- `f` calls the operation, directly or through other functions. -/
def ReachesOperation (p : LinkedProgram) (f : FunctionRef) (op : Operation) : Prop :=
  ∃ g, p.Reaches f g ∧ ∃ c ∈ p.sites g, c.callee = .operation op

/-- If all bodies behind a function are known, it requires the effects of the operations that are
called there. -/
theorem requires_iff_reachesOperation {f : FunctionRef}
    (hbodies : ∀ g, p.Reaches f g → p.body? g ≠ none) {e : Effect} :
    p.Requires f e ↔ ∃ op, p.ReachesOperation f op ∧ p.registry.effectOf op = e := by
  constructor
  · rintro ⟨g, hg, ⟨c, hc, op, hop, he⟩ | ⟨hnone, -⟩⟩
    · exact ⟨op, ⟨g, hg, c, hc, hop⟩, he⟩
    · exact absurd hnone (hbodies g hg)
  · rintro ⟨op, ⟨g, hg, c, hc, hop⟩, he⟩
    exact ⟨g, hg, .inl ⟨c, hc, op, hop, he⟩⟩

/-! ## Calls and faults -/

/-- Exact summaries say what a call brings. -/
theorem ExactSummaries.effectsOf_eq {m : Summaries} (hp : p.Closed) (hm : p.ExactSummaries m)
    {f : FunctionRef} {c : CallSite} (hc : c ∈ p.sites f) :
    p.effectsOf m.get? c.callee = p.calleeEffects c.callee := by
  cases hcallee : c.callee with
  | operation op => rfl
  | function g =>
    have hg : m.get? g = some (p.exactSummary g) := hm.get?_of_mem (hp.callee f g ⟨c, hc, hcallee⟩)
    show p.requiredBy m.get? g = p.requiredEffects g
    rw [requiredBy, hg]
    rfl

/-- The faults of a function that is bound completely. -/
theorem effectFaults_of_body {m : Summaries} {f : FunctionRef} {s : Signature} {b : BoundFunction}
    {summary : EffectSummary} (hs : p.signature? f = some s) (hb : p.body? f = some b)
    (hsummary : m.get? f = some summary) (hclear : b.isPoisoned = false) (ignored : EffectSet) :
    p.effectFaults m ignored f =
      if s.isPure then (p.impurity? m s b summary).toList
      else missingEffects m s summary ++ p.unusedEffects ignored s summary := by
  unfold effectFaults
  simp only [hs, hb, hsummary, hclear, Bool.false_eq_true, if_false]

end LinkedProgram

end EffectAudit
