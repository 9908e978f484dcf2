import EffectAudit.Proofs.Effects.Completeness
import EffectAudit.Proofs.Effects.Origin

/-!
# Faults of declared effects

The check of declared effects reports what is wrong and nothing else. A function that is not pure
has one fault for each effect that it requires and does not declare, in the order of the vocabulary,
and, unless there is poison behind it, one for each token of its `uses` clause whose effect is
neither required nor ignored. A pure function has at most one fault: at the first call that brings
an effect, or else at its `uses` clause.

## Main definitions

* `LinkedProgram.undeclared`, `LinkedProgram.needless`: the effects and the tokens to be reported
* `LinkedProgram.ReportsMissing`, `LinkedProgram.ReportsUnused`: what is said of one of them
* `LinkedProgram.ReachesEffect`: an operation or an effect of a function without a body lies behind

## Main results

* `LinkedProgram.effectsOf_eq_inTable`: what a call brings, in any program
* `LinkedProgram.of_effectFaults_pure`, `LinkedProgram.of_effectFaults_declared`: functions without
  a fault
* `LinkedProgram.effect_faults_exact`: the faults of a function that is not pure
* `LinkedProgram.pure_fault_exact`: the fault of a pure function
-/

namespace EffectAudit.LinkedProgram

open Relation Classical

/-! ## What is to be reported -/

section Faults

variable (p : LinkedProgram)

/-- The effects that a function requires and does not declare, in the order of the vocabulary. -/
noncomputable def undeclared (f : FunctionRef) (s : Signature) : List Effect :=
  Effect.all.filter fun e => p.Requires f e ∧ ¬ e ∈ s.declared

/-- The tokens of a `uses` clause whose effects are neither required nor ignored. -/
noncomputable def needless (ignored : EffectSet) (f : FunctionRef) (s : Signature) :
    List (Spanned String) :=
  s.tokens.filter fun t =>
    ∃ e, p.registry.effect? t.node = some e ∧ ¬ p.Requires f e ∧ ¬ e ∈ ignored

/-- A missing effect is reported at a call that brings it. -/
def ReportsMissing (m : Summaries) (s : Signature) (b : BoundFunction) (e : Effect)
    (d : Diagnostic) : Prop :=
  ∃ c ∈ b.calls, e ∈ p.calleeEffects c.callee ∧
    d = (Finding.missingEffect s.name e (m.chain s.ref e).text
      (s.declared.union (p.requiredEffects s.ref))).report s.path c.span

/-- An unused effect is reported at its token. -/
def ReportsUnused (s : Signature) (t : Spanned String) (d : Diagnostic) : Prop :=
  ∃ e, p.registry.effect? t.node = some e ∧
    d = (Finding.unusedEffect s.name e).report s.path t.span

/-- `f` reaches a call of an operation, or a function without a body that declares an effect. -/
def ReachesEffect (f : FunctionRef) : Prop :=
  (∃ op, p.ReachesOperation f op) ∨
    ∃ g s e, p.Reaches f g ∧ p.body? g = none ∧ p.signature? g = some s ∧ e ∈ s.declared

end Faults

variable {p : LinkedProgram}

theorem mem_undeclared {f : FunctionRef} {s : Signature} {e : Effect} :
    e ∈ p.undeclared f s ↔ p.Requires f e ∧ ¬ e ∈ s.declared := by
  unfold undeclared
  rw [List.mem_filter, decide_eq_true_eq]
  exact and_iff_right (Effect.mem_all e)

theorem mem_needless {ignored : EffectSet} {f : FunctionRef} {s : Signature} {t : Spanned String} :
    t ∈ p.needless ignored f s ↔ t ∈ s.tokens ∧
      ∃ e, p.registry.effect? t.node = some e ∧ ¬ p.Requires f e ∧ ¬ e ∈ ignored := by
  unfold needless
  rw [List.mem_filter, decide_eq_true_eq]

/-- Every operation has an effect, so something is required if an operation is called. -/
theorem reachesEffect_iff {f : FunctionRef} : p.ReachesEffect f ↔ ∃ e, p.Requires f e := by
  constructor
  · rintro (⟨op, g, hg, c, hc, hop⟩ | ⟨g, s, e, hg, hb, hs, he⟩)
    · exact ⟨p.registry.effectOf op, g, hg, .inl ⟨c, hc, op, hop, rfl⟩⟩
    · exact ⟨e, g, hg, .inr ⟨hb, s, hs, he⟩⟩
  · rintro ⟨e, g, hg, ⟨c, hc, op, hop, -⟩ | ⟨hb, s, hs, he⟩⟩
    · exact .inl ⟨op, g, hg, c, hc, hop⟩
    · exact .inr ⟨g, s, e, hg, hb, hs, he⟩

/-! ## Faults and exact summaries -/

section InTable

variable {m : Summaries} (hm : p.inTable.ExactSummaries m)

include hm

/-- **What a call brings** is what its operation has or what its function requires. A function
outside the table brings nothing. -/
theorem effectsOf_eq_inTable (callee : Callee) :
    p.effectsOf m.get? callee = p.inTable.calleeEffects callee := by
  cases callee with
  | operation op => rfl
  | function g =>
    show p.requiredBy m.get? g = p.inTable.requiredEffects g
    by_cases hg : g ∈ p.symbols.functions
    · rw [requiredBy, hm.get?_of_mem hg]
      rfl
    · refine EffectSet.ext_iff.mpr fun e => iff_of_false (fun he => hg ?_) fun he => hg ?_
      · have he : e ∈ p.effectsOf m.get? (.function g) := he
        exact isSome_signature?_iff.mp (knows_of_brings hm he)
      · obtain ⟨k, hk, hi⟩ := mem_requiredEffects.mp he
        have hknown : k ∈ p.symbols.functions :=
          hi.mem_functions (p := p.inTable) p.closed_inTable.body
        have hnone : p.inTable.body? g = none := by
          by_contra hsome
          obtain ⟨b, hb⟩ := Option.ne_none_iff_exists'.mp hsome
          exact hg (p.closed_inTable.body g b hb)
        rwa [reaches_of_no_body hnone hk] at hknown

variable {f : FunctionRef} {s : Signature} {b : BoundFunction} (hs : p.signature? f = some s)
  (hb : p.body? f = some b)

include hs hb

omit hm in
/-- Each effect that is not declared is reported once, in the order of the vocabulary. -/
theorem forall₂_missingEffects :
    List.Forall₂ (p.inTable.ReportsMissing m s b) (p.inTable.undeclared f s)
      (missingEffects m s (p.inTable.exactSummary f)) := by
  have hf : f ∈ p.symbols.functions := SymbolTable.mem_functions_iff.mpr ⟨s, hs⟩
  have hlist : ((p.inTable.exactSummary f).required.difference s.declared).toList =
      p.inTable.undeclared f s := by
    refine List.filter_congr fun e _ => Bool.eq_iff_iff.mpr ?_
    rw [decide_eq_true_eq, ← mem_requiredEffects]
    exact EffectSet.mem_difference
  unfold missingEffects
  rw [hlist, List.forall₂_map_right_iff, List.forall₂_same]
  intro e he
  -- the effect is reported at its origin, which is a call of the body
  obtain ⟨b', hb', hsites⟩ := exists_body_inTable hf hb
  obtain ⟨c, horigin, hfirst, -⟩ := exists_origin hb' (mem_undeclared.mp he).1
  have hc := hfirst.mem
  rw [hsites] at hc
  refine ⟨c, (List.mem_filter.mp hc).1, hfirst.holds.2, ?_⟩
  rw [horigin, Option.bind_some, span?_ofSite, SymbolTable.ref_of_lookup? hs]
  rfl

omit hm hs hb in
/-- Each token that is not needed is reported once, in the order of the clause, if no body behind
the function is poisoned. -/
theorem forall₂_unusedEffects (hclear : ¬ p.inTable.PoisonBehind f) (ignored : EffectSet) :
    List.Forall₂ (p.inTable.ReportsUnused s) (p.inTable.needless ignored f s)
      (p.unusedEffects ignored s (p.inTable.exactSummary f)) := by
  have hcomplete : (p.inTable.exactSummary f).isComplete = true := by
    rwa [← Bool.not_eq_false, isComplete_eq_false_iff]
  have hused : ∀ e, ((p.inTable.exactSummary f).required.contains e || ignored.contains e) = true ↔
      p.inTable.Requires f e ∨ e ∈ ignored := fun e =>
    Bool.or_eq_true_iff.trans (or_congr mem_requiredEffects Iff.rfl)
  unfold unusedEffects needless
  rw [if_pos hcomplete]
  nth_rewrite 1 [← List.map_id s.tokens]
  refine forall₂_filter_filterMap (fun t _ hkept => ?_) fun t _ hneedless => ?_
  · have hkept := of_decide_eq_false hkept
    cases he : p.registry.effect? t.node with
    | none => rfl
    | some e =>
      refine if_pos ((hused e).mpr ?_)
      by_contra hnot
      exact hkept ⟨e, he, not_or.mp hnot⟩
  · obtain ⟨e, he, hnot⟩ := of_decide_eq_true hneedless
    refine ⟨(Finding.unusedEffect s.name e).report s.path t.span, ?_, e, he, rfl⟩
    have he : p.registry.effect? t.node = some e := he
    rw [he]
    exact if_neg fun h => not_or.mpr hnot ((hused e).mp h)

omit hm hs hb in
theorem unusedEffects_of_poison (hpoison : p.inTable.PoisonBehind f) (ignored : EffectSet) :
    p.unusedEffects ignored s (p.inTable.exactSummary f) = [] := by
  unfold unusedEffects
  rw [isComplete_eq_false_iff.mpr hpoison, if_neg Bool.false_ne_true]

/-! ## Pure functions -/

omit hs hb in
/-- The first call that brings an effect. -/
theorem firstEffectful?_eq_some_iff {c : CallSite} : p.firstEffectful? m b = some c ↔
    IsFirst (fun c => ∃ e, e ∈ p.inTable.calleeEffects c.callee) b.calls c := by
  have htest : ∀ c : CallSite, (!(p.effectsOf m.get? c.callee).isEmpty) =
      decide (∃ e, e ∈ p.inTable.calleeEffects c.callee) := by
    intro c
    rw [effectsOf_eq_inTable hm, Bool.eq_iff_iff, Bool.not_eq_true', ← Bool.not_eq_true,
      EffectSet.isEmpty_iff, decide_eq_true_eq]
    push Not
    rfl
  unfold firstEffectful?
  rw [IsFirst.iff_find?]
  simp only [htest]

/-- Whatever a function requires is brought by a call of its body, so one of these is the first. -/
theorem exists_firstEffectful {e : Effect} (he : p.inTable.Requires f e) :
    ∃ c, IsFirst (fun c => ∃ e, e ∈ p.inTable.calleeEffects c.callee) b.calls c := by
  have hf : f ∈ p.symbols.functions := SymbolTable.mem_functions_iff.mpr ⟨s, hs⟩
  obtain ⟨c, hc, hce⟩ := (mem_required_iff hm hf hb).mp (mem_requiredEffects.mpr he)
  rw [effectsOf_eq_inTable hm] at hce
  simp only [IsFirst.iff_find?]
  rw [← Option.isSome_iff_exists, List.find?_isSome]
  exact ⟨c, hc, decide_eq_true ⟨e, hce⟩⟩

section Impurity

variable (hclear : b.isPoisoned = false) (hpure : s.isPure = true)

include hclear hpure

/-- A pure function that requires effects is reported at the first call that brings one. -/
theorem effectFaults_of_requires {e : Effect} (he : p.inTable.Requires f e) (ignored : EffectSet) :
    ∃ c, IsFirst (fun c => ∃ e, e ∈ p.inTable.calleeEffects c.callee) b.calls c ∧
      p.effectFaults m ignored f =
        [(Finding.pureCallsEffectful s.name (calleeName c.callee)
          (p.inTable.calleeEffects c.callee)).report s.path c.span] := by
  have hf : f ∈ p.symbols.functions := SymbolTable.mem_functions_iff.mpr ⟨s, hs⟩
  have hsome : ¬ (p.inTable.exactSummary f).required.isEmpty = true := fun hempty =>
    EffectSet.isEmpty_iff.mp hempty e (mem_requiredEffects.mpr he)
  obtain ⟨c, hc⟩ := exists_firstEffectful hm hs hb he
  refine ⟨c, hc, ?_⟩
  rw [effectFaults_of_body hs hb (hm.get?_of_mem hf) hclear, if_pos hpure]
  unfold impurity?
  simp only [if_neg hsome, (firstEffectful?_eq_some_iff hm).mpr hc,
    effectsOf_eq_inTable hm, Option.toList_some]

/-- A pure function that requires nothing is reported for its `uses` clause, if it has tokens. -/
theorem effectFaults_of_not_requires (hnone : ∀ e, ¬ p.inTable.Requires f e) (ignored : EffectSet) :
    p.effectFaults m ignored f =
      if s.tokens = [] then []
      else [(Finding.pureDeclaresEffects s.name s.declared).report s.path
        (s.usesSpan.getD s.span)] := by
  have hf : f ∈ p.symbols.functions := SymbolTable.mem_functions_iff.mpr ⟨s, hs⟩
  have hempty : (p.inTable.exactSummary f).required.isEmpty = true :=
    EffectSet.isEmpty_iff.mpr fun e he => hnone e (mem_requiredEffects.mp he)
  rw [effectFaults_of_body hs hb (hm.get?_of_mem hf) hclear, if_pos hpure]
  unfold impurity?
  simp only [if_pos hempty]
  cases s.tokens with
  | nil => rfl
  | cons t rest => rfl

end Impurity

end InTable

/-! ## Functions without a fault -/

section Faultless

variable {m : Summaries} (hp : p.Closed) (hm : p.ExactSummaries m) {f : FunctionRef} {s : Signature}
  {b : BoundFunction} (hs : p.signature? f = some s) (hb : p.body? f = some b)
  (hfull : p.FullyBound f)

include hp hm hs hb hfull

/-- A pure function without a fault requires no effect and has no `uses` tokens. -/
theorem of_effectFaults_pure (hpure : s.isPure = true) {ignored : EffectSet}
    (hclean : p.effectFaults m ignored f = []) :
    s.tokens = [] ∧ ∀ e, ¬ p.Requires f e := by
  have hclear : b.isPoisoned = false := hfull f .refl b hb
  rw [← hp.inTable_eq] at hm
  have hnone : ∀ e, ¬ p.inTable.Requires f e := by
    intro e he
    obtain ⟨c, -, hfaults⟩ := effectFaults_of_requires hm hs hb hclear hpure he ignored
    rw [hclean] at hfaults
    cases hfaults
  have hfaults := effectFaults_of_not_requires hm hs hb hclear hpure hnone ignored
  rw [hp.inTable_eq] at hnone
  refine ⟨?_, hnone⟩
  by_contra htokens
  rw [if_neg htokens, hclean] at hfaults
  cases hfaults

/-- A function without a fault that is not pure declares what it requires, and has only tokens for
effects that it requires. -/
theorem of_effectFaults_declared (hpure : s.isPure = false) (hclean : p.effectFaults m ∅ f = []) :
    (∀ e, p.Requires f e → e ∈ s.declared) ∧
      ∀ t ∈ s.tokens, ∀ e, p.registry.effect? t.node = some e → p.Requires f e := by
  have hpoison : ¬ p.PoisonBehind f := by
    rintro ⟨g, b', hg, hb', hpoisoned⟩
    rw [hfull g hg b' hb'] at hpoisoned
    cases hpoisoned
  rw [effectFaults_of_body hs hb (hm.get?_of_mem (hp.body f b hb)) (hfull f .refl b hb),
    if_neg (by rw [hpure]; exact Bool.false_ne_true), List.append_eq_nil_iff] at hclean
  -- with nothing reported there is nothing to report
  have hmissing := forall₂_missingEffects (m := m) hs hb
  rw [hp.inTable_eq, hclean.1, List.forall₂_nil_right_iff] at hmissing
  rw [← hp.inTable_eq] at hpoison
  have hunused := forall₂_unusedEffects (s := s) hpoison ∅
  rw [hp.inTable_eq, hclean.2, List.forall₂_nil_right_iff] at hunused
  constructor
  · intro e he
    by_contra hnot
    have hmem : e ∈ p.undeclared f s := mem_undeclared.mpr ⟨he, hnot⟩
    rw [hmissing] at hmem
    exact absurd hmem List.not_mem_nil
  · intro t ht e he
    by_contra hnot
    have hmem : t ∈ p.needless ∅ f s :=
      mem_needless.mpr ⟨ht, e, he, hnot, EffectSet.not_mem_empty e⟩
    rw [hunused] at hmem
    exact absurd hmem List.not_mem_nil

end Faultless

/-! ## Faults of any program -/

/-- What the tokens of a clause name is declared, if clauses are read in the registry. -/
theorem mem_declared_of_token {registry : Registry} {changes : List SymbolTable.Change}
    (hread : ∀ c ∈ changes, c.ReadBy registry) {f : FunctionRef} {s : Signature}
    (hs : (SymbolTable.ofChanges changes).lookup? f = some s) {t : Spanned String}
    (ht : t ∈ s.tokens) {e : Effect} (he : registry.effect? t.node = some e) :
    e ∈ s.declared := by
  obtain ⟨moduleName, u, d, rfl⟩ :=
    SymbolTable.readBy_ofChanges hread f.file s (SymbolTable.mem_signaturesIn_of_lookup? hs)
  exact Signature.mem_declared_ofDecl.mpr ⟨t, ht, he⟩

/-- **Faults of declared effects are exact.** Let a function have a body that is bound completely,
and let it not be pure. Each effect that it requires and does not declare is reported once, in the
order of the vocabulary, at a call that brings it. Unless there is poison behind the function, each
token whose effect is neither required nor ignored is reported once, at the token; otherwise none
is. There are no other faults. So a function that declares what it requires has none, and one that
lacks an effect and has a needless token has faults of both kinds. What is required is settled by
the calls between functions of the table, and those are all calls if all bodies belong to the
table. -/
theorem effect_faults_exact (registry : Registry) (changes : List SymbolTable.Change)
    (bodies : List BoundFunction) :
    let p := ofBodies registry (.ofChanges changes) bodies
    let q := p.inTable
    ((∀ b ∈ bodies, b.ref ∈ p.symbols.functions) → ∀ f,
      (∀ e, q.Requires f e ↔ p.Requires f e) ∧ (q.PoisonBehind f ↔ p.PoisonBehind f)) ∧
    q.CalleesFirst p.groups ∧
    ∀ groups, q.CalleesFirst groups →
      let inferred := p.summarize ∅ groups
      ∀ f s b, p.signature? f = some s → p.body? f = some b → b.isPoisoned = false →
        s.isPure = false → ∀ ignored, ∃ missing unused,
          p.effectFaults inferred ignored f = missing ++ unused ∧
          List.Forall₂ (q.ReportsMissing inferred s b) (q.undeclared f s) missing ∧
          (¬ q.PoisonBehind f →
            List.Forall₂ (q.ReportsUnused s) (q.needless ignored f s) unused) ∧
          (q.PoisonBehind f → unused = []) ∧
          ((∀ c ∈ changes, c.ReadBy registry) → (∀ e, e ∈ s.declared ↔ q.Requires f e) →
            p.effectFaults inferred ignored f = []) ∧
          ∀ e ∈ q.undeclared f s, ∀ t ∈ q.needless ignored f s, ¬ q.PoisonBehind f →
            (∃ d ∈ missing, d.rule = .effectCompleteness) ∧
              ∃ d ∈ unused, d.rule = .effectMinimality := by
  intro p q
  refine ⟨fun hknown f => ?_, p.calleesFirst_inTable, fun groups hgroups => ?_⟩
  · have hbodies : ∀ f b, p.body? f = some b → f ∈ p.symbols.functions :=
      mem_functions_of_body? hknown
    exact ⟨fun e => requires_inTable_iff hbodies, poisonBehind_inTable_iff hbodies⟩
  intro inferred f s b hs hb hclear hpure ignored
  have hm : q.ExactSummaries inferred := exactSummaries_inTable hgroups
  have hf : f ∈ p.symbols.functions := SymbolTable.mem_functions_iff.mpr ⟨s, hs⟩
  have hfaults := effectFaults_of_body hs hb (hm.get?_of_mem hf) hclear ignored
  rw [if_neg (by rw [hpure]; exact Bool.false_ne_true)] at hfaults
  have hmissing := forall₂_missingEffects (m := inferred) hs hb
  refine ⟨_, _, hfaults, hmissing, fun h => forall₂_unusedEffects h ignored,
    fun h => unusedEffects_of_poison h ignored, fun hread hdeclared => ?_, fun e he t ht h => ?_⟩
  · have hnone : q.undeclared f s = [] := by
      refine List.eq_nil_iff_forall_not_mem.mpr fun e he => ?_
      obtain ⟨hrequires, hnot⟩ := mem_undeclared.mp he
      exact hnot ((hdeclared e).mpr hrequires)
    have hneedless : q.needless ignored f s = [] := by
      refine List.eq_nil_iff_forall_not_mem.mpr fun t ht => ?_
      obtain ⟨htoken, e, he, hnot, -⟩ := mem_needless.mp ht
      exact hnot ((hdeclared e).mp (mem_declared_of_token hread hs htoken he))
    rw [hnone, List.forall₂_nil_left_iff] at hmissing
    rw [hfaults, hmissing, List.nil_append]
    by_cases h : q.PoisonBehind f
    · exact unusedEffects_of_poison h ignored
    · have hunused := forall₂_unusedEffects (s := s) h ignored
      rwa [hneedless, List.forall₂_nil_left_iff] at hunused
  · obtain ⟨d, hd, c, -, -, rfl⟩ := exists_mem_of_forall₂ hmissing he
    obtain ⟨d', hd', e', -, rfl⟩ := exists_mem_of_forall₂ (forall₂_unusedEffects h ignored) ht
    exact ⟨⟨_, hd, rfl⟩, _, hd', rfl⟩

/-- A file in which two functions call each other and a pure function calls one of them. -/
def relayUnit : SourceUnit where
  path := ⟨"relay.cdz"⟩
  declarations :=
    [⟨.function
        { name := "relay", returns := .named "Unit"
          effects := [⟨"Network", ⟨1, 21, 7⟩⟩, ⟨"Logging", ⟨1, 30, 7⟩⟩] }, ⟨1, 1, 40⟩⟩,
      ⟨.function { name := "store", returns := .named "Unit", effects := [⟨"DB", ⟨5, 21, 2⟩⟩] },
        ⟨5, 1, 30⟩⟩,
      ⟨.function { name := "peek", returns := .named "Unit", isPure := true }, ⟨9, 1, 30⟩⟩,
      ⟨.function { name := "tick", returns := .named "Unit" }, ⟨13, 1, 30⟩⟩]

/-- The function of the given name in the file. -/
def relayRef (name : String) : FunctionRef := ⟨relayUnit.path.key, name⟩

/-- The bodies of its functions. -/
def relayBodies : List BoundFunction :=
  [{ ref := relayRef "relay"
     calls :=
      [⟨.function (relayRef "tick"), ⟨2, 3, 6⟩⟩, ⟨.function (relayRef "store"), ⟨3, 3, 7⟩⟩] },
    { ref := relayRef "store"
      calls := [⟨.function (relayRef "relay"), ⟨6, 3, 7⟩⟩, ⟨.operation .dbQuery, ⟨7, 3, 10⟩⟩] },
    { ref := relayRef "peek"
      calls :=
        [⟨.function (relayRef "tick"), ⟨10, 3, 6⟩⟩, ⟨.function (relayRef "relay"), ⟨11, 3, 7⟩⟩] },
    { ref := relayRef "tick" }]

/-- The changes that lead to the table with the file. -/
def relayChanges : List SymbolTable.Change := [.collect .standard "relay" relayUnit]

/-- The file, the bodies of its functions known. -/
def relayProgram : LinkedProgram := ofBodies .standard (.ofChanges relayChanges) relayBodies

theorem relay_faults_exact :
    let inferred := relayProgram.summarize ∅ relayProgram.groups
    let ignored := EffectSet.ofList [.logging]
    (∀ b ∈ relayBodies, b.ref ∈ relayProgram.symbols.functions) ∧
    (∀ c ∈ relayChanges, c.ReadBy .standard) ∧
    ¬ relayProgram.PoisonBehind (relayRef "relay") ∧
    (∃ missing unused,
      relayProgram.effectFaults inferred ignored (relayRef "relay") = missing ++ unused ∧
      (∃ d ∈ missing, d.rule = .effectCompleteness) ∧ ∃ d ∈ unused, d.rule = .effectMinimality) ∧
    (∀ e, relayProgram.Requires (relayRef "store") e ↔ e = .database) ∧
    relayProgram.effectFaults inferred ignored (relayRef "store") = [] := by
  intro inferred ignored
  obtain ⟨hsame, hgroups, hall⟩ := effect_faults_exact .standard relayChanges relayBodies
  have hm : relayProgram.inTable.ExactSummaries inferred :=
    exactSummaries_inTable hgroups
  have hknown : ∀ b ∈ relayBodies, b.ref ∈ relayProgram.symbols.functions := by decide
  have hread : ∀ c ∈ relayChanges, c.ReadBy .standard := by
    intro c hc
    cases List.mem_singleton.mp hc
    rfl
  -- both functions require the effect of the one operation that is called, and are fully bound
  have hsummary : ∀ f ∈ [relayRef "relay", relayRef "store"],
      (∀ e, relayProgram.inTable.Requires f e ↔ e = .database) ∧
        ¬ relayProgram.inTable.PoisonBehind f := by
    intro f hf
    have hcomputed : f ∈ relayProgram.symbols.functions ∧
        (inferred.get? f).map (fun r => (r.required.toList, r.isComplete)) =
          some ([.database], true) := by
      revert f
      decide +kernel
    obtain ⟨hmem, hget⟩ := hcomputed
    rw [hm.get?_of_mem hmem, Option.map_some, Option.some_inj, Prod.mk.injEq] at hget
    refine ⟨fun e => ?_, fun hpoison => ?_⟩
    · rw [← mem_requiredEffects, ← EffectSet.mem_toList]
      exact hget.1 ▸ List.mem_singleton
    · rw [isComplete_eq_false_iff.mpr hpoison] at hget
      cases hget.2
  obtain ⟨hrelay, hclear⟩ := hsummary (relayRef "relay") (by decide)
  obtain ⟨hstore, -⟩ := hsummary (relayRef "store") (by decide)
  refine ⟨hknown, hread, fun h => hclear ((hsame hknown _).2.mpr h), ?_,
    fun e => ((hsame hknown _).1 e).symm.trans (hstore e), ?_⟩
  · obtain ⟨missing, unused, hfaults, -, -, -, -, hboth⟩ :=
      hall _ hgroups (relayRef "relay") _ _ rfl rfl rfl rfl ignored
    refine ⟨missing, unused, hfaults, hboth .database ?_ ⟨"Network", ⟨1, 21, 7⟩⟩ ?_ hclear⟩
    · exact mem_undeclared.mpr ⟨(hrelay .database).mpr rfl, by decide⟩
    · refine mem_needless.mpr ⟨List.mem_cons_self, .network, rfl, fun h => ?_, by decide⟩
      cases (hrelay .network).mp h
  · obtain ⟨-, -, -, -, -, -, hsilent, -⟩ :=
      hall _ hgroups (relayRef "store") _ _ rfl rfl rfl rfl ignored
    refine hsilent hread fun e => Iff.trans ?_ (hstore e).symm
    cases e <;> decide

/-- **A pure function has at most one fault.** Let a pure function have a body that is bound
completely. It has one fault if it reaches an operation or an effect of a function without a body,
or if it has a token in its `uses` clause, and otherwise it has none. In the first case there is a
call that brings an effect, and the fault is at the first such call. What is reached is settled by
the calls between functions of the table, and those are all calls if all bodies belong to the
table. -/
theorem pure_fault_exact (registry : Registry) (changes : List SymbolTable.Change)
    (bodies : List BoundFunction) :
    let p := ofBodies registry (.ofChanges changes) bodies
    let q := p.inTable
    ((∀ b ∈ bodies, b.ref ∈ p.symbols.functions) →
      (∀ f, q.ReachesEffect f ↔ p.ReachesEffect f) ∧
        ∀ callee, q.calleeEffects callee = p.calleeEffects callee) ∧
    q.CalleesFirst p.groups ∧
    ∀ groups, q.CalleesFirst groups →
      let inferred := p.summarize ∅ groups
      ∀ f s b, p.signature? f = some s → p.body? f = some b → b.isPoisoned = false →
        s.isPure = true → ∀ ignored,
          (q.ReachesEffect f ∨ s.tokens ≠ [] →
            ∃ d, p.effectFaults inferred ignored f = [d] ∧ d.rule = .pureFunctionViolation) ∧
          (¬ (q.ReachesEffect f ∨ s.tokens ≠ []) → p.effectFaults inferred ignored f = []) ∧
          (q.ReachesEffect f →
            ∃ c, IsFirst (fun c => ∃ e, e ∈ q.calleeEffects c.callee) b.calls c ∧
              p.effectFaults inferred ignored f =
                [(Finding.pureCallsEffectful s.name (calleeName c.callee)
                  (q.calleeEffects c.callee)).report s.path c.span]) ∧
          (¬ q.ReachesEffect f → s.tokens ≠ [] →
            p.effectFaults inferred ignored f =
              [(Finding.pureDeclaresEffects s.name s.declared).report s.path
                (s.usesSpan.getD s.span)]) := by
  intro p q
  refine ⟨fun hknown => ?_, p.calleesFirst_inTable, fun groups hgroups => ?_⟩
  · have hbodies : ∀ f b, p.body? f = some b → f ∈ p.symbols.functions :=
      mem_functions_of_body? hknown
    refine ⟨fun f => ?_, calleeEffects_inTable hbodies⟩
    rw [reachesEffect_iff, reachesEffect_iff]
    exact exists_congr fun e => requires_inTable_iff hbodies
  intro inferred f s b hs hb hclear hpure ignored
  have hm : q.ExactSummaries inferred := exactSummaries_inTable hgroups
  have hcall : q.ReachesEffect f →
      ∃ c, IsFirst (fun c => ∃ e, e ∈ q.calleeEffects c.callee) b.calls c ∧
        p.effectFaults inferred ignored f =
          [(Finding.pureCallsEffectful s.name (calleeName c.callee)
            (q.calleeEffects c.callee)).report s.path c.span] := by
    intro h
    obtain ⟨e, he⟩ := reachesEffect_iff.mp h
    exact effectFaults_of_requires hm hs hb hclear hpure he ignored
  have hclause : ¬ q.ReachesEffect f →
      p.effectFaults inferred ignored f =
        if s.tokens = [] then []
        else [(Finding.pureDeclaresEffects s.name s.declared).report s.path
          (s.usesSpan.getD s.span)] := fun h =>
    effectFaults_of_not_requires hm hs hb hclear hpure
      (fun e he => h (reachesEffect_iff.mpr ⟨e, he⟩)) ignored
  refine ⟨fun h => ?_, fun h => ?_, hcall, fun h htokens => ?_⟩
  · by_cases heffect : q.ReachesEffect f
    · obtain ⟨c, -, hfaults⟩ := hcall heffect
      exact ⟨_, hfaults, rfl⟩
    · have hfaults := hclause heffect
      rw [if_neg (h.resolve_left heffect)] at hfaults
      exact ⟨_, hfaults, rfl⟩
  · obtain ⟨heffect, htokens⟩ := not_or.mp h
    rw [hclause heffect, if_pos (not_not.mp htokens)]
  · rw [hclause h, if_neg htokens]

theorem peek_fault_exact :
    let inferred := relayProgram.summarize ∅ relayProgram.groups
    (∀ b ∈ relayBodies, b.ref ∈ relayProgram.symbols.functions) ∧
    relayProgram.ReachesEffect (relayRef "peek") ∧
    (∃ d, relayProgram.effectFaults inferred ∅ (relayRef "peek") = [d] ∧
      d.rule = .pureFunctionViolation) ∧
    ∃ c : CallSite, IsFirst (fun c => ∃ e, e ∈ relayProgram.calleeEffects c.callee)
        [⟨.function (relayRef "tick"), ⟨10, 3, 6⟩⟩, ⟨.function (relayRef "relay"), ⟨11, 3, 7⟩⟩] c ∧
      (relayProgram.effectFaults inferred ∅ (relayRef "peek")).map (·.location.span) =
        [c.span] := by
  intro inferred
  obtain ⟨hsame, hgroups, hall⟩ := pure_fault_exact .standard relayChanges relayBodies
  have hknown : ∀ b ∈ relayBodies, b.ref ∈ relayProgram.symbols.functions := by decide
  obtain ⟨hreaches, hcallee⟩ := hsame hknown
  obtain ⟨hone, -, hfirst, -⟩ := hall _ hgroups (relayRef "peek") _ _ rfl rfl rfl rfl ∅
  -- `peek` calls `relay`, which calls `store`, which queries the database
  have heffect : relayProgram.ReachesEffect (relayRef "peek") := by
    have hrelay : relayProgram.Calls (relayRef "peek") (relayRef "relay") :=
      ⟨⟨.function (relayRef "relay"), ⟨11, 3, 7⟩⟩, by decide, rfl⟩
    have hstore : relayProgram.Calls (relayRef "relay") (relayRef "store") :=
      ⟨⟨.function (relayRef "store"), ⟨3, 3, 7⟩⟩, by decide, rfl⟩
    exact .inl ⟨.dbQuery, relayRef "store", .head hrelay (.single hstore),
      ⟨.operation .dbQuery, ⟨7, 3, 10⟩⟩, by decide, rfl⟩
  obtain ⟨c, hc, hfaults⟩ := hfirst ((hreaches _).mpr heffect)
  have hfaults := congrArg (List.map (·.location.span)) hfaults
  simp only [hcallee] at hc
  exact ⟨hknown, heffect, hone (.inl ((hreaches _).mpr heffect)), c, hc, hfaults⟩

end EffectAudit.LinkedProgram
