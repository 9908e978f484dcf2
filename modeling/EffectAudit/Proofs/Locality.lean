import EffectAudit.Effects.Verdict
import EffectAudit.Proofs.Effects.Inference
import EffectAudit.Results.Discharge
import Mathlib.Data.List.Find

/-!
# What findings depend on

The summary of a function and the faults in its effects depend on the functions that it reaches and
on no others. The handling of results in a file depends on the functions that the file calls and on
the conversions between error types.

## Main definitions

* `LinkedProgram.SameAt`: two programs know the same of a function

## Main results

* `LinkedProgram.exactSummary_congr`: summaries in programs that know the same
* `LinkedProgram.effectFaults_congr`: faults in effects in such programs
* `LinkedProgram.fileDischarge_congr`: the handling of results in such programs
-/

namespace EffectAudit.LinkedProgram

open Relation

/-- Two programs know the same of a function. -/
def SameAt (p q : LinkedProgram) (f : FunctionRef) : Prop :=
  p.body? f = q.body? f ∧ p.signature? f = q.signature? f

variable {p q : LinkedProgram}

theorem SameAt.symm {f : FunctionRef} (h : p.SameAt q f) : q.SameAt p f := ⟨h.1.symm, h.2.symm⟩

theorem SameAt.sites_eq {f : FunctionRef} (h : p.SameAt q f) : p.sites f = q.sites f := by
  unfold sites
  rw [h.1]

theorem SameAt.calls_iff {f : FunctionRef} (h : p.SameAt q f) {g : FunctionRef} :
    p.Calls f g ↔ q.Calls f g := by
  unfold Calls
  rw [h.sites_eq]

/-! ## Summaries -/

section Summaries

variable {f : FunctionRef} (hreg : p.registry = q.registry)
  (h : ∀ g, p.Reaches f g → p.SameAt q g)

theorem SameAt.introduces_iff (hreg : p.registry = q.registry) {g : FunctionRef}
    (hg : p.SameAt q g) {e : Effect} : p.Introduces g e ↔ q.Introduces g e := by
  unfold Introduces
  rw [hg.sites_eq, hg.1, hg.2, hreg]

include h

theorem reaches_congr {g : FunctionRef} : p.Reaches f g ↔ q.Reaches f g := by
  constructor
  · intro hr
    induction hr with
    | refl => exact .refl
    | tail hr hcall ih => exact ih.tail ((h _ hr).calls_iff.mp hcall)
  · intro hr
    induction hr with
    | refl => exact .refl
    -- along the way back it is known by induction that `p` reaches the place
    | tail _ hcall ih => exact ih.tail ((h _ ih).calls_iff.mpr hcall)

theorem fullyBound_congr : p.FullyBound f ↔ q.FullyBound f := by
  unfold FullyBound
  refine forall_congr' fun g => ?_
  rw [← reaches_congr h]
  exact forall_congr' fun hr => by rw [(h g hr).1]

include hreg

theorem requiredEffects_congr : p.requiredEffects f = q.requiredEffects f := by
  refine EffectSet.ext_iff.mpr fun e => ?_
  rw [mem_requiredEffects, mem_requiredEffects]
  unfold Requires
  refine exists_congr fun g => ?_
  rw [← reaches_congr h]
  exact and_congr_right fun hr => (h g hr).introduces_iff hreg

/-- What is below a function that `f` calls is below `f`. -/
theorem calleeEffects_congr {c : CallSite} (hc : c ∈ p.sites f) :
    p.calleeEffects c.callee = q.calleeEffects c.callee := by
  cases hcallee : c.callee with
  | operation op =>
    unfold calleeEffects
    rw [hreg]
  | function g =>
    have hcall : p.Reaches f g := .single ⟨c, hc, hcallee⟩
    exact requiredEffects_congr hreg fun k hk => h k (hcall.trans hk)

omit hreg in
theorem distance_congr {c : CallSite} (hc : c ∈ p.sites f) :
    p.distance f c.callee = q.distance f c.callee := by
  cases hcallee : c.callee with
  | operation op => rfl
  | function g =>
    -- whether the callee leads back is decided below `f`
    have hcall : p.Reaches f g := .single ⟨c, hc, hcallee⟩
    have hback : p.Reaches g f ↔ q.Reaches g f :=
      reaches_congr fun k hk => h k (hcall.trans hk)
    by_cases hq : q.Reaches g f
    · simp only [distance, if_pos hq, if_pos (hback.mpr hq)]
    · simp only [distance, if_neg hq, if_neg fun hp => hq (hback.mp hp)]

theorem effectCalls_congr : p.effectCalls f = q.effectCalls f := by
  have hsort : sortBy (fun a b => p.distance f a.callee ≤ p.distance f b.callee) (p.sites f) =
      sortBy (fun a b => q.distance f a.callee ≤ q.distance f b.callee) (q.sites f) := by
    rw [← (h f .refl).sites_eq]
    refine sortBy_congr fun a ha b hb => ?_
    rw [distance_congr h ha, distance_congr h hb]
  unfold effectCalls
  rw [← hsort]
  refine List.map_congr_left fun c hc => ?_
  rw [calleeEffects_congr hreg h (mem_sortBy.mp hc)]

/-- **A summary depends only on what the function reaches.** -/
theorem exactSummary_congr : p.exactSummary f = q.exactSummary f := by
  unfold exactSummary effectOrigins
  rw [requiredEffects_congr hreg h, effectCalls_congr hreg h, (h f .refl).1]
  exact congrArg _ (decide_eq_decide.mpr (fullyBound_congr h))

end Summaries

/-! ## Chains of calls -/

/-- An effect that enters a function by a call enters it by a call of the function. -/
theorem calls_of_origin {f g : FunctionRef} {e : Effect} {span : Span}
    (h : (p.exactSummary f).origin? e = some (.call g span)) : p.Calls f g := by
  obtain ⟨l, l', ho, -⟩ := List.lookup_eq_some_iff.mp h
  have hm : (e, Origin.call g span) ∈ p.effectOrigins f := by
    show _ ∈ (p.exactSummary f).origins
    rw [ho]
    exact List.mem_append_right _ List.mem_cons_self
  unfold effectOrigins at hm
  -- without a body all effects are declared, so there is a body
  split at hm
  · obtain ⟨e', -, he⟩ := List.mem_map.mp hm
    cases he
  · obtain ⟨e', -, he⟩ := List.mem_filterMap.mp hm
    obtain ⟨o, ho, heq⟩ := Option.map_eq_some_iff.mp he
    obtain ⟨-, rfl⟩ := Prod.mk.injEq .. ▸ heq
    obtain ⟨⟨c, s⟩, hfind, hsite⟩ := Option.map_eq_some_iff.mp ho
    obtain ⟨c', hc', heq'⟩ := List.mem_map.mp (List.mem_of_find?_eq_some hfind)
    obtain ⟨rfl, -⟩ := Prod.mk.injEq .. ▸ heq'
    refine ⟨c', mem_sortBy.mp hc', ?_⟩
    unfold Origin.ofSite at hsite
    cases hcallee : c'.callee with
    | operation op =>
      rw [hcallee] at hsite
      cases hsite
    | function k =>
      rw [hcallee] at hsite
      cases hsite
      rfl

theorem ExactSummaries.calls {m : Summaries} (hm : p.ExactSummaries m) {f g : FunctionRef}
    {e : Effect} {span : Span} (h : (m.get? f).bind (·.origin? e) = some (.call g span)) :
    p.Calls f g := by
  obtain ⟨s, hs, ho⟩ := Option.bind_eq_some_iff.mp h
  rw [hm f] at hs
  split at hs
  · cases hs
    exact calls_of_origin ho
  · cases hs

/-- Functions that have summaries are no more than the summaries. -/
theorem Summaries.length_le {m : Summaries} {fs : List FunctionRef} (hnd : fs.Nodup)
    (h : ∀ f ∈ fs, ∃ s, m.get? f = some s) : fs.length ≤ m.entries.length := by
  have hsub : fs ⊆ m.keys := fun f hf => OrderedMap.mem_keys.mpr (h f hf)
  have hle := (List.subperm_of_subset hnd hsub).length_le
  unfold OrderedMap.keys at hle
  rwa [List.length_map] at hle

/-- Two maps with the same summaries of what a function reaches lead along the same chain. Each may
follow a different number of calls, as long as that is more than it has summaries. -/
theorem followOrigins_congr {m m' : Summaries} (hm : p.ExactSummaries m) {e : Effect}
    {n n' : Nat} {before : List FunctionRef} {f : FunctionRef}
    (h : ∀ g, p.Reaches f g → m.get? g = m'.get? g) (hnd : (f :: before).Nodup)
    (hbefore : ∀ g ∈ before, ∃ s, m.get? g = some s ∧ m'.get? g = some s)
    (hn : m.entries.length < n + before.length) (hn' : m'.entries.length < n' + before.length) :
    followOrigins m e n before f = followOrigins m' e n' before f := by
  induction n generalizing n' before f with
  | zero =>
    -- all of `before` have summaries, so there is at least one call left
    have hle := Summaries.length_le (List.nodup_cons.mp hnd).2 fun g hg =>
      (hbefore g hg).imp fun _ hs => hs.1
    omega
  | succ n ih =>
    obtain _ | n' := n'
    · have hle := Summaries.length_le (List.nodup_cons.mp hnd).2 fun g hg =>
        (hbefore g hg).imp fun _ hs => hs.2
      omega
    · unfold followOrigins
      rw [← h f .refl]
      cases ho : (m.get? f).bind (·.origin? e) with
      | none => rfl
      | some o =>
        cases o with
        | operation op span => rfl
        | declared => rfl
        | call g span =>
          dsimp only
          split
          · rfl
          · rename_i hg
            obtain ⟨s, hs, -⟩ := Option.bind_eq_some_iff.mp ho
            -- the chain goes on at a callee, which has a summary as well
            have hcall : p.Calls f g := hm.calls ho
            refine congrArg _ (ih (fun k hk => h k (.head hcall hk))
              (List.nodup_cons.mpr ⟨hg, hnd⟩) ?_ ?_ ?_)
            · intro k hk
              rcases List.mem_cons.mp hk with rfl | hk
              · exact ⟨s, hs, h k .refl ▸ hs⟩
              · exact hbefore k hk
            · rw [List.length_cons]
              omega
            · rw [List.length_cons]
              omega

theorem chain_congr {m m' : Summaries} (hm : p.ExactSummaries m) {f : FunctionRef}
    (h : ∀ g, p.Reaches f g → m.get? g = m'.get? g) (e : Effect) : m.chain f e = m'.chain f e :=
  followOrigins_congr hm h (List.nodup_singleton f) (fun _ hg => absurd hg List.not_mem_nil)
    (Nat.lt_succ_self _) (Nat.lt_succ_self _)

/-! ## Faults in effects -/

section Faults

variable {m m' : Summaries} {f : FunctionRef} (hreg : p.registry = q.registry)
  (h : ∀ g, p.Reaches f g → p.SameAt q g) (hsum : ∀ g, p.Reaches f g → m.get? g = m'.get? g)

include hreg h hsum

theorem effectsOf_congr {c : CallSite} (hc : c ∈ p.sites f) :
    p.effectsOf m.get? c.callee = q.effectsOf m'.get? c.callee := by
  cases hcallee : c.callee with
  | operation op =>
    unfold effectsOf
    rw [hreg]
  | function g =>
    have hcall : p.Reaches f g := .single ⟨c, hc, hcallee⟩
    show p.requiredBy m.get? g = q.requiredBy m'.get? g
    unfold requiredBy
    rw [hsum g hcall, (h g hcall).2]

theorem impurity?_congr {b : BoundFunction} (hb : p.body? f = some b) (s : Signature)
    (summary : EffectSummary) : p.impurity? m s b summary = q.impurity? m' s b summary := by
  have hsites : p.sites f = b.calls := sites_of_body hb
  have heff : ∀ c ∈ b.calls, p.effectsOf m.get? c.callee = q.effectsOf m'.get? c.callee :=
    fun c hc => effectsOf_congr hreg h hsum (hsites ▸ hc)
  have hfirst : p.firstEffectful? m b = q.firstEffectful? m' b :=
    List.find?_congr fun c hc => by rw [heff c hc]
  unfold impurity?
  rw [hfirst]
  dsimp only
  split
  · rename_i c hc
    split at hc
    · cases hc
    · rw [heff c (List.mem_of_find?_eq_some hc)]
  · rfl

/-- **The faults in the effects of a function depend only on what the function reaches.** -/
theorem effectFaults_congr (hm : p.ExactSummaries m)
    (ignored : EffectSet) : p.effectFaults m ignored f = q.effectFaults m' ignored f := by
  unfold effectFaults
  rw [← (h f .refl).1, ← (h f .refl).2, ← hsum f .refl]
  cases hs : p.signature? f with
  | none => rfl
  | some s =>
    cases hb : p.body? f with
    | none => rfl
    | some b =>
      cases hsummary : m.get? f with
      | none => rfl
      | some summary =>
        have href : s.ref = f := SymbolTable.ref_of_lookup? hs
        have hmissing : missingEffects m s summary = missingEffects m' s summary := by
          unfold missingEffects
          refine List.map_congr_left fun e _ => ?_
          rw [href, chain_congr hm hsum e]
        dsimp only
        rw [impurity?_congr hreg h hsum hb, hmissing]
        unfold unusedEffects
        rw [hreg]

end Faults

/-! ## Results -/

section Results

theorem mem_callees_of_calleeAt? {b : BoundFunction} {span : Span} {g : FunctionRef}
    (h : b.calleeAt? span = some (.function g)) : g ∈ b.callees := by
  obtain ⟨c, hc, hg⟩ := Option.map_eq_some_iff.mp h
  exact BoundFunction.mem_callees_iff.mpr ⟨c, List.mem_of_find?_eq_some hc, hg⟩

theorem callType?_congr {b : BoundFunction}
    (h : ∀ g ∈ b.callees, p.signature? g = q.signature? g) : p.callType? b = q.callType? b := by
  funext span
  unfold callType?
  split
  · rename_i g hg
    rw [h g (mem_callees_of_calleeAt? hg)]
  · rfl

/-- What becomes of the results in a function depends on the signatures of the function and of those
that it calls, and on the conversions between error types. -/
theorem functionDischarge_congr {binding binding' : FileBinding} {file : FileKey} {d : FunctionDecl}
    (hconv : p.symbols.converts = q.symbols.converts)
    (hown : p.signature? ⟨file, d.name⟩ = q.signature? ⟨file, d.name⟩)
    (hbody : binding.function? ⟨file, d.name⟩ = binding'.function? ⟨file, d.name⟩)
    (hcallees : ∀ b ∈ binding.functions, ∀ g ∈ b.callees, p.signature? g = q.signature? g) :
    p.functionDischarge binding file d = q.functionDischarge binding' file d := by
  unfold functionDischarge
  rw [← hown, ← hbody]
  cases p.signature? ⟨file, d.name⟩ with
  | none => rfl
  | some s =>
    cases hb : binding.function? ⟨file, d.name⟩ with
    | none => rfl
    | some b =>
      have htype : p.typeOf? b = q.typeOf? b := by
        unfold typeOf?
        rw [callType?_congr (hcallees b (List.mem_of_find?_eq_some hb))]
      have hcallee : p.resultCallee? b = q.resultCallee? b := by
        unfold resultCallee?
        rw [htype]
      have hcall : p.resultCall? b = q.resultCall? b := by
        unfold resultCall?
        rw [hcallee]
      have hfault : p.occurrenceFaults s b = q.occurrenceFaults s b := by
        unfold occurrenceFaults resultFault? propagationFault? propagationFinding?
        rw [hcallee, htype, hconv]
      dsimp only
      rw [hcall, hfault]

/-- **What becomes of the results in a file depends only on the functions that the file declares and
calls, and on the conversions between error types.** -/
theorem fileDischarge_congr {binding : FileBinding} {u : SourceUnit}
    (hconv : p.symbols.converts = q.symbols.converts)
    (hown : ∀ name, p.signature? ⟨u.path.key, name⟩ = q.signature? ⟨u.path.key, name⟩)
    (hcallees : ∀ b ∈ binding.functions, ∀ g ∈ b.callees, p.signature? g = q.signature? g) :
    p.fileDischarge binding u = q.fileDischarge binding u := by
  have hparts : ((firstDeclarations u.functions).map fun d =>
      p.functionDischarge binding u.path.key d.node) =
      (firstDeclarations u.functions).map fun d =>
        q.functionDischarge binding u.path.key d.node :=
    List.map_congr_left fun d _ => functionDischarge_congr hconv (hown d.node.name) rfl hcallees
  unfold fileDischarge
  rw [hparts]

end Results

end EffectAudit.LinkedProgram
