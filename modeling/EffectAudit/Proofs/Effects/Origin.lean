import EffectAudit.Proofs.Effects.InTable
import EffectAudit.Proofs.Effects.Verdict

/-!
# Where effects enter

The summary of a function with a body names for each required effect a call of that body which
brings it: an operation if the function calls one with the effect, or else a function of another
group, or else a member of its own group, and the first such call in source order. A missing effect
is therefore always reported at a call.

## Main definitions

* `IsFirst`: the first element of a list with a property
* `LinkedProgram.EntersAt`: the call by which an effect enters a function

## Main results

* `LinkedProgram.exists_origin`: the origin of an effect is the first of the nearest calls that
  bring it
* `LinkedProgram.origins_at_first_calls`: the origins of any program, and where its missing effects
  are reported
-/

namespace EffectAudit

/-- The first element of a list with a property. -/
def IsFirst {α : Type} (P : α → Prop) (l : List α) (a : α) : Prop :=
  ∃ before after, l = before ++ a :: after ∧ P a ∧ ∀ b ∈ before, ¬ P b

namespace IsFirst

variable {α : Type} {P Q : α → Prop} {l : List α} {a : α}

theorem mem (h : IsFirst P l a) : a ∈ l := by
  obtain ⟨before, after, rfl, -⟩ := h
  exact List.mem_append_right before List.mem_cons_self

theorem holds (h : IsFirst P l a) : P a := by
  obtain ⟨-, -, -, ha, -⟩ := h
  exact ha

open Classical in
theorem iff_find? : IsFirst P l a ↔ (l.find? fun x => decide (P x)) = some a := by
  rw [List.find?_eq_some_iff_append]
  unfold IsFirst
  constructor
  · rintro ⟨before, after, hl, ha, hbefore⟩
    exact ⟨decide_eq_true ha, before, after, hl, fun b hb => by simpa using hbefore b hb⟩
  · rintro ⟨ha, before, after, hl, hbefore⟩
    exact ⟨before, after, hl, of_decide_eq_true ha, fun b hb => by simpa using hbefore b hb⟩

theorem congr (h : IsFirst P l a) (hPQ : ∀ b ∈ l, P b ↔ Q b) : IsFirst Q l a := by
  have hmem := h.mem
  obtain ⟨before, after, rfl, ha, hbefore⟩ := h
  refine ⟨before, after, rfl, (hPQ a hmem).mp ha, fun b hb hQ => hbefore b hb ?_⟩
  exact (hPQ b (List.mem_append_left _ hb)).mpr hQ

/-- What is first in a part of a list that has all elements with the property is first in the
list. -/
theorem of_filter {keep : α → Bool} (h : IsFirst P (l.filter keep) a)
    (hkeep : ∀ b ∈ l, P b → keep b = true) : IsFirst P l a := by
  rw [iff_find?] at h ⊢
  rwa [find?_filter_of_imp] at h
  intro b hb
  exact hkeep b (List.mem_of_find?_eq_some hb) (iff_find?.mpr hb).holds

end IsFirst

/-- Looking an element up among pairs finds what it is paired with. -/
theorem lookup_filterMap {α β : Type} [DecidableEq α] {f : α → Option β} {l : List α} {a : α}
    (ha : a ∈ l) : (l.filterMap fun x => (f x).map fun b => (x, b)).lookup a = f a := by
  induction l with
  | nil => exact absurd ha List.not_mem_nil
  | cons x rest ih =>
    by_cases hax : a = x
    · subst hax
      cases hf : f a with
      | some b => simp [hf]
      | none =>
        -- nothing is paired with `a` further on either
        refine List.lookup_eq_none_iff.mpr fun entry hentry => ?_
        obtain ⟨y, -, hy⟩ := List.mem_filterMap.mp hentry
        obtain ⟨b, hb, rfl⟩ := Option.map_eq_some_iff.mp hy
        have hne : a ≠ y := by
          rintro rfl
          rw [hf] at hb
          cases hb
        simpa using hne
    · have hrest := ih ((List.mem_cons.mp ha).resolve_left hax)
      have hbeq : (a == x) = false := by simpa using hax
      cases hf : f x with
      | some b => simpa [hf, List.lookup_cons, hbeq] using hrest
      | none => simpa [hf] using hrest

namespace LinkedProgram

open Relation

/-- Two functions reach each other. -/
def SameGroup (p : LinkedProgram) (f g : FunctionRef) : Prop := p.Reaches f g ∧ p.Reaches g f

/-- A call of an operation that has the effect. -/
def Performs (p : LinkedProgram) (e : Effect) (c : CallSite) : Prop :=
  ∃ op, c.callee = .operation op ∧ p.registry.effectOf op = e

/-- A call of one of some functions that brings the effect. -/
def BringsFrom (p : LinkedProgram) (m : Summaries) (functions : FunctionRef → Prop) (e : Effect)
    (c : CallSite) : Prop :=
  ∃ g, c.callee = .function g ∧ functions g ∧ e ∈ p.requiredBy m.get? g

/-- The call by which an effect enters `f`, among the calls of `f` in source order. -/
inductive EntersAt (p : LinkedProgram) (m : Summaries) (f : FunctionRef) (e : Effect)
    (calls : List CallSite) : CallSite → Prop
  /-- The first operation that has the effect. -/
  | operation {c : CallSite} (first : IsFirst (p.Performs e) calls c) : EntersAt p m f e calls c
  /-- Without such an operation, the first call that leaves the group and brings the effect. -/
  | outside {c : CallSite} (noOperation : ∀ d ∈ calls, ¬ p.Performs e d)
      (first : IsFirst (p.BringsFrom m (fun g => ¬ p.SameGroup f g) e) calls c) :
      EntersAt p m f e calls c
  /-- Without any of these, the first call inside the group that brings the effect. -/
  | inside {c : CallSite} (noOperation : ∀ d ∈ calls, ¬ p.Performs e d)
      (noneOutside : ∀ d ∈ calls, ¬ p.BringsFrom m (fun g => ¬ p.SameGroup f g) e d)
      (first : IsFirst (p.BringsFrom m (p.SameGroup f) e) calls c) : EntersAt p m f e calls c

variable {p : LinkedProgram}

theorem EntersAt.mem {m : Summaries} {f : FunctionRef} {e : Effect} {calls : List CallSite}
    {c : CallSite} (h : p.EntersAt m f e calls c) : c ∈ calls := by
  cases h with
  | operation first => exact first.mem
  | outside _ first => exact first.mem
  | inside _ _ first => exact first.mem

/-! ## Origins in exact summaries -/

theorem originAmong?_effectCalls (f : FunctionRef) (e : Effect) :
    originAmong? (p.effectCalls f) e =
      ((sortBy (fun a b => p.distance f a.callee ≤ p.distance f b.callee) (p.sites f)).find?
        fun c => (p.calleeEffects c.callee).contains e).map .ofSite := by
  unfold originAmong? effectCalls
  rw [List.find?_map, Option.map_map]
  rfl

section Body

variable {f : FunctionRef} {b : BoundFunction} (hb : p.body? f = some b)

include hb

theorem origins_exactSummary : (p.exactSummary f).origins =
    (p.requiredEffects f).toList.filterMap fun e =>
      (originAmong? (p.effectCalls f) e).map fun o => (e, o) := by
  unfold exactSummary effectOrigins
  rw [hb]

theorem origin?_exactSummary {e : Effect} (he : p.Requires f e) :
    (p.exactSummary f).origin? e = originAmong? (p.effectCalls f) e := by
  unfold EffectSummary.origin?
  rw [origins_exactSummary hb]
  exact lookup_filterMap (EffectSet.mem_toList.mpr (mem_requiredEffects.mpr he))

/-- **An effect enters by the nearest call that brings it**, and among those of one distance by the
first. -/
theorem exists_origin {e : Effect} (he : p.Requires f e) :
    ∃ c, (p.exactSummary f).origin? e = some (.ofSite c) ∧
      IsFirst (fun d => p.distance f d.callee = p.distance f c.callee ∧
        e ∈ p.calleeEffects d.callee) (p.sites f) c ∧
      ∀ d ∈ p.sites f, e ∈ p.calleeEffects d.callee →
        p.distance f c.callee ≤ p.distance f d.callee := by
  obtain ⟨d, hd, hde⟩ := (requires_iff_of_body hb).mp he
  obtain ⟨c, hc⟩ : ∃ c, (sortBy (fun a b => p.distance f a.callee ≤ p.distance f b.callee)
      (p.sites f)).find? (fun c => (p.calleeEffects c.callee).contains e) = some c := by
    rw [← Option.isSome_iff_exists, List.find?_isSome]
    exact ⟨d, mem_sortBy.mpr hd, hde⟩
  obtain ⟨hleast, hfirst⟩ := find?_sortBy hc
  refine ⟨c, ?_, ?_, hleast⟩
  · rw [origin?_exactSummary hb he, originAmong?_effectCalls, hc]
    rfl
  · rw [List.find?_filter] at hfirst
    rw [IsFirst.iff_find?, ← hfirst]
    congr 1
    funext x
    exact decide_eq_decide.mpr (and_congr decide_eq_true_iff.symm Iff.rfl)

/-- Each required effect has an origin, and no other effect has one. -/
theorem map_fst_origins :
    (p.exactSummary f).origins.map (·.1) = (p.exactSummary f).required.toList := by
  rw [origins_exactSummary hb, List.map_filterMap]
  refine (List.filterMap_congr fun e he => ?_).trans List.filterMap_some
  have he : p.Requires f e := mem_requiredEffects.mp (EffectSet.mem_toList.mp he)
  obtain ⟨c, hc, -⟩ := exists_origin hb he
  rw [← origin?_exactSummary hb he, hc]
  rfl

end Body

/-! ## Calls by distance -/

section Distance

variable {m : Summaries} (hp : p.Closed) (hm : p.ExactSummaries m) {f : FunctionRef} {e : Effect}
  {d : CallSite}

theorem performs_iff : p.Performs e d ↔
    p.distance f d.callee = 0 ∧ e ∈ p.calleeEffects d.callee := by
  unfold Performs
  cases d.callee with
  | operation op =>
    rw [mem_calleeEffects_operation]
    simp [distance]
  | function g =>
    by_cases h : p.Reaches g f <;> simp [distance, h]

include hp hm

theorem bringsFrom_iff (hd : d ∈ p.sites f) {functions : FunctionRef → Prop} :
    p.BringsFrom m functions e d ↔
      ∃ g, d.callee = .function g ∧ functions g ∧ e ∈ p.calleeEffects d.callee := by
  unfold BringsFrom
  refine exists_congr fun g => and_congr_right fun hg => and_congr_right fun _ => ?_
  rw [← hm.effectsOf_eq hp hd, hg]
  rfl

theorem bringsFrom_outside_iff (hd : d ∈ p.sites f) :
    p.BringsFrom m (fun g => ¬ p.SameGroup f g) e d ↔
      p.distance f d.callee = 1 ∧ e ∈ p.calleeEffects d.callee := by
  rw [bringsFrom_iff hp hm hd]
  cases hcallee : d.callee with
  | operation op => simp [distance]
  | function g =>
    have hfg : p.Reaches f g := .single ⟨d, hd, hcallee⟩
    by_cases h : p.Reaches g f <;> simp [distance, SameGroup, hfg, h]

theorem bringsFrom_inside_iff (hd : d ∈ p.sites f) :
    p.BringsFrom m (p.SameGroup f) e d ↔
      p.distance f d.callee = 2 ∧ e ∈ p.calleeEffects d.callee := by
  rw [bringsFrom_iff hp hm hd]
  cases hcallee : d.callee with
  | operation op => simp [distance]
  | function g =>
    have hfg : p.Reaches f g := .single ⟨d, hd, hcallee⟩
    by_cases h : p.Reaches g f <;> simp [distance, SameGroup, hfg, h]

/-- The first of the nearest calls that bring an effect is the one by which it enters. -/
theorem entersAt_of_isFirst {c : CallSite}
    (hfirst : IsFirst (fun d => p.distance f d.callee = p.distance f c.callee ∧
      e ∈ p.calleeEffects d.callee) (p.sites f) c)
    (hleast : ∀ d ∈ p.sites f, e ∈ p.calleeEffects d.callee →
      p.distance f c.callee ≤ p.distance f d.callee) : p.EntersAt m f e (p.sites f) c := by
  -- calls that are nearer than `c` do not bring the effect
  have hnoOperation : 0 < p.distance f c.callee → ∀ d ∈ p.sites f, ¬ p.Performs e d := by
    intro hpos d hd hperforms
    obtain ⟨hzero, he⟩ := (performs_iff (f := f)).mp hperforms
    have := hleast d hd he
    omega
  have hnoneOutside : 1 < p.distance f c.callee →
      ∀ d ∈ p.sites f, ¬ p.BringsFrom m (fun g => ¬ p.SameGroup f g) e d := by
    intro hpos d hd hbrings
    obtain ⟨hone, he⟩ := (bringsFrom_outside_iff hp hm hd).mp hbrings
    have := hleast d hd he
    omega
  have hcases : p.distance f c.callee = 0 ∨ p.distance f c.callee = 1 ∨
      p.distance f c.callee = 2 := by
    unfold distance
    cases c.callee with
    | operation op => simp
    | function g => by_cases h : p.Reaches g f <;> simp [h]
  rcases hcases with h | h | h
  · rw [h] at hfirst
    exact .operation (hfirst.congr fun d _ => performs_iff.symm)
  · rw [h] at hfirst hnoOperation
    exact .outside (hnoOperation (by omega))
      (hfirst.congr fun d hd => (bringsFrom_outside_iff hp hm hd).symm)
  · rw [h] at hfirst hnoOperation hnoneOutside
    exact .inside (hnoOperation (by omega)) (hnoneOutside (by omega))
      (hfirst.congr fun d hd => (bringsFrom_inside_iff hp hm hd).symm)

end Distance

/-! ## Origins of any program -/

/-- Calls that bring nothing do not matter for where an effect enters. -/
theorem EntersAt.of_filter {m : Summaries} {f : FunctionRef} {e : Effect} {calls : List CallSite}
    {keep : CallSite → Bool} {c : CallSite} (h : p.EntersAt m f e (calls.filter keep) c)
    (hkeep : ∀ d ∈ calls, e ∈ p.effectsOf m.get? d.callee → keep d = true) :
    p.EntersAt m f e calls c := by
  have hperforms : ∀ d ∈ calls, p.Performs e d → keep d = true := by
    rintro d hd ⟨op, hop, he⟩
    apply hkeep d hd
    rw [hop]
    exact EffectSet.mem_ofList.mpr (List.mem_singleton.mpr he.symm)
  have hbrings : ∀ functions, ∀ d ∈ calls, p.BringsFrom m functions e d → keep d = true := by
    rintro functions d hd ⟨g, hg, -, he⟩
    apply hkeep d hd
    rw [hg]
    exact he
  cases h with
  | operation first => exact .operation (first.of_filter hperforms)
  | outside noOperation first =>
    refine .outside (fun d hd h => ?_) (first.of_filter (hbrings _))
    exact noOperation d (List.mem_filter.mpr ⟨hd, hperforms d hd h⟩) h
  | inside noOperation noneOutside first =>
    refine .inside (fun d hd h => ?_) (fun d hd h => ?_) (first.of_filter (hbrings _))
    · exact noOperation d (List.mem_filter.mpr ⟨hd, hperforms d hd h⟩) h
    · exact noneOutside d (List.mem_filter.mpr ⟨hd, hbrings _ d hd h⟩) h

theorem span?_ofSite (c : CallSite) : (Origin.ofSite c).span? = some c.span := by
  unfold Origin.ofSite
  cases c.callee with
  | operation op => rfl
  | function g => rfl

/-- A missing effect is reported at its origin, with the chain of calls that it comes through. -/
theorem of_missingEffect {m : Summaries} {ignored : EffectSet} {f : FunctionRef} {d : Diagnostic}
    (hd : d ∈ p.effectFaults m ignored f) (hrule : d.rule = .effectCompleteness) :
    ∃ s b summary e, p.signature? f = some s ∧ p.body? f = some b ∧ m.get? f = some summary ∧
      e ∈ summary.required ∧
      d = (Finding.missingEffect s.name e (m.chain s.ref e).text
        (s.declared.union summary.required)).report s.path
          (((summary.origin? e).bind (·.span?)).getD s.span) := by
  unfold effectFaults at hd
  split at hd
  · rename_i s b summary hs hb hsummary
    split at hd
    · exact absurd hd List.not_mem_nil
    split at hd
    · -- the fault of a pure function falls under another rule
      have hpure : d.rule = .pureFunctionViolation := by
        have hd := Option.mem_toList.mp hd
        unfold impurity? at hd
        dsimp only at hd
        split at hd
        · cases hd
          rfl
        · split at hd
          · cases hd
          · cases hd
            rfl
      rw [hrule] at hpure
      cases hpure
    · rcases List.mem_append.mp hd with hmissing | hunused
      · obtain ⟨e, he, rfl⟩ := List.mem_map.mp hmissing
        have he := (EffectSet.mem_difference.mp (EffectSet.mem_toList.mp he)).1
        exact ⟨s, b, summary, e, hs, hb, hsummary, he, rfl⟩
      · have hminimal : d.rule = .effectMinimality := by
          unfold unusedEffects at hunused
          split at hunused
          · obtain ⟨t, -, ht⟩ := List.mem_filterMap.mp hunused
            split at ht
            · cases ht
            · split at ht
              · cases ht
              · cases ht
                rfl
          · exact absurd hunused List.not_mem_nil
        rw [hrule] at hminimal
        cases hminimal
  · exact absurd hd List.not_mem_nil

section InTable

variable {m : Summaries} (hm : p.inTable.ExactSummaries m)

include hm

/-- A call of an unknown function brings nothing. -/
theorem knows_of_brings {callee : Callee} {e : Effect} (he : e ∈ p.effectsOf m.get? callee) :
    p.knows callee = true := by
  refine knows_of_mem_effectsOf (fun g hg => hm.get?_of_not_mem fun hmem => ?_) he
  have hsome : (p.signature? g).isSome = true := isSome_signature?_iff.mpr hmem
  rw [hg] at hsome
  cases hsome

variable {f : FunctionRef} {b : BoundFunction} (hf : f ∈ p.symbols.functions)
  (hb : p.body? f = some b)

include hf hb

omit hm in
theorem exists_body_inTable : ∃ b', p.inTable.body? f = some b' ∧
    p.inTable.sites f = b.calls.filter fun c => p.knows c.callee := by
  have hknown := isSome_signature?_iff.mpr hf
  refine ⟨p.trim b, ?_, ?_⟩
  · rw [body?_inTable_of_known hknown, hb]
    rfl
  · rw [sites_inTable hknown, sites_of_body hb]

theorem mem_required_iff {e : Effect} : e ∈ (p.inTable.exactSummary f).required ↔
    ∃ c ∈ b.calls, e ∈ p.effectsOf m.get? c.callee := by
  obtain ⟨b', hb', hsites⟩ := exists_body_inTable hf hb
  refine mem_requiredEffects.trans ((requires_iff_of_body hb').trans ?_)
  constructor
  · rintro ⟨c, hc, he⟩
    rw [← hm.effectsOf_eq p.closed_inTable hc] at he
    rw [hsites] at hc
    exact ⟨c, (List.mem_filter.mp hc).1, he⟩
  · rintro ⟨c, hc, he⟩
    have hsite : c ∈ p.inTable.sites f := by
      rw [hsites]
      exact List.mem_filter.mpr ⟨hc, knows_of_brings hm he⟩
    refine ⟨c, hsite, ?_⟩
    rw [← hm.effectsOf_eq p.closed_inTable hsite]
    exact he

/-- An effect enters a function by the call that is its origin. -/
theorem exists_entersAt {e : Effect} (he : e ∈ (p.inTable.exactSummary f).required) :
    ∃ c, (p.inTable.exactSummary f).origin? e = some (.ofSite c) ∧
      p.inTable.EntersAt m f e b.calls c := by
  obtain ⟨b', hb', hsites⟩ := exists_body_inTable hf hb
  obtain ⟨c, horigin, hfirst, hleast⟩ := exists_origin hb' (mem_requiredEffects.mp he)
  have henters := entersAt_of_isFirst p.closed_inTable hm hfirst hleast
  rw [hsites] at henters
  exact ⟨c, horigin, henters.of_filter fun d _ hd => knows_of_brings hm hd⟩

end InTable

/-- **Origins are the first calls that bring an effect.** Whatever bodies there are, a function of
the table with a body requires what the calls of its body bring; each required effect has an origin
and no other effect has one; and the origin is the call by which the effect enters. So a missing
effect is always reported at a call of the body. -/
theorem origins_at_first_calls (registry : Registry) (changes : List SymbolTable.Change)
    (bodies : List BoundFunction) :
    let p := ofBodies registry (.ofChanges changes) bodies
    p.inTable.CalleesFirst p.groups ∧
    ∀ groups, p.inTable.CalleesFirst groups →
      let inferred := p.summarize ∅ groups
      (∀ f ∈ p.symbols.functions, ∀ b, p.body? f = some b →
        ∃ summary, inferred.get? f = some summary ∧
          summary.origins.map (·.1) = summary.required.toList ∧
          (∀ e, e ∈ summary.required ↔ ∃ c ∈ b.calls, e ∈ p.effectsOf inferred.get? c.callee) ∧
          ∀ e, e ∈ summary.required → ∃ c ∈ b.calls, summary.origin? e = some (.ofSite c) ∧
            p.inTable.EntersAt inferred f e b.calls c) ∧
      ∀ ignored f, ∀ d ∈ p.effectFaults inferred ignored f, d.rule = .effectCompleteness →
        ∃ s b, p.signature? f = some s ∧ p.body? f = some b ∧
          ∃ c ∈ b.calls, d.location = { file := s.path, span := c.span } := by
  intro p
  refine ⟨p.calleesFirst_inTable, fun groups hgroups => ?_⟩
  intro inferred
  have hm : p.inTable.ExactSummaries inferred := exactSummaries_inTable hgroups
  refine ⟨fun f hf b hb => ?_, fun ignored f d hd hrule => ?_⟩
  · obtain ⟨b', hb', -⟩ := exists_body_inTable hf hb
    refine ⟨p.inTable.exactSummary f, hm.get?_of_mem hf, map_fst_origins hb',
      fun e => mem_required_iff hm hf hb, fun e he => ?_⟩
    obtain ⟨c, horigin, henters⟩ := exists_entersAt hm hf hb he
    exact ⟨c, henters.mem, horigin, henters⟩
  · obtain ⟨s, b, summary, e, hs, hb, hget, he, rfl⟩ := of_missingEffect hd hrule
    have hf : f ∈ p.symbols.functions := SymbolTable.mem_functions_iff.mpr ⟨s, hs⟩
    cases (hm.get?_of_mem hf).symm.trans hget
    obtain ⟨c, horigin, henters⟩ := exists_entersAt hm hf hb he
    refine ⟨s, b, hs, hb, c, henters.mem, ?_⟩
    rw [horigin, Option.bind_some, span?_ofSite]
    rfl

/-- Two functions that call each other, and one that is not in the table and is called first. -/
def ghostBodies : List BoundFunction :=
  [{ ref := recursionRef "ghost", calls := [⟨.operation .httpPost, ⟨0, 1, 1⟩⟩] },
    { ref := recursionRef "ping"
      calls := [⟨.function (recursionRef "ghost"), ⟨2, 2, 1⟩⟩,
        ⟨.function (recursionRef "pong"), ⟨3, 3, 1⟩⟩] },
    { ref := recursionRef "pong"
      calls := [⟨.function (recursionRef "ping"), ⟨5, 5, 1⟩⟩, ⟨.operation .dbQuery, ⟨6, 6, 1⟩⟩] }]

/-- The program of these bodies. -/
def ghostProgram : LinkedProgram := ofBodies .standard (.ofChanges recursionChanges) ghostBodies

theorem origins_past_ghost :
    let inferred := ghostProgram.summarize ∅ ghostProgram.groups
    recursionRef "ping" ∈ ghostProgram.symbols.functions ∧
    (∃ summary, inferred.get? (recursionRef "ping") = some summary ∧
      summary.origins.map (·.1) = [.database] ∧
      ∃ c, summary.origin? .database = some (.ofSite c) ∧
        ghostProgram.inTable.EntersAt inferred (recursionRef "ping") .database
          [⟨.function (recursionRef "ghost"), ⟨2, 2, 1⟩⟩,
            ⟨.function (recursionRef "pong"), ⟨3, 3, 1⟩⟩] c) ∧
    ∃ d ∈ ghostProgram.effectFaults inferred ∅ (recursionRef "ping"),
      d.rule = .effectCompleteness ∧ ∃ b, ghostProgram.body? (recursionRef "ping") = some b ∧
        ∃ c ∈ b.calls, d.location.span = c.span := by
  intro inferred
  obtain ⟨hgroups, hall⟩ := origins_at_first_calls .standard recursionChanges ghostBodies
  obtain ⟨horigins, hfaults⟩ := hall _ hgroups
  have hping : recursionRef "ping" ∈ ghostProgram.symbols.functions := by decide
  have hrequired : (inferred.get? (recursionRef "ping")).map (·.required.toList) =
      some [.database] := by decide +kernel
  refine ⟨hping, ?_, ?_⟩
  · obtain ⟨summary, hget, hkeys, -, henters⟩ := horigins _ hping _ rfl
    have hget : inferred.get? (recursionRef "ping") = some summary := hget
    rw [hget, Option.map_some, Option.some_inj] at hrequired
    refine ⟨summary, hget, hkeys.trans hrequired, ?_⟩
    have he : Effect.database ∈ summary.required := by
      rw [← EffectSet.mem_toList, hrequired]
      exact List.mem_singleton_self _
    obtain ⟨c, -, horigin, hc⟩ := henters _ he
    exact ⟨c, horigin, hc⟩
  · obtain ⟨d, hd, hrule⟩ : ∃ d ∈ ghostProgram.effectFaults inferred ∅ (recursionRef "ping"),
        d.rule = .effectCompleteness := by decide +kernel
    obtain ⟨s, b, -, hb, c, hc, hlocation⟩ := hfaults ∅ _ d hd hrule
    exact ⟨d, hd, hrule, b, hb, c, hc, congrArg Location.span hlocation⟩

end LinkedProgram

end EffectAudit
