import EffectAudit.Effects.Summary
import EffectAudit.Proofs.CallGraph

/-!
# What a group settles on

Effects spread in a group from the calls that leave it, and doubt spreads from the members with
unknown calls. Each member only gets what has come in somewhere, and when nothing changes any more,
a member has all that the members it calls have. In a group where calls lead from every member to
every other one, all members therefore end with the same: the effects of all calls that leave the
group, and doubt if there is any.

## Main definitions

* `LinkedProgram.Connected`: calls within a group lead from every member to every other one
* `LinkedProgram.groupEffects`: the effects of the calls that leave a group
* `LinkedProgram.groupSummary`: the summary of a member at once

## Main results

* `LinkedProgram.Connected.get?_grownEffects`: the effects that the members end with
* `LinkedProgram.Connected.get?_settledFlags`: the doubt that the members end with
* `LinkedProgram.entries_originsOf`: the origins that are noted call by call
* `LinkedProgram.Connected.addBodies_eq`: the loops find the summaries of the group
-/

namespace EffectAudit

namespace EffectSet

theorem sorted_toList (s : EffectSet) : s.toList.Pairwise fun e f => compare e f = .lt :=
  Effect.sorted_all.filter _

end EffectSet

namespace LinkedProgram

open Relation

/-! ## The summaries of a group at once -/

section Group

variable (p : LinkedProgram) (known : FunctionRef → Option EffectSummary)

/-- Whether a call stays within a group. -/
def staysIn (group : List FunctionRef) : Callee → Bool
  | .operation _ => false
  | .function f => f ∈ group

/-- The effects of the calls that leave a group. -/
def groupEffects (group : List FunctionRef) : EffectSet :=
  (group.flatMap p.sites).foldl
    (fun acc c => if staysIn group c.callee then acc else acc.union (p.effectsOf known c.callee)) ∅

/-- The effects of a call, where those that stay in the group bring the effects of the group. -/
def effectsWithin (group : List FunctionRef) (required : EffectSet) (callee : Callee) :
    EffectSet :=
  if staysIn group callee then required else p.effectsOf known callee

/-- The calls of a function with the effects that they bring, the most direct calls first. -/
def contributions (group : List FunctionRef) (required : EffectSet) (f : FunctionRef) :
    List (CallSite × EffectSet) :=
  (p.sitesByDirectness group f).map fun c => (c, p.effectsWithin known group required c.callee)

/-- Where an effect enters a function, given its calls with what they bring: the first call that
brings it. -/
def originAmong? (calls : List (CallSite × EffectSet)) (e : Effect) : Option Origin :=
  (calls.find? (·.2.contains e)).map fun c => .ofSite c.1

/-- The summary of a member of a group of functions that have bodies and call each other. -/
def groupSummary (group : List FunctionRef) (f : FunctionRef) : EffectSummary where
  required := p.groupEffects known group
  origins := (p.groupEffects known group).toList.filterMap fun e =>
    (originAmong? (p.contributions known group (p.groupEffects known group) f) e).map fun o =>
      (e, o)
  isComplete := group.all (p.isKnown known group)

/-- The summaries of a group of functions that have bodies and call each other. -/
def summarizeBodies (group : List FunctionRef) : List (FunctionRef × EffectSummary) :=
  group.map fun f => (f, p.groupSummary known group f)

/-- Calls within a group lead from every member to every other one. -/
def Connected (group : List FunctionRef) : Prop :=
  ∀ f ∈ group, ∀ g ∈ group, ReflTransGen (fun a b => b ∈ group ∧ p.Calls a b) f g

end Group

variable {p : LinkedProgram} {known : FunctionRef → Option EffectSummary}
  {group : List FunctionRef}

theorem mem_groupEffects {e : Effect} :
    e ∈ p.groupEffects known group ↔ ∃ f ∈ group, ∃ c ∈ p.sites f,
      staysIn group c.callee = false ∧ e ∈ p.effectsOf known c.callee := by
  have hfold : ∀ (l : List CallSite) (acc : EffectSet),
      e ∈ l.foldl (fun acc c =>
        if staysIn group c.callee then acc else acc.union (p.effectsOf known c.callee)) acc ↔
      e ∈ acc ∨ ∃ c ∈ l, staysIn group c.callee = false ∧ e ∈ p.effectsOf known c.callee := by
    intro l
    induction l with
    | nil => simp
    | cons c rest ih =>
      intro acc
      rw [List.foldl_cons, ih]
      cases hs : staysIn group c.callee <;> simp [hs, or_assoc]
  unfold groupEffects
  rw [hfold]
  simp only [EffectSet.not_mem_empty, false_or, List.mem_flatMap]
  constructor
  · rintro ⟨c, ⟨f, hf, hc⟩, h⟩
    exact ⟨f, hf, c, hc, h⟩
  · rintro ⟨f, hf, c, hc, h⟩
    exact ⟨c, ⟨f, hf, hc⟩, h⟩

/-- Exactly the members of a group have values. -/
def Spans {α : Type} (group : List FunctionRef) (m : OrderedMap FunctionRef α) : Prop :=
  ∀ f, (∃ a, m.get? f = some a) ↔ f ∈ group

theorem spans_ofList {α : Type} (a : FunctionRef → α) :
    Spans group (.ofList (group.map fun f => (f, a f))) := by
  intro f
  rw [OrderedMap.get?_ofList_map]
  by_cases hf : f ∈ group <;> simp [hf]

theorem Spans.insert {α : Type} {m : OrderedMap FunctionRef α} (h : Spans group m)
    {f : FunctionRef} (hf : f ∈ group) (a : α) : Spans group (m.insert f a) := by
  intro g
  by_cases hg : g = f
  · subst hg
    rw [OrderedMap.get?_insert_self]
    exact ⟨fun _ => hf, fun _ => ⟨a, rfl⟩⟩
  · rw [OrderedMap.get?_insert_of_ne hg]
    exact h g

theorem Spans.get?_eq_none {α : Type} {m : OrderedMap FunctionRef α} (h : Spans group m)
    {f : FunctionRef} (hf : f ∉ group) : m.get? f = none :=
  Option.eq_none_iff_forall_ne_some.mpr fun a ha => hf ((h f).mp ⟨a, ha⟩)

/-! ## Effects -/

section Growth

variable {current : OrderedMap FunctionRef EffectSet}

theorem contribution_of_get? {g : FunctionRef} {effects : EffectSet}
    (h : current.get? g = some effects) : p.contribution known current (.function g) = effects := by
  simp only [contribution, h]

theorem contribution_of_get?_none {g : FunctionRef} (h : current.get? g = none) :
    p.contribution known current (.function g) = p.requiredBy known g := by
  simp only [contribution, h]

/-- A call that leaves the group brings what is known of the callee. -/
theorem Spans.contribution_eq (h : Spans group current) {callee : Callee}
    (hs : staysIn group callee = false) :
    p.contribution known current callee = p.effectsOf known callee := by
  cases callee with
  | operation op => rfl
  | function g => exact contribution_of_get?_none (h.get?_eq_none (of_decide_eq_false hs))

theorem update_growth_eq_some {f : FunctionRef} {effects : EffectSet}
    (h : (p.growth known).update current f = some effects) :
    effects = p.gathered known current f := by
  unfold growth at h
  dsimp only at h
  split at h
  · cases h
  · exact (Option.some.inj h).symm

theorem update_growth_eq_none {f : FunctionRef} (h : (p.growth known).update current f = none) :
    current.get? f = some (p.gathered known current f) := by
  unfold growth at h
  dsimp only at h
  split at h
  · assumption
  · cases h

variable (p known group) in
/-- Members have effects that come in by calls out of the group only. -/
structure Grounded (current : OrderedMap FunctionRef EffectSet) : Prop where
  spans : Spans group current
  comesIn : ∀ f effects, current.get? f = some effects →
    ∀ e ∈ effects, e ∈ p.groupEffects known group

/-- What a call brings is what a member has already or comes in by the call. -/
theorem Grounded.of_mem_contribution (h : Grounded p known group current) {f : FunctionRef}
    (hf : f ∈ group) {c : CallSite} (hc : c ∈ p.sites f) {e : Effect}
    (he : e ∈ p.contribution known current c.callee) : e ∈ p.groupEffects known group := by
  cases hs : staysIn group c.callee with
  | false =>
    rw [h.spans.contribution_eq hs] at he
    exact mem_groupEffects.mpr ⟨f, hf, c, hc, hs, he⟩
  | true =>
    cases hcallee : c.callee with
    | operation op =>
      rw [hcallee] at hs
      cases hs
    | function g =>
      rw [hcallee] at hs he
      obtain ⟨effects, hget⟩ := (h.spans g).mpr (of_decide_eq_true hs)
      rw [contribution_of_get? hget] at he
      exact h.comesIn g effects hget e he

theorem Grounded.insert (h : Grounded p known group current) {f : FunctionRef} (hf : f ∈ group)
    {effects : EffectSet} (hup : (p.growth known).update current f = some effects) :
    Grounded p known group (current.insert f effects) := by
  refine ⟨h.spans.insert hf effects, fun g effects' hget e he => ?_⟩
  by_cases hg : g = f
  · subst hg
    rw [OrderedMap.get?_insert_self, Option.some.injEq] at hget
    subst hget
    rw [update_growth_eq_some hup, mem_gathered] at he
    rcases he with he | ⟨c, hc, he⟩
    · obtain ⟨before, hbefore⟩ := (h.spans g).mpr hf
      rw [hbefore] at he
      exact h.comesIn g before hbefore e he
    · exact h.of_mem_contribution hf hc he
  · rw [OrderedMap.get?_insert_of_ne hg] at hget
    exact h.comesIn g effects' hget e he

variable (p known group) in
theorem grounded_grownEffects : Grounded p known group (p.grownEffects known group) := by
  refine (p.growth known).settle_invariant (fun m hm f hf effects hup => hm.insert hf hup) ?_
  refine ⟨spans_ofList fun _ => ∅, fun f effects hget e he => ?_⟩
  rw [OrderedMap.get?_ofList_map] at hget
  split at hget
  · cases hget
    exact absurd he (EffectSet.not_mem_empty e)
  · cases hget

theorem update_grownEffects {f : FunctionRef} (hf : f ∈ group) :
    (p.growth known).update (p.grownEffects known group) f = none :=
  (p.growth known).settle_settled group _ f hf

/-- In the end a member has all that its calls bring. -/
theorem mem_grownEffects_of_call {f : FunctionRef} (hf : f ∈ group) {effects : EffectSet}
    (hget : (p.grownEffects known group).get? f = some effects) {c : CallSite}
    (hc : c ∈ p.sites f) {e : Effect}
    (he : e ∈ p.contribution known (p.grownEffects known group) c.callee) : e ∈ effects := by
  have heq : effects = p.gathered known (p.grownEffects known group) f :=
    Option.some.inj (hget.symm.trans (update_growth_eq_none (update_grownEffects hf)))
  rw [heq, mem_gathered]
  exact .inr ⟨c, hc, he⟩

/-- **The members of a connected group end with the effects of the calls that leave the group.** -/
theorem Connected.get?_grownEffects (hconn : p.Connected group) {f : FunctionRef} (hf : f ∈ group) :
    (p.grownEffects known group).get? f = some (p.groupEffects known group) := by
  have hgrounded := grounded_grownEffects p known group
  obtain ⟨effects, hget⟩ := (hgrounded.spans f).mpr hf
  rw [hget, Option.some.injEq]
  refine EffectSet.ext_iff.mpr fun e => ⟨hgrounded.comesIn f effects hget e, fun he => ?_⟩
  obtain ⟨g, hg, c, hc, hs, he⟩ := mem_groupEffects.mp he
  -- against the calls that lead from `f` to the member where the effect comes in
  have hpath := hconn f hf g hg
  induction hpath using ReflTransGen.head_induction_on generalizing effects with
  | refl =>
    refine mem_grownEffects_of_call hf hget hc ?_
    rw [hgrounded.spans.contribution_eq hs]
    exact he
  | @head k k' hstep _ ih =>
    obtain ⟨hk', c', hc', hcallee⟩ := hstep
    obtain ⟨effects', hget'⟩ := (hgrounded.spans k').mpr hk'
    refine mem_grownEffects_of_call hf hget hc' ?_
    rw [hcallee, contribution_of_get? hget']
    exact ih hk' effects' hget'

end Growth

/-! ## Completeness -/

section Doubt

variable {flags : OrderedMap FunctionRef Bool}

theorem update_doubt_eq_some {f : FunctionRef} {flag : Bool}
    (h : p.doubt.update flags f = some flag) : flag = false ∧ flags.get? f = some true ∧
      ∃ g, p.Calls f g ∧ flags.get? g = some false := by
  unfold doubt at h
  dsimp only at h
  split at h
  · rename_i hflag
    obtain ⟨htrue, hany⟩ := hflag
    obtain ⟨c, hc, hdoubt⟩ := List.any_eq_true.mp hany
    refine ⟨(Option.some.inj h).symm, htrue, ?_⟩
    cases hcallee : c.callee with
    | operation op =>
      rw [hcallee] at hdoubt
      cases hdoubt
    | function g =>
      rw [hcallee] at hdoubt
      exact ⟨g, ⟨c, hc, hcallee⟩, eq_of_beq hdoubt⟩
  · cases h

theorem update_doubt_eq_none {f g : FunctionRef} (h : p.doubt.update flags f = none)
    (hcall : p.Calls f g) (hg : flags.get? g = some false) : flags.get? f ≠ some true := by
  intro htrue
  obtain ⟨c, hc, hcallee⟩ := hcall
  unfold doubt at h
  dsimp only at h
  split at h
  · cases h
  · rename_i hflag
    refine hflag ⟨htrue, List.any_eq_true.mpr ⟨c, hc, ?_⟩⟩
    rw [hcallee]
    exact beq_iff_eq.mpr hg

variable (p known group) in
/-- Members with unknown calls are in doubt, and others only if there is such a member. -/
structure Doubted (flags : OrderedMap FunctionRef Bool) : Prop where
  spans : Spans group flags
  unknown : ∀ f ∈ group, p.isKnown known group f = false → flags.get? f = some false
  comesIn : ∀ f, flags.get? f = some false → group.all (p.isKnown known group) = false

theorem Doubted.insert (h : Doubted p known group flags) {f : FunctionRef} (hf : f ∈ group)
    {flag : Bool} (hup : p.doubt.update flags f = some flag) :
    Doubted p known group (flags.insert f flag) := by
  obtain ⟨rfl, -, k, -, hk⟩ := update_doubt_eq_some hup
  refine ⟨h.spans.insert hf false, fun g hg hunknown => ?_, fun _ _ => h.comesIn k hk⟩
  by_cases heq : g = f
  · rw [heq, OrderedMap.get?_insert_self]
  · rw [OrderedMap.get?_insert_of_ne heq]
    exact h.unknown g hg hunknown

variable (p known group) in
theorem doubted_settledFlags : Doubted p known group (p.settledFlags known group) := by
  refine p.doubt.settle_invariant (fun m hm f hf flag hup => hm.insert hf hup) ?_
  refine ⟨spans_ofList fun f => p.isKnown known group f, fun f hf hunknown => ?_, fun f hget => ?_⟩
  · rw [OrderedMap.get?_ofList_map, if_pos hf, hunknown]
  · rw [OrderedMap.get?_ofList_map] at hget
    split at hget
    · rename_i hf
      exact List.all_eq_false.mpr ⟨f, hf, by simp [Option.some.inj hget]⟩
    · cases hget

theorem update_settledFlags {f : FunctionRef} (hf : f ∈ group) :
    p.doubt.update (p.settledFlags known group) f = none :=
  p.doubt.settle_settled group _ f hf

/-- **The members of a connected group end in doubt if there is any.** -/
theorem Connected.get?_settledFlags (hconn : p.Connected group) {f : FunctionRef} (hf : f ∈ group) :
    (p.settledFlags known group).get? f = some (group.all (p.isKnown known group)) := by
  have hdoubted := doubted_settledFlags p known group
  cases hall : group.all (p.isKnown known group) with
  | true =>
    obtain ⟨flag, hget⟩ := (hdoubted.spans f).mpr hf
    cases flag with
    | true => exact hget
    | false =>
      have hnone := hdoubted.comesIn f hget
      rw [hall] at hnone
      cases hnone
  | false =>
    obtain ⟨g, hg, hunknown⟩ := List.all_eq_false.mp hall
    have hlast := hdoubted.unknown g hg (by simpa using hunknown)
    -- against the calls that lead from `f` to a member with unknown calls
    have hpath := hconn f hf g hg
    induction hpath using ReflTransGen.head_induction_on with
    | refl => exact hlast
    | @head k k' hstep _ ih =>
      obtain ⟨hk', hcall⟩ := hstep
      obtain ⟨flag, hget⟩ := (hdoubted.spans k).mpr hf
      cases flag with
      | false => exact hget
      | true => exact absurd hget (update_doubt_eq_none (update_settledFlags hf) hcall (ih hk'))

end Doubt

/-! ## Origins -/

section Origins

variable {current : OrderedMap FunctionRef EffectSet}

theorem get?_foldl_noteOrigin (origin : Origin) (l : List Effect)
    (origins : OrderedMap Effect Origin) (e : Effect) :
    (l.foldl (noteOrigin origin) origins).get? e =
      (origins.get? e).or (if e ∈ l then some origin else none) := by
  induction l generalizing origins with
  | nil => simp
  | cons e' rest ih =>
    rw [List.foldl_cons, ih]
    have hnote : (noteOrigin origin origins e').get? e =
        (origins.get? e).or (if e = e' then some origin else none) := by
      unfold noteOrigin OrderedMap.contains
      by_cases he : e = e'
      · subst he
        cases hget : origins.get? e <;> simp [hget]
      · rw [if_neg he, Option.or_none]
        split
        · rfl
        · exact OrderedMap.get?_insert_of_ne he
    rw [hnote, Option.or_assoc]
    congr 1
    by_cases he : e = e' <;> simp [he]

/-- An effect is noted with the first call that brings it. -/
theorem get?_originsOf (f : FunctionRef) (e : Effect) :
    (p.originsOf known group current f).get? e =
      originAmong? ((p.sitesByDirectness group f).map fun c =>
        (c, p.contribution known current c.callee)) e := by
  have hfold : ∀ (l : List CallSite) (origins : OrderedMap Effect Origin),
      (l.foldl (fun origins c =>
        (p.contribution known current c.callee).toList.foldl (noteOrigin (.ofSite c)) origins)
        origins).get? e = (origins.get? e).or
          (originAmong? (l.map fun c => (c, p.contribution known current c.callee)) e) := by
    intro l
    induction l with
    | nil => simp [originAmong?]
    | cons c rest ih =>
      intro origins
      rw [List.foldl_cons, ih, get?_foldl_noteOrigin, Option.or_assoc]
      congr 1
      simp only [EffectSet.mem_toList, EffectSet.mem_def, originAmong?, List.map_cons,
        List.find?_cons]
      cases (p.contribution known current c.callee).contains e <;> simp
  exact (hfold _ _).trans (Option.none_or)

/-- The origins that are noted call by call, in the order of the effects. -/
theorem entries_originsOf {f : FunctionRef} {required : EffectSet}
    (hreq : ∀ c ∈ p.sites f, ∀ e ∈ p.contribution known current c.callee, e ∈ required) :
    (p.originsOf known group current f).entries = required.toList.filterMap fun e =>
      (originAmong? ((p.sitesByDirectness group f).map fun c =>
        (c, p.contribution known current c.callee)) e).map fun o => (e, o) := by
  refine OrderedMap.eq_of_sorted_of_lookup (p.originsOf known group current f).sorted ?_ ?_
  · refine List.pairwise_filterMap.mpr (required.sorted_toList.imp fun {e e'} hlt => ?_)
    rintro a ha b hb
    obtain ⟨o, -, rfl⟩ := Option.map_eq_some_iff.mp ha
    obtain ⟨o', -, rfl⟩ := Option.map_eq_some_iff.mp hb
    exact hlt
  · rintro ⟨e, o⟩
    rw [OrderedMap.mem_entries_iff, get?_originsOf, List.mem_filterMap]
    constructor
    · intro horigin
      refine ⟨e, ?_, by rw [horigin]; rfl⟩
      -- the effect is brought by the call that is found
      obtain ⟨⟨c, effects⟩, hfind, -⟩ := Option.map_eq_some_iff.mp horigin
      obtain ⟨c', hc', heq⟩ := List.mem_map.mp (List.mem_of_find?_eq_some hfind)
      cases heq
      have hbrings := List.find?_some hfind
      exact EffectSet.mem_toList.mpr (hreq c (mem_sortBy.mp hc') e hbrings)
    · rintro ⟨e', -, horigin⟩
      obtain ⟨o', ho', heq⟩ := Option.map_eq_some_iff.mp horigin
      cases heq
      exact ho'

end Origins

/-! ## Summaries -/

/-- In a connected group a call brings what the group requires, or what is known of the callee. -/
theorem Connected.contribution_eq (hconn : p.Connected group) (callee : Callee) :
    p.contribution known (p.grownEffects known group) callee =
      p.effectsWithin known group (p.groupEffects known group) callee := by
  unfold effectsWithin
  split
  · rename_i hs
    cases callee with
    | operation op => cases hs
    | function g => exact contribution_of_get? (hconn.get?_grownEffects (of_decide_eq_true hs))
  · rename_i hs
    exact (grounded_grownEffects _ _ _).spans.contribution_eq (by simpa using hs)

/-- What is known of members does not matter to the calls in a group. -/
theorem Spans.contribution_congr {current : OrderedMap FunctionRef EffectSet}
    {known' : FunctionRef → Option EffectSummary} (h : Spans group current)
    (hsame : ∀ f, f ∉ group → known' f = known f) (callee : Callee) :
    p.contribution known' current callee = p.contribution known current callee := by
  cases callee with
  | operation op => rfl
  | function g =>
    by_cases hg : g ∈ group
    · obtain ⟨effects, hget⟩ := (h g).mpr hg
      rw [contribution_of_get? hget, contribution_of_get? hget]
    · have hnone := h.get?_eq_none hg
      rw [contribution_of_get?_none hnone, contribution_of_get?_none hnone]
      unfold requiredBy
      rw [hsame g hg]

/-- The loops find the summary of a member, whatever is known of members by then. -/
theorem Connected.memberSummary_eq (hconn : p.Connected group)
    {known' : FunctionRef → Option EffectSummary} (hsame : ∀ f, f ∉ group → known' f = known f)
    {f : FunctionRef} (hf : f ∈ group) :
    p.memberSummary known' group (p.grownEffects known group) (p.settledFlags known group) f =
      p.groupSummary known group f := by
  have hcalls : ∀ callee, p.contribution known' (p.grownEffects known group) callee =
      p.effectsWithin known group (p.groupEffects known group) callee := by
    intro callee
    rw [← hconn.contribution_eq]
    exact (grounded_grownEffects _ _ _).spans.contribution_congr hsame callee
  have hbrought : ∀ c ∈ p.sites f,
      ∀ e ∈ p.contribution known' (p.grownEffects known group) c.callee,
      e ∈ p.groupEffects known group := by
    intro c hc e he
    rw [hcalls, ← hconn.contribution_eq] at he
    exact (grounded_grownEffects _ _ _).of_mem_contribution hf hc he
  unfold memberSummary groupSummary
  rw [hconn.get?_grownEffects hf, hconn.get?_settledFlags hf, entries_originsOf hbrought]
  simp only [hcalls]
  rfl

/-- **The loops find the summaries of a connected group.** -/
theorem Connected.addBodies_eq (hconn : p.Connected group) (cached done : Summaries) :
    p.addBodies cached done group =
      done.insertAll (p.summarizeBodies (knownIn cached done) group) := by
  -- by induction on the members to come, where those before have changed nothing outside the group
  have hfold : ∀ (l : List FunctionRef) (done' : Summaries), (∀ f ∈ l, f ∈ group) →
      (∀ f, f ∉ group → done'.get? f = done.get? f) →
      l.foldl (fun done' f => done'.insert f (p.memberSummary (knownIn cached done') group
          (p.grownEffects (knownIn cached done) group)
            (p.settledFlags (knownIn cached done) group) f))
          done' =
        done'.insertAll (l.map fun f => (f, p.groupSummary (knownIn cached done) group f)) := by
    intro l
    induction l with
    | nil => exact fun _ _ _ => rfl
    | cons f rest ih =>
      intro done' hl hsame
      obtain ⟨hf, hrest⟩ := List.forall_mem_cons.mp hl
      have hknown : ∀ g, g ∉ group → knownIn cached done' g = knownIn cached done g := by
        intro g hg
        unfold knownIn
        rw [hsame g hg]
      rw [List.foldl_cons, hconn.memberSummary_eq hknown hf, ih _ hrest]
      · rfl
      · intro g hg
        have hne : g ≠ f := fun heq => hg (heq ▸ hf)
        rw [OrderedMap.get?_insert_of_ne hne]
        exact hsame g hg
  exact hfold group done (fun _ hf => hf) fun _ _ => rfl

end LinkedProgram

end EffectAudit
