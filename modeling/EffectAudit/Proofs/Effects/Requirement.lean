import EffectAudit.Proofs.Effects.FixedPoint

/-!
# What functions require

A function requires the effects that come in at some function which it reaches: where an operation
is called, or where a function without a body declares them. The summary that is found for a
function says exactly this, together with the call by which each effect enters and with whether
every body behind the function is bound completely.

## Main definitions

* `LinkedProgram.Introduces`, `LinkedProgram.Requires`: where effects come in, and who requires them
* `LinkedProgram.FullyBound`: no body behind a function is poisoned
* `LinkedProgram.exactSummary`: the summary of a function in terms of what it reaches

## Main results

* `LinkedProgram.IsGroup.get?_addGroup`: a group is summarized exactly, if what it calls is
* `LinkedProgram.get?_summarize`: groups in order are summarized exactly
-/

namespace EffectAudit

namespace EffectSet

@[simp]
theorem mem_ofList {es : List Effect} {e : Effect} : e ∈ ofList es ↔ e ∈ es := by
  have h : ∀ s : EffectSet, e ∈ es.foldl insert s ↔ e ∈ es ∨ e ∈ s := by
    induction es with
    | nil => simp
    | cons a rest ih =>
      intro s
      rw [List.foldl_cons, ih, mem_insert, List.mem_cons]
      exact or_left_comm.trans or_assoc.symm
  exact (h ∅).trans (or_iff_left (not_mem_empty e))

end EffectSet

namespace LinkedProgram

open Relation Classical

/-- An effect comes in at `g`: the body of `g` calls an operation that has it, or `g` has no body
and declares it. -/
def Introduces (p : LinkedProgram) (g : FunctionRef) (e : Effect) : Prop :=
  (∃ c ∈ p.sites g, ∃ op, c.callee = .operation op ∧ p.registry.effectOf op = e) ∨
    p.body? g = none ∧ ∃ s, p.signature? g = some s ∧ e ∈ s.declared

/-- `f` reaches a function where an effect comes in. -/
def Requires (p : LinkedProgram) (f : FunctionRef) (e : Effect) : Prop :=
  ∃ g, p.Reaches f g ∧ p.Introduces g e

/-- No body that `f` reaches is poisoned. -/
def FullyBound (p : LinkedProgram) (f : FunctionRef) : Prop :=
  ∀ g, p.Reaches f g → ∀ b, p.body? g = some b → b.isPoisoned = false

/-! ## Exact summaries -/

section Exact

variable (p : LinkedProgram)

/-- The effects that a function requires. -/
noncomputable def requiredEffects (f : FunctionRef) : EffectSet :=
  .ofList (Effect.all.filter fun e => p.Requires f e)

/-- The effects that a call brings. -/
noncomputable def calleeEffects : Callee → EffectSet
  | .operation op => .ofList [p.registry.effectOf op]
  | .function g => p.requiredEffects g

/-- How directly a call of `f` leads out of the functions that call `f` back: operations first. -/
noncomputable def distance (f : FunctionRef) : Callee → Nat
  | .operation _ => 0
  | .function g => if p.Reaches g f then 2 else 1

/-- The calls of a function with the effects that they bring, the most direct calls first. -/
noncomputable def effectCalls (f : FunctionRef) : List (CallSite × EffectSet) :=
  (sortBy (fun a b => p.distance f a.callee ≤ p.distance f b.callee) (p.sites f)).map
    fun c => (c, p.calleeEffects c.callee)

/-- Where the effects that a function requires enter it. -/
noncomputable def effectOrigins (f : FunctionRef) : List (Effect × Origin) :=
  match p.body? f with
  | none => (p.requiredEffects f).toList.map fun e => (e, .declared)
  | some _ => (p.requiredEffects f).toList.filterMap fun e =>
    (originAmong? (p.effectCalls f) e).map fun o => (e, o)

/-- The summary of a function in terms of what it reaches. -/
noncomputable def exactSummary (f : FunctionRef) : EffectSummary where
  required := p.requiredEffects f
  origins := p.effectOrigins f
  isComplete := decide (p.FullyBound f)

end Exact

variable {p : LinkedProgram}

theorem mem_requiredEffects {f : FunctionRef} {e : Effect} :
    e ∈ p.requiredEffects f ↔ p.Requires f e := by
  unfold requiredEffects
  rw [EffectSet.mem_ofList, List.mem_filter, decide_eq_true_eq]
  exact and_iff_right (Effect.mem_all e)

theorem isComplete_exactSummary {f : FunctionRef} :
    (p.exactSummary f).isComplete = true ↔ p.FullyBound f := decide_eq_true_iff

theorem Requires.of_reaches {f g : FunctionRef} {e : Effect} (h : p.Reaches f g)
    (hg : p.Requires g e) : p.Requires f e := by
  obtain ⟨k, hk, hi⟩ := hg
  exact ⟨k, h.trans hk, hi⟩

/-- Functions that reach each other require the same. -/
theorem requiredEffects_eq {f g : FunctionRef} (hfg : p.Reaches f g) (hgf : p.Reaches g f) :
    p.requiredEffects f = p.requiredEffects g :=
  EffectSet.ext_iff.mpr fun e => by
    rw [mem_requiredEffects, mem_requiredEffects]
    exact ⟨.of_reaches hgf, .of_reaches hfg⟩

theorem FullyBound.of_reaches {f g : FunctionRef} (h : p.Reaches f g) (hf : p.FullyBound f) :
    p.FullyBound g := fun k hk => hf k (h.trans hk)

/-- A function without a body requires what it declares. -/
theorem requiredEffects_of_no_body {f : FunctionRef} {s : Signature} (hb : p.body? f = none)
    (hs : p.signature? f = some s) : p.requiredEffects f = s.declared := by
  refine EffectSet.ext_iff.mpr fun e => ?_
  rw [mem_requiredEffects]
  constructor
  · rintro ⟨g, hg, hi⟩
    obtain rfl := reaches_of_no_body hb hg
    rcases hi with ⟨c, hc, -⟩ | ⟨-, s', hs', he⟩
    · rw [sites_of_no_body hb] at hc
      exact absurd hc List.not_mem_nil
    · rw [hs] at hs'
      cases hs'
      exact he
  · exact fun he => ⟨f, .refl, .inr ⟨hb, s, hs, he⟩⟩

theorem exactSummary_of_no_body {f : FunctionRef} {s : Signature} (hb : p.body? f = none)
    (hs : p.signature? f = some s) : p.exactSummary f = .ofSignature s := by
  have hfull : p.FullyBound f := fun g hg b hb' => by
    obtain rfl := reaches_of_no_body hb hg
    rw [hb] at hb'
    cases hb'
  unfold exactSummary effectOrigins EffectSummary.ofSignature
  rw [hb, requiredEffects_of_no_body hb hs, decide_eq_true hfull]

theorem mem_calleeEffects_operation {op : Operation} {e : Effect} :
    e ∈ p.calleeEffects (.operation op) ↔ p.registry.effectOf op = e := by
  unfold calleeEffects
  rw [EffectSet.mem_ofList, List.mem_singleton]
  exact eq_comm

theorem mem_calleeEffects_function {g : FunctionRef} {e : Effect} :
    e ∈ p.calleeEffects (.function g) ↔ p.Requires g e := mem_requiredEffects

/-- A function with a body requires what its calls bring. -/
theorem requires_iff_of_body {f : FunctionRef} {b : BoundFunction} (hb : p.body? f = some b)
    {e : Effect} : p.Requires f e ↔ ∃ c ∈ p.sites f, e ∈ p.calleeEffects c.callee := by
  constructor
  · rintro ⟨g, hg, hi⟩
    rcases ReflTransGen.cases_head hg with rfl | ⟨k, ⟨c, hc, hk⟩, hkg⟩
    · rcases hi with ⟨c, hc, op, hop, he⟩ | ⟨hn, -⟩
      · exact ⟨c, hc, hop ▸ mem_calleeEffects_operation.mpr he⟩
      · rw [hb] at hn
        cases hn
    · exact ⟨c, hc, hk ▸ mem_calleeEffects_function.mpr ⟨g, hkg, hi⟩⟩
  · rintro ⟨c, hc, he⟩
    cases hcallee : c.callee with
    | operation op =>
      rw [hcallee, mem_calleeEffects_operation] at he
      exact ⟨f, .refl, .inl ⟨c, hc, op, hcallee, he⟩⟩
    | function g =>
      rw [hcallee, mem_calleeEffects_function] at he
      exact .of_reaches (.single ⟨c, hc, hcallee⟩) he

/-! ## One group -/

/-- The functions that call each other with any of them. -/
structure IsGroup (p : LinkedProgram) (group : List FunctionRef) : Prop where
  known : ∀ f ∈ group, f ∈ p.symbols.functions
  mem_iff : ∀ f ∈ group, ∀ g, g ∈ group ↔ p.Reaches f g ∧ p.Reaches g f

section Group

variable {known : FunctionRef → Option EffectSummary} {group : List FunctionRef}

/-- The members of a group that have bodies. -/
abbrev withBody (p : LinkedProgram) (group : List FunctionRef) : List FunctionRef :=
  group.filter fun f => (p.body? f).isSome

theorem mem_withBody {f : FunctionRef} :
    f ∈ p.withBody group ↔ f ∈ group ∧ ∃ b, p.body? f = some b := by
  rw [List.mem_filter, Option.isSome_iff_exists]

/-- If one member of a group has a body, all have. -/
theorem IsGroup.mem_withBody_iff (hg : p.IsGroup group) {f : FunctionRef}
    (hf : f ∈ p.withBody group) (g : FunctionRef) :
    g ∈ p.withBody group ↔ p.Reaches f g ∧ p.Reaches g f := by
  obtain ⟨hfg, b, hb⟩ := mem_withBody.mp hf
  rw [mem_withBody, hg.mem_iff f hfg]
  refine ⟨And.left, fun h => ⟨h, ?_⟩⟩
  rcases ReflTransGen.cases_head h.2 with rfl | ⟨k, hk, -⟩
  · exact ⟨b, hb⟩
  · obtain ⟨b', hb', -⟩ := hk.exists_body
    exact ⟨b', hb'⟩

/-- The members of a group that have bodies reach each other by calls within the group. -/
theorem IsGroup.connected (hg : p.IsGroup group) : p.Connected (p.withBody group) := by
  intro f hf g hgm
  obtain ⟨hfg, hgf⟩ := (hg.mem_withBody_iff hf g).mp hgm
  induction hfg using ReflTransGen.head_induction_on with
  | refl => exact .refl
  | @head k k' hcall hrest ih =>
    have hk' : k' ∈ p.withBody group :=
      (hg.mem_withBody_iff hf k').mpr ⟨.single hcall, hrest.trans hgf⟩
    exact .head ⟨hk', hcall⟩ (ih hk' (hgf.tail hcall))

variable (hg : p.IsGroup group)
  (hknown : ∀ f ∈ group, ∀ g, p.Calls f g → g ∉ group → known g = some (p.exactSummary g))

include hg hknown

/-- What is known of the calls that leave a group is exact. -/
theorem IsGroup.effectsOf_eq {f : FunctionRef} (hf : f ∈ p.withBody group) {c : CallSite}
    (hc : c ∈ p.sites f) (hs : staysIn (p.withBody group) c.callee = false) :
    p.effectsOf known c.callee = p.calleeEffects c.callee := by
  cases hcallee : c.callee with
  | operation op => rfl
  | function g =>
    have hcall : p.Calls f g := ⟨c, hc, hcallee⟩
    have hng : g ∉ group := by
      rw [hcallee] at hs
      have hnb : g ∉ p.withBody group := by simpa [staysIn] using hs
      intro hgg
      refine hnb ((hg.mem_withBody_iff hf g).mpr ?_)
      exact (hg.mem_iff f (mem_withBody.mp hf).1 g).mp hgg
    show p.requiredBy known g = p.requiredEffects g
    unfold requiredBy
    rw [hknown f (mem_withBody.mp hf).1 g hcall hng]
    rfl

/-- The effects of the calls that leave a group are those that each member requires. -/
theorem IsGroup.groupEffects_eq {f : FunctionRef} (hf : f ∈ p.withBody group) :
    p.groupEffects known (p.withBody group) = p.requiredEffects f := by
  refine EffectSet.ext_iff.mpr fun e => ?_
  rw [mem_groupEffects, mem_requiredEffects]
  constructor
  · rintro ⟨k, hk, c, hc, hs, he⟩
    rw [hg.effectsOf_eq hknown hk hc hs] at he
    obtain ⟨-, b, hb⟩ := mem_withBody.mp hk
    exact .of_reaches ((hg.mem_withBody_iff hf k).mp hk).1
      ((requires_iff_of_body hb).mpr ⟨c, hc, he⟩)
  · rintro ⟨g, hr, hi⟩
    -- along the way to where the effect comes in, one call is the first that leaves the group
    induction hr using ReflTransGen.head_induction_on with
    | refl =>
      obtain ⟨-, b, hb⟩ := mem_withBody.mp hf
      rcases hi with ⟨c, hc, op, hop, he⟩ | ⟨hn, -⟩
      · refine ⟨g, hf, c, hc, by rw [hop]; rfl, ?_⟩
        rw [hop]
        exact mem_calleeEffects_operation.mpr he
      · rw [hb] at hn
        cases hn
    | @head k k' hcall hrest ih =>
      by_cases hin : k' ∈ p.withBody group
      · exact ih hin
      · obtain ⟨c, hc, hk'⟩ := hcall
        have hs : staysIn (p.withBody group) c.callee = false := by
          rw [hk']
          exact decide_eq_false hin
        refine ⟨k, hf, c, hc, hs, ?_⟩
        rw [hg.effectsOf_eq hknown hf hc hs, hk']
        exact mem_calleeEffects_function.mpr ⟨g, hrest, hi⟩

/-- A call that stays in the group brings what the group requires. -/
theorem IsGroup.effectsWithin_eq {f : FunctionRef} (hf : f ∈ p.withBody group) {c : CallSite}
    (hc : c ∈ p.sites f) :
    p.effectsWithin known (p.withBody group) (p.requiredEffects f) c.callee =
      p.calleeEffects c.callee := by
  unfold effectsWithin
  split
  · rename_i hs
    cases hcallee : c.callee with
    | operation op =>
      rw [hcallee] at hs
      cases hs
    | function g =>
      rw [hcallee] at hs
      have hgm := (hg.mem_withBody_iff hf g).mp (of_decide_eq_true hs)
      exact requiredEffects_eq hgm.1 hgm.2
  · rename_i hs
    exact hg.effectsOf_eq hknown hf hc (by simpa using hs)

omit hknown in
theorem IsGroup.directness_eq {f : FunctionRef} (hf : f ∈ p.withBody group) {c : CallSite}
    (hc : c ∈ p.sites f) :
    directness (p.withBody group) c.callee = p.distance f c.callee := by
  cases hcallee : c.callee with
  | operation op => rfl
  | function g =>
    have hcall : p.Reaches f g := .single ⟨c, hc, hcallee⟩
    show (if g ∈ p.withBody group then 2 else 1) = if p.Reaches g f then 2 else 1
    by_cases h : p.Reaches g f
    · rw [if_pos h, if_pos ((hg.mem_withBody_iff hf g).mpr ⟨hcall, h⟩)]
    · rw [if_neg h, if_neg fun hm => h ((hg.mem_withBody_iff hf g).mp hm).2]

theorem IsGroup.contributions_eq {f : FunctionRef} (hf : f ∈ p.withBody group) :
    p.contributions known (p.withBody group) (p.requiredEffects f) f = p.effectCalls f := by
  have hsort : p.sitesByDirectness (p.withBody group) f =
      sortBy (fun a b => p.distance f a.callee ≤ p.distance f b.callee) (p.sites f) := by
    refine sortBy_congr fun a ha b hb => ?_
    rw [hg.directness_eq hf ha, hg.directness_eq hf hb]
  unfold contributions effectCalls
  rw [hsort]
  refine List.map_congr_left fun c hc => ?_
  rw [hg.effectsWithin_eq hknown hf (mem_sortBy.mp hc)]

/-- A member is known if it is not poisoned and what it calls outside the group is fully bound. -/
theorem IsGroup.isKnown_iff {k : FunctionRef} (hk : k ∈ p.withBody group) {b : BoundFunction}
    (hb : p.body? k = some b) :
    p.isKnown known (p.withBody group) k = true ↔ b.isPoisoned = false ∧
      ∀ g, p.Calls k g → g ∉ p.withBody group → p.FullyBound g := by
  have hkg := (mem_withBody.mp hk).1
  have hcallee : ∀ g, p.Calls k g → g ∉ p.withBody group →
      ((known g).map (·.isComplete)).getD true = decide (p.FullyBound g) := by
    intro g hcall hng
    rw [hknown k hkg g hcall fun h => hng ?_]
    · rfl
    · exact (hg.mem_withBody_iff hk g).mpr ((hg.mem_iff k hkg g).mp h)
  unfold isKnown
  rw [hb]
  simp only [Bool.and_eq_true, Bool.not_eq_true', List.all_eq_true, Bool.or_eq_true,
    decide_eq_true_eq]
  refine and_congr_right fun _ => forall_congr' fun g => ?_
  rw [← calls_of_body hb]
  refine forall_congr' fun hcall => ?_
  by_cases hin : g ∈ p.withBody group
  · simp [hin]
  · simp [hin, hcallee g hcall hin]

theorem IsGroup.all_isKnown_iff {f : FunctionRef} (hf : f ∈ p.withBody group) :
    (p.withBody group).all (p.isKnown known (p.withBody group)) = true ↔ p.FullyBound f := by
  rw [List.all_eq_true]
  constructor
  · intro h g hr
    -- along the way to `g` all members are known, and so is the first function outside the group
    induction hr using ReflTransGen.head_induction_on with
    | refl => exact fun b hb => ((hg.isKnown_iff hknown hf hb).mp (h g hf)).1
    | @head k k' hcall hrest ih =>
      by_cases hin : k' ∈ p.withBody group
      · exact ih hin
      · obtain ⟨-, b, hb⟩ := mem_withBody.mp hf
        exact ((hg.isKnown_iff hknown hf hb).mp (h k hf)).2 k' hcall hin g hrest
  · intro h k hk
    have hfk : p.Reaches f k := ((hg.mem_withBody_iff hf k).mp hk).1
    obtain ⟨-, b, hb⟩ := mem_withBody.mp hk
    exact (hg.isKnown_iff hknown hk hb).mpr
      ⟨h k hfk b hb, fun g hcall _ => h.of_reaches (hfk.tail hcall)⟩

theorem IsGroup.groupSummary_eq {f : FunctionRef} (hf : f ∈ p.withBody group) :
    p.groupSummary known (p.withBody group) f = p.exactSummary f := by
  obtain ⟨-, b, hb⟩ := mem_withBody.mp hf
  unfold groupSummary exactSummary effectOrigins
  rw [hg.groupEffects_eq hknown hf, hg.contributions_eq hknown hf, hb]
  congr 1
  exact Bool.eq_iff_iff.mpr ((hg.all_isKnown_iff hknown hf).trans decide_eq_true_iff.symm)

end Group

/-! ## All groups -/

/-- The summaries of functions that are known by their signatures only. -/
def summarizeSignatures (p : LinkedProgram) (fs : List FunctionRef) :
    List (FunctionRef × EffectSummary) :=
  fs.filterMap fun f => (p.signature? f).map fun s => (f, .ofSignature s)

theorem addSignatures_eq (done : Summaries) (fs : List FunctionRef) :
    p.addSignatures done fs = done.insertAll (p.summarizeSignatures fs) := by
  unfold addSignatures summarizeSignatures OrderedMap.insertAll
  rw [List.foldl_filterMap]
  congr 1
  funext done f
  cases p.signature? f <;> rfl

theorem get?_addSignatures_of_not_mem {done : Summaries} {fs : List FunctionRef} {f : FunctionRef}
    (hf : f ∉ fs) : (p.addSignatures done fs).get? f = done.get? f := by
  rw [addSignatures_eq]
  refine OrderedMap.get?_insertAll_of_not_mem fun entry hentry heq => hf ?_
  obtain ⟨g, hg, hs⟩ := List.mem_filterMap.mp hentry
  obtain ⟨s, -, rfl⟩ := Option.map_eq_some_iff.mp hs
  exact heq ▸ hg

/-- Functions without bodies are summarized by their signatures. -/
theorem get?_addSignatures {done : Summaries} {fs : List FunctionRef} {f : FunctionRef}
    (hf : f ∈ fs) (hb : p.body? f = none) {s : Signature} (hs : p.signature? f = some s) :
    (p.addSignatures done fs).get? f = some (p.exactSummary f) := by
  rw [addSignatures_eq, exactSummary_of_no_body hb hs]
  refine OrderedMap.get?_insertAll_of_mem (List.mem_filterMap.mpr ⟨f, hf, by rw [hs]; rfl⟩) ?_
  intro summary hmem
  obtain ⟨g, -, hg⟩ := List.mem_filterMap.mp hmem
  obtain ⟨s', hs', heq⟩ := Option.map_eq_some_iff.mp hg
  cases heq
  rw [hs] at hs'
  cases hs'
  rfl

/-- The members of a group without bodies. -/
abbrev withoutBody (p : LinkedProgram) (group : List FunctionRef) : List FunctionRef :=
  group.filter fun f => (p.body? f).isNone

/-- **A group is summarized exactly** if what is known of the functions that it calls is exact. The
summaries of other functions stay. -/
theorem IsGroup.get?_addGroup {group : List FunctionRef} (hg : p.IsGroup group)
    {cached done : Summaries}
    (hknown : ∀ f ∈ group, ∀ g, p.Calls f g → g ∉ group →
      knownIn cached done g = some (p.exactSummary g)) (f : FunctionRef) :
    (p.addGroup cached done group).get? f =
      if f ∈ group then some (p.exactSummary f) else done.get? f := by
  have hsame : ∀ g, g ∉ group →
      (p.addSignatures done (p.withoutBody group)).get? g = done.get? g := fun g hgg =>
    get?_addSignatures_of_not_mem fun hmem => hgg (List.mem_filter.mp hmem).1
  have hknown' : ∀ f ∈ group, ∀ g, p.Calls f g → g ∉ group →
      knownIn cached (p.addSignatures done (p.withoutBody group)) g = some (p.exactSummary g) := by
    intro f hf g hcall hgg
    rw [← hknown f hf g hcall hgg]
    unfold knownIn
    rw [hsame g hgg]
  have hmem : ∀ entry ∈ p.summarizeBodies
      (knownIn cached (p.addSignatures done (p.withoutBody group))) (p.withBody group),
      entry.1 ∈ p.withBody group ∧ entry.2 = p.exactSummary entry.1 := by
    intro entry hentry
    obtain ⟨g, hgm, rfl⟩ := List.mem_map.mp hentry
    exact ⟨hgm, hg.groupSummary_eq hknown' hgm⟩
  unfold addGroup
  rw [hg.connected.addBodies_eq]
  by_cases hf : f ∈ p.withBody group
  · rw [if_pos (mem_withBody.mp hf).1]
    refine OrderedMap.get?_insertAll_of_mem ?_ fun s hs => (hmem _ hs).2
    exact List.mem_map.mpr ⟨f, hf, Prod.ext rfl (hg.groupSummary_eq hknown' hf)⟩
  · have hother : ∀ entry ∈ p.summarizeBodies
        (knownIn cached (p.addSignatures done (p.withoutBody group))) (p.withBody group),
        entry.1 ≠ f := fun entry hentry heq => hf (heq ▸ (hmem entry hentry).1)
    rw [OrderedMap.get?_insertAll_of_not_mem hother]
    by_cases hfg : f ∈ group
    · have hb : p.body? f = none := by
        by_contra hsome
        exact hf (mem_withBody.mpr ⟨hfg, Option.ne_none_iff_exists'.mp hsome⟩)
      obtain ⟨s, hs⟩ := SymbolTable.mem_functions_iff.mp (hg.known f hfg)
      rw [if_pos hfg]
      exact get?_addSignatures (List.mem_filter.mpr ⟨hfg, by rw [hb]; rfl⟩) hb hs
    · rw [if_neg hfg]
      exact hsame f hfg

/-- Groups in order, behind those that are done. -/
theorem get?_foldl_addGroup {groups : List (List FunctionRef)}
    (cached done : Summaries) (hgroup : ∀ group ∈ groups, p.IsGroup group)
    (hord : groups.Pairwise fun c d => ∀ f ∈ c, ∀ g ∈ d, ¬ p.Reaches f g)
    (hknown : ∀ group ∈ groups, ∀ f ∈ group, ∀ g, p.Calls f g →
      (∃ group' ∈ groups, g ∈ group') ∨ knownIn cached done g = some (p.exactSummary g))
    (f : FunctionRef) :
    (groups.foldl (p.addGroup cached) done).get? f =
      if ∃ group ∈ groups, f ∈ group then some (p.exactSummary f) else done.get? f := by
  induction groups generalizing done with
  | nil => simp
  | cons c rest ih =>
    rw [List.pairwise_cons] at hord
    have hc := hgroup c List.mem_cons_self
    -- the first group calls no later group, so it finds what it calls among what is known
    have hfirst : ∀ f ∈ c, ∀ g, p.Calls f g → g ∉ c →
        knownIn cached done g = some (p.exactSummary g) := by
      intro f hf g hcall hng
      rcases hknown c List.mem_cons_self f hf g hcall with ⟨d, hd, hgd⟩ | h
      · rcases List.mem_cons.mp hd with rfl | hd
        · exact absurd hgd hng
        · exact absurd (.single hcall) (hord.1 d hd f hf g hgd)
      · exact h
    have hadd := hc.get?_addGroup hfirst
    rw [List.foldl_cons, ih _ (fun d hd => hgroup d (List.mem_cons_of_mem _ hd)) hord.2, hadd]
    · by_cases hfr : ∃ d ∈ rest, f ∈ d
      · obtain ⟨d, hd, hfd⟩ := hfr
        rw [if_pos ⟨d, hd, hfd⟩, if_pos ⟨d, List.mem_cons_of_mem _ hd, hfd⟩]
      · rw [if_neg hfr]
        by_cases hfc : f ∈ c
        · rw [if_pos hfc, if_pos ⟨c, List.mem_cons_self, hfc⟩]
        · rw [if_neg hfc, if_neg]
          rintro ⟨d, hd, hfd⟩
          rcases List.mem_cons.mp hd with rfl | hd
          · exact hfc hfd
          · exact hfr ⟨d, hd, hfd⟩
    · -- what a later group calls is in the first group, in a later one, or known beforehand
      intro d hd k hk g hcall
      by_cases hgc : g ∈ c
      · refine .inr ?_
        unfold knownIn
        rw [hadd, if_pos hgc]
        rfl
      · rcases hknown d (List.mem_cons_of_mem _ hd) k hk g hcall with ⟨d', hd', hgd'⟩ | h
        · rcases List.mem_cons.mp hd' with rfl | hd'
          · exact absurd hgd' hgc
          · exact .inl ⟨d', hd', hgd'⟩
        · refine .inr ?_
          rw [← h]
          unfold knownIn
          rw [hadd, if_neg hgc]

/-- **Groups in order are summarized exactly**, where what was known before of the functions that
are called outside the groups is exact. -/
theorem get?_summarize {groups : List (List FunctionRef)}
    (cached : Summaries) (hgroup : ∀ group ∈ groups, p.IsGroup group)
    (hord : groups.Pairwise fun c d => ∀ f ∈ c, ∀ g ∈ d, ¬ p.Reaches f g)
    (hknown : ∀ group ∈ groups, ∀ f ∈ group, ∀ g, p.Calls f g →
      (∃ group' ∈ groups, g ∈ group') ∨ cached.get? g = some (p.exactSummary g))
    (f : FunctionRef) :
    (p.summarize cached groups).get? f =
      if ∃ group ∈ groups, f ∈ group then some (p.exactSummary f) else none :=
  get?_foldl_addGroup cached ∅ hgroup hord
    (fun group hg k hk g hcall => (hknown group hg k hk g hcall).imp id fun h => h) f

end LinkedProgram

end EffectAudit
