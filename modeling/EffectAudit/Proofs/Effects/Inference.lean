import EffectAudit.Proofs.Effects.Requirement
import EffectAudit.Proofs.Function.Groups

/-!
# Inferred effects

All groups of a program, each after those that it calls, are summarized exactly. What a function
requires is therefore settled by the calls alone: neither the order of the members of a group, nor
that of the bodies or of the calls in a body, nor the choice among orders of the groups matters.

## Main definitions

* `LinkedProgram.Rearranged`: the same bodies, in another order and with their calls in another
  order

## Main results

* `LinkedProgram.Closed.exactSummaries_of_calleesFirst`: what the summaries of a program are
* `LinkedProgram.Closed.exactSummaries_refresh`: what they are after some of them were found anew
* `LinkedProgram.inferred_effects_exact`: functions require what they reach, whatever the order
-/

namespace EffectAudit

namespace LinkedProgram

open Relation

variable {p : LinkedProgram}

/-! ## All groups of a program -/

/-- Groups in order, callees first, are the whole groups of functions that call each other. -/
theorem Closed.isGroup (hp : p.Closed) {groups : List (List FunctionRef)}
    (h : p.CalleesFirst groups) {group : List FunctionRef} (hg : group ∈ groups) :
    p.IsGroup group :=
  ⟨fun f hf => (h.covers f).mpr ⟨group, hg, hf⟩, fun _ hf _ => h.mem_group_iff hp hg hf⟩

/-- Every function of the program has its exact summary, and nothing else has a summary. -/
def ExactSummaries (p : LinkedProgram) (m : Summaries) : Prop :=
  ∀ f, m.get? f = if f ∈ p.symbols.functions then some (p.exactSummary f) else none

theorem ExactSummaries.get?_of_mem {m : Summaries} (h : p.ExactSummaries m) {f : FunctionRef}
    (hf : f ∈ p.symbols.functions) : m.get? f = some (p.exactSummary f) :=
  (h f).trans (if_pos hf)

theorem ExactSummaries.get?_of_not_mem {m : Summaries} (h : p.ExactSummaries m) {f : FunctionRef}
    (hf : f ∉ p.symbols.functions) : m.get? f = none := (h f).trans (if_neg hf)

/-- Groups in order, callees first, are summarized exactly. -/
theorem Closed.exactSummaries_of_calleesFirst (hp : p.Closed) {groups : List (List FunctionRef)}
    (h : p.CalleesFirst groups) : p.ExactSummaries (p.summarize ∅ groups) := by
  intro f
  have hall := get?_summarize ∅ (fun c hc => hp.isGroup h hc) h.ordered
    (fun c _ k _ g hcall => .inl ((h.covers g).mp (hp.callee k g hcall))) f
  rw [hall]
  exact if_congr (h.covers f).symm rfl rfl

/-- If the summaries of other functions are exact, all are after those of the given functions were
found anew, whatever order the groups have. -/
theorem Closed.exactSummaries_refresh (hp : p.Closed) {groups : List (List FunctionRef)}
    (h : p.CalleesFirst groups) {known : Summaries} {fs : List FunctionRef}
    (hin : ∀ f ∈ p.symbols.functions, f ∉ fs → known.get? f = some (p.exactSummary f))
    (hout : ∀ f, f ∉ p.symbols.functions → known.get? f = none) :
    let kept := known.filter fun f _ => f ∉ fs
    p.ExactSummaries (kept.extend (p.summarize kept (chooseGroups groups fs))) := by
  intro kept
  -- a function outside the chosen groups is none of those to be found anew
  have hkept : ∀ f ∈ p.symbols.functions, (∀ group ∈ chooseGroups groups fs, f ∉ group) →
      kept.get? f = some (p.exactSummary f) := by
    intro f hf hnone
    obtain ⟨group, hg, hfg⟩ := (h.covers f).mp hf
    have hnf : f ∉ fs := fun hfs => hnone group (h.mem_chooseGroups_iff.mpr ⟨hg, f, hfg, hfs⟩) hfg
    rw [OrderedMap.get?_filter, hin f hf hnf]
    simp [hnf]
  have hsummarize := get?_summarize kept
    (fun c hc => hp.isGroup h (h.mem_chooseGroups_iff.mp hc).1) (h.ordered_chooseGroups fs) ?_
  · intro f
    rw [OrderedMap.get?_extend, hsummarize]
    by_cases hsel : ∃ group ∈ chooseGroups groups fs, f ∈ group
    · obtain ⟨group, hg, hfg⟩ := hsel
      rw [if_pos ⟨group, hg, hfg⟩,
        if_pos ((h.covers f).mpr ⟨group, (h.mem_chooseGroups_iff.mp hg).1, hfg⟩)]
      rfl
    · rw [if_neg hsel, Option.none_or]
      split
      · rename_i hf
        exact hkept f hf fun group hg hfg => hsel ⟨group, hg, hfg⟩
      · rename_i hf
        rw [OrderedMap.get?_filter, hout f hf]
        rfl
  · -- what a chosen group calls is in a chosen group or has its exact summary already
    intro c _ k _ g hcall
    by_cases hsel : ∃ group ∈ chooseGroups groups fs, g ∈ group
    · exact .inl hsel
    · exact .inr (hkept g (hp.callee k g hcall) fun group hg hgg => hsel ⟨group, hg, hgg⟩)

/-! ## Other orders -/

theorem inj_of_nodup {bodies : List BoundFunction} (hrefs : (bodies.map (·.ref)).Nodup) :
    ∀ b ∈ bodies, ∀ b' ∈ bodies, b.ref = b'.ref → b = b' :=
  fun _ hb _ hb' => List.inj_on_of_nodup_map hrefs hb hb'

/-- The same bodies in another order, each with its calls in another order. -/
structure Rearranged (bodies bodies' : List BoundFunction) : Prop where
  refs : (bodies.map (·.ref)).Perm (bodies'.map (·.ref))
  calls : ∀ b ∈ bodies, ∀ b' ∈ bodies', b.ref = b'.ref → b.calls.Perm b'.calls

namespace Rearranged

variable {registry : Registry} {symbols : SymbolTable} {bodies bodies' : List BoundFunction}

theorem exists_body (h : Rearranged bodies bodies') {b' : BoundFunction} (hb' : b' ∈ bodies') :
    ∃ b ∈ bodies, b.ref = b'.ref ∧ b.calls.Perm b'.calls := by
  obtain ⟨b, hb, hr⟩ := List.mem_map.mp (h.refs.mem_iff.mpr (List.mem_map.mpr ⟨b', hb', rfl⟩))
  exact ⟨b, hb, hr, h.calls b hb b' hb' hr⟩

theorem symm (h : Rearranged bodies bodies') : Rearranged bodies' bodies :=
  ⟨h.refs.symm, fun b' hb' b hb hr => (h.calls b hb b' hb' hr.symm).symm⟩

theorem known (h : Rearranged bodies bodies') (hknown : ∀ b ∈ bodies,
      b.ref ∈ symbols.functions ∧ ∀ g ∈ b.callees, g ∈ symbols.functions) :
    ∀ b' ∈ bodies', b'.ref ∈ symbols.functions ∧ ∀ g ∈ b'.callees, g ∈ symbols.functions := by
  intro b' hb'
  obtain ⟨b, hb, hr, hperm⟩ := h.exists_body hb'
  refine ⟨hr ▸ (hknown b hb).1, fun g hg => (hknown b hb).2 g ?_⟩
  obtain ⟨c, hc, he⟩ := BoundFunction.mem_callees_iff.mp hg
  exact BoundFunction.mem_callees_iff.mpr ⟨c, hperm.mem_iff.mpr hc, he⟩

variable (hrefs : (bodies.map (·.ref)).Nodup) (h : Rearranged bodies bodies')

include hrefs h

theorem nodup : (bodies'.map (·.ref)).Nodup := h.refs.nodup_iff.mp hrefs

theorem exists_body? {f : FunctionRef} :
    (∃ b, (ofBodies registry symbols bodies).body? f = some b) →
      ∃ b', (ofBodies registry symbols bodies').body? f = some b' := by
  rintro ⟨b, hb⟩
  obtain ⟨hm, rfl⟩ := (body?_ofBodies (inj_of_nodup hrefs)).mp hb
  obtain ⟨b', hb', hr, -⟩ := h.symm.exists_body hm
  exact ⟨b', (body?_ofBodies (inj_of_nodup (h.nodup hrefs))).mpr ⟨hb', hr⟩⟩

theorem mem_sites {f : FunctionRef} {c : CallSite}
    (hc : c ∈ (ofBodies registry symbols bodies).sites f) :
    c ∈ (ofBodies registry symbols bodies').sites f := by
  cases hb : (ofBodies registry symbols bodies).body? f with
  | none =>
    rw [sites_of_no_body hb] at hc
    exact absurd hc List.not_mem_nil
  | some b =>
    rw [sites_of_body hb] at hc
    obtain ⟨hm, rfl⟩ := (body?_ofBodies (inj_of_nodup hrefs)).mp hb
    obtain ⟨b', hb', hr, hperm⟩ := h.symm.exists_body hm
    rw [sites_of_body ((body?_ofBodies (inj_of_nodup (h.nodup hrefs))).mpr ⟨hb', hr⟩)]
    exact hperm.mem_iff.mpr hc

theorem requires {f : FunctionRef} {e : Effect}
    (hr : (ofBodies registry symbols bodies).Requires f e) :
    (ofBodies registry symbols bodies').Requires f e := by
  obtain ⟨g, hfg, hi⟩ := hr
  have hcalls : (ofBodies registry symbols bodies).Calls ≤
      (ofBodies registry symbols bodies').Calls :=
    fun _ _ ⟨c, hc, hb⟩ => ⟨c, h.mem_sites hrefs hc, hb⟩
  refine ⟨g, ReflTransGen.mono hcalls f g hfg, ?_⟩
  rcases hi with ⟨c, hc, hop⟩ | ⟨hn, hs⟩
  · exact .inl ⟨c, h.mem_sites hrefs hc, hop⟩
  · refine .inr ⟨?_, hs⟩
    -- a body in the one order would be a body in the other
    by_contra hsome
    obtain ⟨b, hb⟩ := h.symm.exists_body? (h.nodup hrefs) (Option.ne_none_iff_exists'.mp hsome)
    rw [hn] at hb
    cases hb

theorem requiredEffects_eq (f : FunctionRef) :
    (ofBodies registry symbols bodies).requiredEffects f =
      (ofBodies registry symbols bodies').requiredEffects f :=
  EffectSet.ext_iff.mpr fun e => by
    rw [mem_requiredEffects, mem_requiredEffects]
    exact ⟨h.requires hrefs, h.symm.requires (h.nodup hrefs)⟩

end Rearranged

/-! ## What functions require -/

/-- **Inferred effects are exactly the reachable ones.** Take any groups of functions that reach one
another, callees first; the computed groups are such groups. Every function of the table gets a
summary. Without a body a function requires what it declares; with a body, the effects that come in
at the functions it reaches. Other orders of the bodies, of the calls in them, and of groups and
their members, as long as callees come first, lead to the same requirements. -/
theorem inferred_effects_exact (registry : Registry) (changes : List SymbolTable.Change)
    (bodies : List BoundFunction) (hrefs : (bodies.map (·.ref)).Nodup)
    (hknown : ∀ b ∈ bodies, b.ref ∈ (SymbolTable.ofChanges changes).functions ∧
      ∀ g ∈ b.callees, g ∈ (SymbolTable.ofChanges changes).functions) :
    let p := ofBodies registry (.ofChanges changes) bodies
    p.CalleesFirst p.groups ∧
    ∀ groups, p.CalleesFirst groups →
      let inferred := p.summarize ∅ groups
      (∀ f ∈ p.symbols.functions, ∃ summary, inferred.get? f = some summary ∧
        (p.body? f = none → ∃ s, p.signature? f = some s ∧ summary.required = s.declared) ∧
        ∀ b, p.body? f = some b →
          ∀ e, e ∈ summary.required ↔ ∃ g, p.Reaches f g ∧ p.Introduces g e) ∧
      ∀ bodies' groups', Rearranged bodies bodies' →
        (ofBodies registry (.ofChanges changes) bodies').CalleesFirst groups' →
        ∀ f, (((ofBodies registry (.ofChanges changes) bodies').summarize ∅ groups').get? f).map
          (·.required) = (inferred.get? f).map (·.required) := by
  intro p
  have hp : p.Closed := closed_ofBodies (inj_of_nodup hrefs) hknown
  refine ⟨hp.calleesFirst_groups, fun groups hgroups => ?_⟩
  intro inferred
  have hget := hp.exactSummaries_of_calleesFirst hgroups
  refine ⟨fun f hf => ?_, fun bodies' groups' h hgroups' f => ?_⟩
  · refine ⟨p.exactSummary f, by rw [hget, if_pos hf], fun hb => ?_, fun _ _ _ =>
      mem_requiredEffects⟩
    obtain ⟨s, hs⟩ := SymbolTable.mem_functions_iff.mp hf
    exact ⟨s, hs, requiredEffects_of_no_body hb hs⟩
  · have hp' : (ofBodies registry (.ofChanges changes) bodies').Closed :=
      closed_ofBodies (inj_of_nodup (h.nodup hrefs)) (h.known hknown)
    have hget' := hp'.exactSummaries_of_calleesFirst hgroups' f
    rw [hget', hget]
    show Option.map _ (if f ∈ (SymbolTable.ofChanges changes).functions then _ else _) =
      Option.map _ (if f ∈ (SymbolTable.ofChanges changes).functions then _ else _)
    split
    · exact congrArg some (h.requiredEffects_eq hrefs f).symm
    · rfl

section Recursion

/-- A file with two functions that call each other and one of which only the signature is known. -/
def recursionUnit : SourceUnit where
  path := ⟨"m.cdz"⟩
  declarations :=
    [⟨.function { name := "ping", returns := .named "Unit" }, ⟨0, 1, 1⟩⟩,
      ⟨.function { name := "pong", returns := .named "Unit" }, ⟨1, 2, 1⟩⟩,
      ⟨.function { name := "note", returns := .named "Unit", effects := [⟨"Logging", ⟨3, 4, 1⟩⟩] },
        ⟨2, 5, 1⟩⟩]

/-- The function of the given name in the file. -/
def recursionRef (name : String) : FunctionRef := ⟨recursionUnit.path.key, name⟩

/-- The bodies of the two functions; one also calls an operation and the third function. -/
def recursionBodies : List BoundFunction :=
  [{ ref := recursionRef "ping", calls := [⟨.function (recursionRef "pong"), ⟨0, 1, 1⟩⟩] },
    { ref := recursionRef "pong"
      calls := [⟨.function (recursionRef "ping"), ⟨1, 2, 1⟩⟩, ⟨.operation .dbQuery, ⟨1, 2, 1⟩⟩,
        ⟨.function (recursionRef "note"), ⟨1, 2, 1⟩⟩] }]

/-- The changes that lead to the table with the file. -/
def recursionChanges : List SymbolTable.Change := [.collect .standard "m" recursionUnit]

/-- The file, the bodies of its functions known. -/
def recursionProgram : LinkedProgram :=
  ofBodies .standard (.ofChanges recursionChanges) recursionBodies

theorem inferred_effects_of_recursion :
    (recursionBodies.map (·.ref)).Nodup ∧
    (∀ b ∈ recursionBodies, b.ref ∈ (SymbolTable.ofChanges recursionChanges).functions ∧
      ∀ g ∈ b.callees, g ∈ (SymbolTable.ofChanges recursionChanges).functions) ∧
    ∃ summary, (recursionProgram.summarize ∅ recursionProgram.groups).get?
        (recursionRef "ping") = some summary ∧
      summary.required.toList = [.database, .logging] ∧
      ∀ e, e ∈ summary.required ↔
        ∃ g, recursionProgram.Reaches (recursionRef "ping") g ∧
          recursionProgram.Introduces g e := by
  have hrefs : (recursionBodies.map (·.ref)).Nodup := by decide
  have hknown : ∀ b ∈ recursionBodies,
      b.ref ∈ (SymbolTable.ofChanges recursionChanges).functions ∧
        ∀ g ∈ b.callees, g ∈ (SymbolTable.ofChanges recursionChanges).functions := by decide
  obtain ⟨hgroups, hall⟩ :=
    inferred_effects_exact .standard recursionChanges recursionBodies hrefs hknown
  obtain ⟨summary, hget, -, hreq⟩ := (hall _ hgroups).1 (recursionRef "ping") (by decide)
  have hping : ((recursionProgram.summarize ∅ recursionProgram.groups).get?
      (recursionRef "ping")).map (·.required.toList) = some [.database, .logging] := by
    decide +kernel
  have hget : (recursionProgram.summarize ∅ recursionProgram.groups).get? (recursionRef "ping") =
      some summary := hget
  rw [hget, Option.map_some, Option.some_inj] at hping
  exact ⟨hrefs, hknown, summary, hget, hping, hreq _ (by rfl)⟩

end Recursion

end LinkedProgram

end EffectAudit
