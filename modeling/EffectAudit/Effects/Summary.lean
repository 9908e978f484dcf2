import EffectAudit.Data.Revision
import EffectAudit.Function.Linked

/-!
# Effect summaries

A function requires the effects of the operations that it calls and all that the functions it calls
require; a function without a body requires what it declares. Groups of functions that call each
other are summarized one after the other, callees first. In a group every member starts without
effects and takes in what its calls bring by then, over and over, until nothing is added any more.

A summary also says where each effect enters the function, and whether the calls behind it are all
known; if not, there may be further effects. What is unknown spreads in a group in the same way,
from the members with unknown calls to those that call them.

## Main definitions

* `Origin`: where an effect enters a function
* `EffectSummary`: what a function requires
* `LinkedProgram.growth`, `LinkedProgram.doubt`: how effects and doubt spread in a group
* `LinkedProgram.addGroup`: adds the summaries of functions that call each other
* `LinkedProgram.summarize`: the summaries of groups, callees first
-/

namespace EffectAudit

/-- Where an effect enters a function. -/
inductive Origin where
  | operation (op : Operation) (span : Span)
  | call (callee : FunctionRef) (span : Span)
  /-- The function has no body, and its declaration is taken at its word. -/
  | declared
  deriving DecidableEq

namespace Origin

/-- The origin that a call is. -/
def ofSite (c : CallSite) : Origin :=
  match c.callee with
  | .operation op => operation op c.span
  | .function f => call f c.span

/-- The place of the call, if the origin is one. -/
def span? : Origin → Option Span
  | operation _ span | call _ span => some span
  | declared => none

end Origin

/-- What a function requires. -/
structure EffectSummary where
  required : EffectSet
  /-- Where each required effect enters, in the order of the effects. -/
  origins : List (Effect × Origin)
  /-- Whether all calls behind the summary are known. -/
  isComplete : Bool
  deriving DecidableEq

namespace EffectSummary

/-- The summary of a function that is known by its signature only. -/
def ofSignature (s : Signature) : EffectSummary where
  required := s.declared
  origins := s.declared.toList.map fun e => (e, .declared)
  isComplete := true

/-- Where an effect enters. -/
def origin? (s : EffectSummary) (e : Effect) : Option Origin := s.origins.lookup e

end EffectSummary

namespace LinkedProgram

/-- Summaries by function. -/
abbrev Summaries := OrderedMap FunctionRef EffectSummary

/-- What is known of a function by now: what was just found, or else what was known before. -/
def knownIn (cached done : Summaries) (f : FunctionRef) : Option EffectSummary :=
  (done.get? f).or (cached.get? f)

section Group

variable (p : LinkedProgram) (known : FunctionRef → Option EffectSummary)

/-- The effects that a call of a function brings, as far as its summary is known. -/
def requiredBy (f : FunctionRef) : EffectSet :=
  match known f with
  | some s => s.required
  | none => ((p.signature? f).map (·.declared)).getD ∅

/-- The effects that a call brings. -/
def effectsOf : Callee → EffectSet
  | .operation op => .ofList [p.registry.effectOf op]
  | .function f => p.requiredBy known f

/-! ## Effects -/

/-- The effects that a call brings in a group whose members have the current effects. -/
def contribution (current : OrderedMap FunctionRef EffectSet) : Callee → EffectSet
  | .operation op => .ofList [p.registry.effectOf op]
  | .function f =>
    match current.get? f with
    | some effects => effects
    | none => p.requiredBy known f

/-- The effects of a member with all that its calls bring by now. -/
def gathered (current : OrderedMap FunctionRef EffectSet) (f : FunctionRef) : EffectSet :=
  (p.sites f).foldl (fun effects c => effects.union (p.contribution known current c.callee))
    ((current.get? f).getD ∅)

theorem mem_foldl_contribution {current : OrderedMap FunctionRef EffectSet} {l : List CallSite}
    {effects : EffectSet} {e : Effect} :
    e ∈ l.foldl (fun effects c => effects.union (p.contribution known current c.callee)) effects ↔
      e ∈ effects ∨ ∃ c ∈ l, e ∈ p.contribution known current c.callee := by
  induction l generalizing effects with
  | nil => simp
  | cons c rest ih => simp [ih, or_assoc]

theorem mem_gathered {current : OrderedMap FunctionRef EffectSet} {f : FunctionRef} {e : Effect} :
    e ∈ p.gathered known current f ↔ e ∈ (current.get? f).getD ∅ ∨
      ∃ c ∈ p.sites f, e ∈ p.contribution known current c.callee :=
  p.mem_foldl_contribution known

/-- The effects of members grow by what their calls bring. -/
def growth : Revision FunctionRef EffectSet where
  update current f :=
    let effects := p.gathered known current f
    if current.get? f = some effects then none else some effects
  -- how many effects may still be added; a member without a set may get an empty one first
  weight
    | none => Effect.all.length + 1
    | some effects => Effect.all.length - effects.size
  lighter current f effects h := by
    dsimp only at h
    split at h
    · cases h
    · rename_i hne
      cases h
      cases hget : current.get? f with
      | none => exact Nat.lt_succ_of_le (Nat.sub_le _ _)
      | some before =>
        have hsize : before.size < (p.gathered known current f).size := by
          refine EffectSet.size_lt_size (fun e he => ?_) fun heq => hne (heq ▸ hget)
          rw [mem_gathered, hget]
          exact .inl he
        have hle := (p.gathered known current f).size_le
        show Effect.all.length - _ < Effect.all.length - before.size
        omega

/-- The effects of members when no call brings anything new any more. -/
def grownEffects (members : List FunctionRef) : OrderedMap FunctionRef EffectSet :=
  (p.growth known).settle members (.ofList (members.map fun f => (f, ∅)))

/-! ## Completeness -/

/-- Whether a function and the calls that lead from it out of the group are all known. -/
def isKnown (group : List FunctionRef) (f : FunctionRef) : Bool :=
  match p.body? f with
  | none => true
  | some body =>
    !body.isPoisoned && body.callees.all fun g =>
      g ∈ group || ((known g).map (·.isComplete)).getD true

/-- Whether a call is one of a member in doubt. -/
def leadsToDoubt (flags : OrderedMap FunctionRef Bool) : Callee → Bool
  | .operation _ => false
  | .function g => flags.get? g == some false

/-- A member is in doubt when it calls one that is. -/
def doubt : Revision FunctionRef Bool where
  update flags f :=
    if flags.get? f = some true ∧ (p.sites f).any (fun c => leadsToDoubt flags c.callee) then
      some false
    else none
  weight flag := if flag = some true then 1 else 0
  lighter flags f flag h := by
    split at h
    · rename_i hflag
      cases h
      simp [hflag.1]
    · cases h

/-- Which members are known with all that they call. -/
def settledFlags (members : List FunctionRef) : OrderedMap FunctionRef Bool :=
  p.doubt.settle members (.ofList (members.map fun f => (f, p.isKnown known members f)))

/-! ## Origins -/

/-- How directly a call of a group member leads out of the group: operations first. -/
def directness (group : List FunctionRef) : Callee → Nat
  | .operation _ => 0
  | .function f => if f ∈ group then 2 else 1

/-- The calls of a function, the most direct ones first. -/
def sitesByDirectness (group : List FunctionRef) (f : FunctionRef) : List CallSite :=
  sortBy (fun a b => directness group a.callee ≤ directness group b.callee) (p.sites f)

/-- Notes where an effect enters, unless that is noted already. -/
def noteOrigin (origin : Origin) (origins : OrderedMap Effect Origin) (e : Effect) :
    OrderedMap Effect Origin :=
  if origins.contains e then origins else origins.insert e origin

/-- Where effects enter a member: for each the most direct call that brings it. -/
def originsOf (members : List FunctionRef) (current : OrderedMap FunctionRef EffectSet)
    (f : FunctionRef) : OrderedMap Effect Origin :=
  (p.sitesByDirectness members f).foldl
    (fun origins c =>
      (p.contribution known current c.callee).toList.foldl (noteOrigin (.ofSite c)) origins)
    ∅

/-- The summary of a member, from the effects and the flags of the members. -/
def memberSummary (members : List FunctionRef) (current : OrderedMap FunctionRef EffectSet)
    (flags : OrderedMap FunctionRef Bool) (f : FunctionRef) : EffectSummary where
  required := (current.get? f).getD ∅
  origins := (p.originsOf known members current f).entries
  isComplete := (flags.get? f).getD false

end Group

/-! ## Groups -/

/-- Adds the summaries of functions that are known by their signatures only. -/
def addSignatures (p : LinkedProgram) (done : Summaries) (fs : List FunctionRef) : Summaries :=
  fs.foldl
    (fun done f =>
      match p.signature? f with
      | none => done
      | some s => done.insert f (.ofSignature s))
    done

/-- Adds the summaries of functions that have bodies and call each other. -/
def addBodies (p : LinkedProgram) (cached done : Summaries) (members : List FunctionRef) :
    Summaries :=
  let current := p.grownEffects (knownIn cached done) members
  let flags := p.settledFlags (knownIn cached done) members
  members.foldl
    (fun done f =>
      done.insert f (p.memberSummary (knownIn cached done) members current flags f))
    done

/-- Adds the summaries of a group to those of the groups it calls. -/
def addGroup (p : LinkedProgram) (cached done : Summaries) (group : List FunctionRef) : Summaries :=
  p.addBodies cached (p.addSignatures done (group.filter fun f => (p.body? f).isNone))
    (group.filter fun f => (p.body? f).isSome)

/-- The summaries of groups, which are given callees first; other functions have the summaries that
were found before. -/
def summarize (p : LinkedProgram) (cached : Summaries) (groups : List (List FunctionRef)) :
    Summaries :=
  groups.foldl (p.addGroup cached) ∅

end LinkedProgram

end EffectAudit
