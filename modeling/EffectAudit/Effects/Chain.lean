import EffectAudit.Effects.Summary

/-!
# Call chains

The way in which an effect reaches a function: from call to call along the origins of the effect, up
to the operation that has it.

## Main definitions

* `Chain`, `ChainEnd`: functions that call each other, and where that ends
* `LinkedProgram.Summaries.chain`: the way of an effect to a function
* `Chain.text`: how a report shows it
-/

namespace EffectAudit

/-- Where a chain of calls ends. -/
inductive ChainEnd where
  | operation (op : Operation)
  /-- The last function has no body and declares the effect. -/
  | declared
  /-- The chain goes no further, because its last function occurs before or has no origin. -/
  | cut
  deriving DecidableEq

/-- Functions, each of which calls the next one. -/
structure Chain where
  functions : List FunctionRef
  finish : ChainEnd
  deriving DecidableEq

namespace Chain

/-- The chain with one more function in front. -/
def cons (f : FunctionRef) (c : Chain) : Chain := { c with functions := f :: c.functions }

/-- How a chain is shown, such as `f -> g -> db.query`. -/
def text (c : Chain) : String :=
  let names := c.functions.map (·.name)
  let last := match c.finish with
    | .operation op => [op.name]
    | .declared => ["(declared `uses` of `" ++ names.getLastD "" ++ "`)"]
    | .cut => []
  " -> ".intercalate (names ++ last)

end Chain

/-- Follows the origins of an effect from a function for a number of calls, where `before` are the
functions that came earlier. -/
def followOrigins (summaries : LinkedProgram.Summaries) (e : Effect) :
    Nat → List FunctionRef → FunctionRef → Chain
  | 0, _, f => ⟨[f], .cut⟩
  | steps + 1, before, f =>
    match (summaries.get? f).bind (·.origin? e) with
    | some (.operation op _) => ⟨[f], .operation op⟩
    | some (.call g _) =>
      if g ∈ f :: before then ⟨[f, g], .cut⟩
      else .cons f (followOrigins summaries e steps (f :: before) g)
    | some .declared => ⟨[f], .declared⟩
    | none => ⟨[f], .cut⟩

/-- The way of an effect to a function. No function occurs twice before the end, so there are at
most as many calls as summaries. -/
def LinkedProgram.Summaries.chain (summaries : LinkedProgram.Summaries) (f : FunctionRef)
    (e : Effect) : Chain :=
  followOrigins summaries e (summaries.entries.length + 1) [] f

end EffectAudit
