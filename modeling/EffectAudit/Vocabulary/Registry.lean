import EffectAudit.Vocabulary.Operation

/-!
# Registries

A registry is the part of the vocabulary that one run knows: the effects a `uses` clause may
name, and the operations a call may name, each with the effect it has in that run. Tables are
searched from the front, so an earlier entry hides a later one that answers to the same spelling.

## Main definitions

* `Registry.standard`: the whole vocabulary
* `Registry.effect?`, `Registry.operation?`: what a spelling names
* `Registry.effectOf`: the effect of an operation, also of one outside the table
-/

namespace EffectAudit

/-- The effects and operations that a run knows. -/
structure Registry where
  effects : List Effect
  /-- The operations, each with the effect it performs. -/
  operations : List (Operation × Effect)
  deriving DecidableEq

namespace Registry

/-- The whole vocabulary. -/
def standard : Registry where
  effects := Effect.all
  operations := Operation.all.map fun o => (o, o.effect)

instance : Inhabited Registry := ⟨standard⟩

/-- The effect that a token of a `uses` clause names. -/
def effect? (r : Registry) (token : String) : Option Effect :=
  r.effects.find? (·.item.spelledBy token)

/-- The operation that a call names. -/
def operation? (r : Registry) (spelling : String) : Option Operation :=
  (r.operations.find? (·.1.item.spelledBy spelling)).map (·.1)

/-- The effect of an operation: what the table says, else the one of the vocabulary. -/
def effectOf (r : Registry) (o : Operation) : Effect :=
  ((r.operations.find? (·.1 == o)).map (·.2)).getD o.effect

/-- Whether an effect may be declared. -/
def knowsEffect (r : Registry) (e : Effect) : Bool := r.effects.contains e

/-- The names of the effects that may be declared, in table order. -/
def effectNames (r : Registry) : List String := r.effects.map Effect.name

end Registry

end EffectAudit
