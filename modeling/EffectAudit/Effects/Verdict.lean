import EffectAudit.Effects.Chain

/-!
# Declared against required effects

A pure function must require and declare nothing; of its faults only the first is reported. Any
other function must declare what it requires, and should declare nothing else. The second can be
told only if all calls behind the function are known.

## Main definitions

* `LinkedProgram.impurity?`: the fault of a pure function
* `LinkedProgram.missingEffects`, `LinkedProgram.unusedEffects`: the faults of other functions
* `LinkedProgram.effectFaults`: the faults of a function
-/

namespace EffectAudit.LinkedProgram

variable (p : LinkedProgram) (summaries : Summaries)

/-- How a callee is named in a report. -/
def calleeName : Callee → String
  | .operation op => op.name
  | .function f => f.name

/-- The first call that brings effects. -/
def firstEffectful? (body : BoundFunction) : Option CallSite :=
  body.calls.find? fun c => !(p.effectsOf summaries.get? c.callee).isEmpty

/-- The fault of a pure function: a call that brings effects, or else a `uses` clause. -/
def impurity? (s : Signature) (body : BoundFunction) (summary : EffectSummary) :
    Option Diagnostic :=
  let call? := if summary.required.isEmpty then none else p.firstEffectful? summaries body
  match call? with
  | some c =>
    let effects := p.effectsOf summaries.get? c.callee
    some ((Finding.pureCallsEffectful s.name (calleeName c.callee) effects).report s.path c.span)
  | none =>
    if s.tokens.isEmpty then none
    else
      some ((Finding.pureDeclaresEffects s.name s.declared).report s.path
        (s.usesSpan.getD s.span))

/-- The required effects that are not declared, each reported where it enters. -/
def missingEffects (s : Signature) (summary : EffectSummary) : List Diagnostic :=
  (summary.required.difference s.declared).toList.map fun e =>
    let chain := (summaries.chain s.ref e).text
    let suggested := s.declared.union summary.required
    let span := ((summary.origin? e).bind (·.span?)).getD s.span
    (Finding.missingEffect s.name e chain suggested).report s.path span

/-- The declared effects that are not required and not ignored, each reported at its token. -/
def unusedEffects (ignored : EffectSet) (s : Signature) (summary : EffectSummary) :
    List Diagnostic :=
  if summary.isComplete then
    s.tokens.filterMap fun t =>
      match p.registry.effect? t.node with
      | none => none
      | some e =>
        if summary.required.contains e || ignored.contains e then none
        else some ((Finding.unusedEffect s.name e).report s.path t.span)
  else []

/-- What is wrong with the declared effects of a function. Nothing is reported of a function that is
not bound completely. -/
def effectFaults (ignored : EffectSet) (f : FunctionRef) : List Diagnostic :=
  match p.signature? f, p.body? f, summaries.get? f with
  | some s, some body, some summary =>
    if body.isPoisoned then []
    else if s.isPure then (p.impurity? summaries s body summary).toList
    else missingEffects summaries s summary ++ p.unusedEffects ignored s summary
  | _, _, _ => []

end EffectAudit.LinkedProgram
