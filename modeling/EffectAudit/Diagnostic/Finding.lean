import EffectAudit.Path.Basic
import EffectAudit.Syntax.Span
import EffectAudit.Vocabulary.EffectSet
import EffectAudit.Vocabulary.Rule

/-!
# Findings

What can be wrong with a program, as causes. A finding says what was found; the rule it falls under
and the words that report it follow from that.

## Main definitions

* `Finding`: the causes
* `Finding.rule`, `Finding.message`, `Finding.fix?`, `Finding.notes`: how a cause is reported
-/

namespace EffectAudit

/-- Something wrong with a program. -/
inductive Finding where
  /-- An import whose target is no module and no file. -/
  | unresolvedModule (target : String)
  /-- An imported name that its module does not export. -/
  | unexportedImport (owner name : String)
  /-- A called function that its module defines but does not export. -/
  | unexportedCall (owner name : String)
  | unresolvedReference (name : String)
  /-- A qualified call of a function that the module does not have. -/
  | missingInModule (owner name : String)
  | unknownQualifier (qualifier name : String)
  /-- A function declared again, with the place of the first declaration. -/
  | duplicateFunction (name : String) (first : Span)
  | circularDependency (cycle : List Path)
  /-- An exported name that another file of the module exports too. -/
  | duplicateModule (owner name : String) (other : Path)
  | ambiguousReference (name : String) (candidates : List String)
  | unknownEffect (token : String)
  | pureCallsEffectful (function callee : String) (effects : EffectSet)
  | pureDeclaresEffects (function : String) (declared : EffectSet)
  /-- An effect that is required through a chain of calls and not declared. -/
  | missingEffect (function : String) (effect : Effect) (chain : String) (suggested : EffectSet)
  | unusedEffect (function : String) (effect : Effect)
  | unusedResult (callee : String)
  /-- A result of which one outcome is not handled. -/
  | partiallyHandledResult (callee missing : String)
  | propagationOutsideResult (function returns : String)
  | propagationOnNonResult (found : String)
  | incompatibleErrorType (expected found : String)
  deriving DecidableEq

namespace Finding

/-- The rule that a finding falls under. -/
def rule : Finding → Rule
  | unresolvedModule _ | unexportedImport _ _ | unexportedCall _ _ => .unresolvedImport
  | unresolvedReference _ | missingInModule _ _ | unknownQualifier _ _ => .unresolvedReference
  | duplicateFunction _ _ => .duplicateFunction
  | circularDependency _ => .circularDependency
  | duplicateModule _ _ _ => .duplicateModule
  | ambiguousReference _ _ => .ambiguousReference
  | unknownEffect _ => .unknownEffect
  | pureCallsEffectful _ _ _ | pureDeclaresEffects _ _ => .pureFunctionViolation
  | missingEffect _ _ _ _ => .effectCompleteness
  | unusedEffect _ _ => .effectMinimality
  | unusedResult _ | partiallyHandledResult _ _ => .unusedResult
  | propagationOutsideResult _ _ | propagationOnNonResult _ | incompatibleErrorType _ _ =>
    .errorPropagationMisuse

/-- The sentence that reports a finding. -/
def message : Finding → String
  | unresolvedModule target =>
    s!"cannot resolve import {target}: no module or file with that name"
  | unexportedImport owner name => s!"module `{owner}` does not export `{name}`"
  | unexportedCall owner name => s!"`{name}` is defined in module `{owner}` but not exported"
  | unresolvedReference name => s!"cannot find function `{name}` in this scope"
  | missingInModule owner name => s!"module `{owner}` has no function `{name}`"
  | unknownQualifier qualifier name =>
    s!"cannot resolve `{qualifier}.{name}`: `{qualifier}` is not an imported module"
  | duplicateFunction name first =>
    s!"function `{name}` is already defined on line {first.line.toNat}"
  | circularDependency cycle =>
    "circular dependency: " ++ " -> ".intercalate (cycle.map Path.text)
  | duplicateModule owner name other =>
    s!"module `{owner}` is declared again here and exports `{name}`, which `{other.text}` " ++
      "already defines"
  | ambiguousReference name candidates =>
    s!"`{name}` is ambiguous: it could refer to " ++ " or ".intercalate candidates
  | unknownEffect token => s!"unknown effect `{token}`"
  | pureCallsEffectful function callee effects =>
    s!"pure function `{function}` calls `{callee}`, which requires {effects.text}"
  | pureDeclaresEffects function declared =>
    s!"pure function `{function}` declares effects {declared.text}"
  | missingEffect function effect _ _ =>
    s!"function `{function}` requires effect `{effect.name}` but does not declare it"
  | unusedEffect function effect =>
    s!"function `{function}` declares effect `{effect.name}` but never uses it"
  | unusedResult callee | partiallyHandledResult callee _ =>
    s!"Result of `{callee}` is not handled"
  | propagationOutsideResult function returns =>
    s!"`?` used in `{function}`, which returns `{returns}` rather than a Result"
  | propagationOnNonResult found =>
    s!"`?` applied to a value of type `{found}`, which is not a Result"
  | incompatibleErrorType expected found =>
    s!"`?` cannot convert error type `{found}` into `{expected}`"

/-- The change that is suggested, if there is one. -/
def fix? : Finding → Option String
  | unresolvedModule _ =>
    some "check the module name, or declare it with `module <name>` in the file that provides it"
  | unexportedImport owner name =>
    some s!"add `{name}` to the export list of `{owner}`, or remove it from the import"
  | unexportedCall owner name => some s!"add `{name}` to the export list of `{owner}`"
  | unresolvedReference _ => some "define the function, or import the module that exports it"
  | missingInModule _ _ => none
  | unknownQualifier qualifier _ => some s!"add `import {qualifier}`"
  | duplicateFunction name _ => some s!"rename or remove one of the `{name}` functions"
  | circularDependency _ => none
  | duplicateModule owner _ _ =>
    some (s!"rename one of the modules, or list both files as fragments of `{owner}` in the " ++
      "configuration")
  | ambiguousReference _ _ => some "qualify the call with its module name"
  | unknownEffect _ => none
  | pureCallsEffectful function _ effects =>
    some s!"remove `pure` from `{function}` and declare `uses {effects.text}`"
  | pureDeclaresEffects _ _ => some "remove the `uses` clause or the `pure` marker"
  | missingEffect _ _ _ suggested => some s!"declare `uses {suggested.text}`"
  | unusedEffect _ effect => some s!"remove `{effect.name}` from the uses clause"
  | unusedResult callee | partiallyHandledResult callee _ =>
    some s!"propagate it with `{callee}(..)?` or match on both `Ok` and `Err`"
  | propagationOutsideResult _ _ =>
    some "change the return type to a Result, or match on the value instead"
  | propagationOnNonResult _ => none
  | incompatibleErrorType expected found =>
    some s!"declare `type {expected} from [{found}]`, or map the error first"

/-- What else is said about a finding. -/
def notes : Finding → List String
  | duplicateFunction _ _ => ["this declaration is ignored"]
  | circularDependency _ => ["files on a dependency cycle are excluded from further analysis"]
  | unknownEffect _ => ["known effects: " ++ ", ".intercalate (Effect.all.map Effect.name)]
  | missingEffect _ _ chain _ => [s!"required through {chain}"]
  | partiallyHandledResult _ missing => [s!"the `{missing}` variant is never handled"]
  | _ => []

end Finding

end EffectAudit
