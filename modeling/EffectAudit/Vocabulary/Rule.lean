import EffectAudit.Vocabulary.Effect

/-!
# Rules

Every finding is reported under one of twelve rules. A rule fixes the name under which a finding
is printed, its category, the severity it has unless a configuration says otherwise, and whether
it stops further work on the file or function that it is about.

## Main definitions

* `Severity`, `Severity.ofText?`: how serious a finding is, and the texts accepted for it
* `Rule`, `Rule.all`: the rules, in the order in which findings at one place are listed
-/

namespace EffectAudit

/-- How serious a finding is. -/
inductive Severity where
  | info
  | warning
  | error
  deriving DecidableEq

namespace Severity

/-- The printed name of a severity. -/
def name : Severity → String
  | info => "info"
  | warning => "warning"
  | error => "error"

/-- The position in ascending order. -/
def rank : Severity → Nat
  | info => 0
  | warning => 1
  | error => 2

/-- The severity a text names, in any mix of ASCII letter case. -/
def ofText? (text : String) : Option Severity :=
  match text.map Char.toLower with
  | "error" => some error
  | "warning" => some warning
  | "warn" => some warning
  | "info" => some info
  | _ => none

/-- What is said about a text that names no severity. -/
def unknownMessage (text : String) : String :=
  s!"unknown severity '{text.map Char.toLower}' (expected error, warning or info)"

end Severity

/-- The part of the language that a rule is about. -/
inductive Category where
  | effectSystem
  | resultType
  | moduleSystem
  deriving DecidableEq

/-- The printed name of a category. -/
def Category.name : Category → String
  | effectSystem => "effect-system"
  | resultType => "result-type"
  | moduleSystem => "module-system"

/-- A rule under which findings are reported. -/
inductive Rule where
  | unresolvedImport
  | unresolvedReference
  | circularDependency
  | duplicateModule
  | duplicateFunction
  | ambiguousReference
  | unknownEffect
  | pureFunctionViolation
  | effectCompleteness
  | effectMinimality
  | unusedResult
  | errorPropagationMisuse
  deriving DecidableEq

namespace Rule

/-- Every rule, in vocabulary order. -/
def all : List Rule :=
  [unresolvedImport, unresolvedReference, circularDependency, duplicateModule, duplicateFunction,
    ambiguousReference, unknownEffect, pureFunctionViolation, effectCompleteness, effectMinimality,
    unusedResult, errorPropagationMisuse]

/-- The position in vocabulary order. -/
def rank : Rule → Nat
  | unresolvedImport => 0
  | unresolvedReference => 1
  | circularDependency => 2
  | duplicateModule => 3
  | duplicateFunction => 4
  | ambiguousReference => 5
  | unknownEffect => 6
  | pureFunctionViolation => 7
  | effectCompleteness => 8
  | effectMinimality => 9
  | unusedResult => 10
  | errorPropagationMisuse => 11

/-- The description of a rule. -/
def item : Rule → Item
  | unresolvedImport =>
    { name := "UnresolvedImportError"
      description := "An import names a module or file that does not exist, or a symbol the " ++
        "module does not export." }
  | unresolvedReference =>
    { name := "UnresolvedReferenceError"
      description := "A call names a function or module qualifier that is not visible from the " ++
        "calling file." }
  | circularDependency =>
    { name := "CircularDependencyError"
      description := "Files import each other in a cycle; every file on the cycle is excluded " ++
        "from further analysis." }
  | duplicateModule =>
    { name := "DuplicateModuleError"
      description := "Two files declare the same module and export the same name with different " ++
        "definitions." }
  | duplicateFunction =>
    { name := "DuplicateFunctionError"
      description := "A file declares two functions with the same name; only the first is bound " ++
        "and verified." }
  | ambiguousReference =>
    { name := "AmbiguousReferenceError"
      description := "An unqualified call matches names exposed by more than one import; " ++
        "qualify the call." }
  | unknownEffect =>
    { name := "UnknownEffectError"
      description := "A `uses [...]` clause names an effect outside the engine's effect registry." }
  | pureFunctionViolation =>
    { name := "PureFunctionViolationError"
      description := "A function marked `pure` performs (or calls something that performs) an " ++
        "effect, or declares effects." }
  | effectCompleteness =>
    { name := "EffectCompletenessError"
      description := "A function requires an effect it does not declare in its `uses [...]` " ++
        "clause." }
  | effectMinimality =>
    { name := "EffectMinimalityWarning"
      description := "A function declares an effect that nothing in its body requires." }
  | unusedResult =>
    { name := "UnusedResultError"
      description := "A Result-typed call is neither propagated with `?` nor handled on both " ++
        "its Ok and Err variants." }
  | errorPropagationMisuse =>
    { name := "ErrorPropagationMisuseError"
      description := "The `?` operator is used outside a Result-returning function, on a " ++
        "non-Result value, or with an error type that does not convert to the function's error " ++
        "type." }

/-- The name under which findings of a rule are printed. -/
def name (r : Rule) : String := r.item.name

/-- The rule a name stands for. -/
def ofName? (name : String) : Option Rule := all.find? (·.item.spelledBy name)

/-- The part of the language that a rule is about. -/
def category : Rule → Category
  | unresolvedImport | unresolvedReference | circularDependency | duplicateModule
  | duplicateFunction | ambiguousReference => .moduleSystem
  | unknownEffect | pureFunctionViolation | effectCompleteness | effectMinimality => .effectSystem
  | unusedResult | errorPropagationMisuse => .resultType

/-- The severity of a finding unless a configuration says otherwise. -/
def defaultSeverity : Rule → Severity
  | effectMinimality => .warning
  | _ => .error

/-- Whether a finding stops further work on the file or function that it is about. -/
def isFatal : Rule → Bool
  | effectMinimality => false
  | _ => true

end Rule

end EffectAudit
