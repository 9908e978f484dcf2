import EffectAudit.Config.Basic
import EffectAudit.Json.Printer
import EffectAudit.Path.Glob
import EffectAudit.Vocabulary.EffectSet
import EffectAudit.Vocabulary.Registry

/-!
# Policies

A policy is a configuration that has been checked: every rule it names exists, its patterns are
patterns, and the effects it wants ignored are effects of the registry. A policy knows of its
patterns only which paths they match; what holds for every policy holds for whatever patterns there
may be.

## Main definitions

* `Policy`: a checked configuration, and the questions that are asked of it
* `ConfigError`: what can be wrong with a configuration
* `Config.resolve`: the policy of a configuration. Rules are looked at in name order, then patterns.
-/

namespace EffectAudit

/-- Why an ignore list is not a list of effects. -/
inductive IgnoreFault where
  | notAList
  | notAName (item : Json)
  | unknownEffect (name : String)

/-- What is wrong with a configuration. -/
inductive ConfigError where
  | unknownRule (name : String)
  | invalidExclude (pattern : String) (error : Glob.ParseError)
  | invalidIgnore (rule : String) (fault : IgnoreFault)

/-- The reason that is given for a fault of an ignore list. -/
def IgnoreFault.message : IgnoreFault → String
  | notAList => "expected a list of effect names"
  | notAName item => "expected an effect name, found " ++ item.compact
  | unknownEffect name => s!"unknown effect `{name}`"

/-- The sentence that reports an error. -/
def ConfigError.message : ConfigError → String
  | unknownRule name => s!"unknown rule `{name}` in configuration"
  | invalidExclude pattern error => s!"invalid exclude pattern `{pattern}`: {error.message}"
  | invalidIgnore rule fault =>
    s!"invalid parameter `ignore` for rule `{rule}`: {fault.message}"

/-- A configuration that has been checked. -/
structure Policy where
  rules : List (Rule × RuleSettings) := []
  /-- Tests of paths; the files whose paths pass one report nothing. -/
  exclude : List (Path → Bool) := []
  threshold : Severity := .error
  fragments : OrderedMap String (List Path) := ∅
  /-- Declared effects that need not be used. -/
  ignored : EffectSet := ∅

instance : Inhabited Policy := ⟨{}⟩

namespace Policy

/-- Whether a file reports nothing. -/
def isExcluded (p : Policy) (path : Path) : Bool := p.exclude.any (· path)

/-- The settings of a rule, if there are any. -/
def settings? (p : Policy) (r : Rule) : Option RuleSettings :=
  (p.rules.find? (·.1 == r)).map (·.2)

/-- Whether findings of a rule are reported. -/
def isEnabled (p : Policy) (r : Rule) : Bool := ((p.settings? r).map (·.enabled)).getD true

/-- The severity of findings of a rule. -/
def severityFor (p : Policy) (r : Rule) : Severity :=
  ((p.settings? r).bind (·.level)).getD r.defaultSeverity

/-- Whether two files are both listed as fragments of a module. -/
def areFragments (p : Policy) (moduleName : String) (a b : FileKey) : Bool :=
  match p.fragments.get? moduleName with
  | some files => files.any (·.key == a) && files.any (·.key == b)
  | none => false

end Policy

/-- The effects of an ignore list. -/
def RuleSettings.ignoredEffects (s : RuleSettings) (registry : Registry) :
    Except IgnoreFault EffectSet :=
  match Json.member? "ignore" s.params with
  | none => .ok ∅
  | some (.array items) =>
    items.foldlM (fun set item =>
      match item with
      | .string name =>
        match registry.effect? name with
        | some e => .ok (set.insert e)
        | none => .error (.unknownEffect name)
      | item => .error (.notAName item)) ∅
  | some _ => .error .notAList

namespace Config

/-- Checks the settings of a rule, and notes the effects to be ignored. -/
def resolveRule (registry : Registry) (p : Policy) (name : String) (s : RuleSettings) :
    Except ConfigError Policy :=
  match Rule.ofName? name with
  | none => .error (.unknownRule name)
  | some rule => do
    let ignored ←
      if rule = .effectMinimality then
        match s.ignoredEffects registry with
        | .ok set => .ok set
        | .error fault => .error (.invalidIgnore name fault)
      else .ok p.ignored
    return { p with rules := p.rules ++ [(rule, s)], ignored }

/-- The test of a pattern. A path is matched as it is spelled. -/
def resolveExclude (pattern : String) : Except ConfigError (Path → Bool) :=
  match Glob.parse pattern with
  | .ok g => .ok fun path => g.matches path.text
  | .error e => .error (.invalidExclude pattern e)

/-- The policy of a configuration. -/
def resolve (c : Config) (registry : Registry) : Except ConfigError Policy := do
  let p ← c.rules.entries.foldlM (fun p (name, s) => resolveRule registry p name s)
    { threshold := c.threshold, fragments := c.fragments }
  return { p with exclude := ← c.exclude.mapM resolveExclude }

end Config

end EffectAudit
