import EffectAudit.Path.Basic
import EffectAudit.Syntax.Tree
import EffectAudit.Vocabulary.EffectSet
import EffectAudit.Vocabulary.Registry

/-!
# Functions and their signatures

A function is identified by its file and its name, whatever its declaration says otherwise. Its
signature is what the declaration promises to callers.

## Main definitions

* `FunctionRef`: the identity of a function
* `Signature`, `Signature.ofDecl`: what a declaration promises

## Main results

* `FunctionRef.lawfulEqOrd`, `FunctionRef.transOrd`: functions are linearly ordered
-/

namespace EffectAudit

/-- The identity of a function. -/
structure FunctionRef where
  file : FileKey
  name : String
  deriving DecidableEq

namespace FunctionRef

/-- Functions are ordered by file, then by name. -/
instance ord : Ord FunctionRef where
  compare := compareLex (compareOn file) (compareOn name)

instance lawfulEqOrd : Std.LawfulEqOrd FunctionRef where
  compare_self := by
    intro a
    have h : compare a a = (compare a.file a.file).then (compare a.name a.name) := rfl
    rw [h, Ordering.then_eq_eq]
    exact ⟨Std.ReflOrd.compare_self, Std.ReflOrd.compare_self⟩
  eq_of_compare := by
    intro a b h
    have h : (compare a.file b.file).then (compare a.name b.name) = .eq := h
    rw [Ordering.then_eq_eq] at h
    cases a
    cases b
    rw [mk.injEq]
    exact ⟨Std.LawfulEqOrd.eq_of_compare h.1, Std.LawfulEqOrd.eq_of_compare h.2⟩

instance transOrd : Std.TransOrd FunctionRef :=
  inferInstanceAs (Std.TransCmp (compareLex (compareOn file) (compareOn name)))

end FunctionRef

/-- What the declaration of a function promises. -/
structure Signature where
  name : String
  moduleName : String
  /-- The file of the declaration, as it is spelled there. -/
  path : Path
  params : List Param
  returns : Ty
  /-- The effects of the `uses` clause that are in the vocabulary. -/
  declared : EffectSet
  /-- The tokens of the `uses` clause. -/
  tokens : List (Spanned String)
  isPure : Bool
  isExported : Bool
  span : Span
  /-- The place of the `uses` clause, if there is one. -/
  usesSpan : Option Span
  deriving DecidableEq

namespace Signature

/-- The signature of a declaration in a file that counts as part of the given module. -/
def ofDecl (registry : Registry) (moduleName : String) (u : SourceUnit)
    (d : Spanned FunctionDecl) : Signature where
  name := d.node.name
  moduleName
  path := u.path
  params := d.node.params
  returns := d.node.returns
  declared := .ofList (d.node.effects.filterMap fun t => registry.effect? t.node)
  tokens := d.node.effects
  isPure := d.node.isPure
  isExported := u.exportsName d.node.name
  span := d.span
  usesSpan := d.node.effectsSpan

/-- The function that a signature belongs to. -/
def ref (s : Signature) : FunctionRef := ⟨s.path.key, s.name⟩

/-- The name of the function with its module in front. -/
def qualifiedName (s : Signature) : String := s.moduleName ++ "." ++ s.name

/-- The tokens of the `uses` clause that are not in the vocabulary. -/
def unknownTokens (s : Signature) (registry : Registry) : List (Spanned String) :=
  s.tokens.filter fun t => (registry.effect? t.node).isNone

end Signature

end EffectAudit
