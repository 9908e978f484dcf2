/-!
# Types

The types that the language writes down: names, applied names, and the unit type. A `Result` is the
applied name `Result` with exactly two arguments.

## Main definitions

* `Ty`, with decidable equality and an order: names, then applied names, then the unit type
* `Ty.text`: the printed form
* `Ty.result?`: the two argument types of a `Result`
-/

namespace EffectAudit

/-- A type of the language. -/
inductive Ty where
  | named (name : String)
  | generic (name : String) (args : List Ty)
  | unit

namespace Ty

instance : Inhabited Ty := ⟨unit⟩

mutual

/-- Equality of types is decidable. -/
def decEq : (a b : Ty) → Decidable (a = b)
  | named m, named n =>
    if h : m = n then isTrue (h ▸ rfl) else isFalse fun e => h (named.inj e)
  | generic m as, generic n bs =>
    match decEqList as bs with
    | isTrue has =>
      if h : m = n then isTrue (h ▸ has ▸ rfl) else isFalse fun e => h (generic.inj e).1
    | isFalse has => isFalse fun e => has (generic.inj e).2
  | unit, unit => isTrue rfl
  | named _, generic _ _ => isFalse nofun
  | named _, unit => isFalse nofun
  | generic _ _, named _ => isFalse nofun
  | generic _ _, unit => isFalse nofun
  | unit, named _ => isFalse nofun
  | unit, generic _ _ => isFalse nofun

/-- Equality of lists of types is decidable. -/
def decEqList : (as bs : List Ty) → Decidable (as = bs)
  | [], [] => isTrue rfl
  | a :: as, b :: bs =>
    match decEq a b, decEqList as bs with
    | isTrue h, isTrue hs => isTrue (h ▸ hs ▸ rfl)
    | isFalse h, _ => isFalse fun e => h (List.cons.inj e).1
    | _, isFalse hs => isFalse fun e => hs (List.cons.inj e).2
  | [], _ :: _ => isFalse nofun
  | _ :: _, [] => isFalse nofun

end

instance : DecidableEq Ty := decEq

mutual

/-- The printed form of a type. -/
def text : Ty → String
  | named name => name
  | generic name args => name ++ "<" ++ ", ".intercalate (argTexts args) ++ ">"
  | unit => "()"

/-- The printed forms of types. -/
def argTexts : List Ty → List String
  | [] => []
  | arg :: args => arg.text :: argTexts args

end

mutual

/-- The order of types: names before applied names before the unit type, then part by part. -/
def order : Ty → Ty → Ordering
  | named m, named n => compare m n
  | named _, _ => .lt
  | _, named _ => .gt
  | generic m as, generic n bs => (compare m n).then (argOrder as bs)
  | generic _ _, unit => .lt
  | unit, generic _ _ => .gt
  | unit, unit => .eq

/-- The order of lists of types; a shorter list that agrees comes first. -/
def argOrder : List Ty → List Ty → Ordering
  | [], [] => .eq
  | [], _ :: _ => .lt
  | _ :: _, [] => .gt
  | a :: as, b :: bs => (order a b).then (argOrder as bs)

end

instance : Ord Ty := ⟨order⟩

/-- The type of results with the given value and error types. -/
def result (ok err : Ty) : Ty := generic "Result" [ok, err]

/-- The value type and the error type, if the type is a `Result`. -/
def result? : Ty → Option (Ty × Ty)
  | generic "Result" [ok, err] => some (ok, err)
  | _ => none

/-- Whether the type is a `Result`. -/
def isResult (t : Ty) : Bool := t.result?.isSome

@[simp]
theorem result?_result (ok err : Ty) : (result ok err).result? = some (ok, err) := rfl

end Ty

end EffectAudit
