import EffectAudit.Json.Value

/-!
# Reading records and alternatives

A record is an object whose unknown members are ignored, or an array of its fields in order with
trailing ones left out. An alternative is the name of its case, or an object whose only member is
the case with its content. A field that occurs twice is refused, and so is anything of a wrong kind.

## Main definitions

* `Json.string?`, `Json.word32?`, `Json.int64?`, `Json.binary64?`: scalars of a given kind
* `Json.record?`: the fields of a record
* `Json.tagged?`: the case of an alternative and its content
* `Json.required?`, `Json.orDefault?`, `Json.optional?`: how a field may be left out
-/

namespace EffectAudit.Json

/-- The text, if the value is a string. -/
def string? : Json → Option String
  | .string s => some s
  | _ => none

/-- The truth value, if the value is one. -/
def bool? : Json → Option Bool
  | .bool b => some b
  | _ => none

/-- The items, if the value is an array. -/
def list? : Json → Option (List Json)
  | .array items => some items
  | _ => none

/-- The integer, if the value is a number without point and exponent. -/
def int? : Json → Option Int
  | .number (.int n) => some n
  | _ => none

/-- The natural number, if the value is one. -/
def nat? (j : Json) : Option Nat := do
  let n ← j.int?
  if 0 ≤ n then some n.toNat else none

/-- The word of 32 bits, if the value is an integer in range. -/
def word32? (j : Json) : Option UInt32 := do
  let n ← j.nat?
  if n < UInt32.size then some (UInt32.ofNat n) else none

/-- The signed word of 64 bits, if the value is an integer in range. -/
def int64? (j : Json) : Option Int64 := do
  let n ← j.int?
  if Int64.minValue.toInt ≤ n ∧ n ≤ Int64.maxValue.toInt then some (Int64.ofInt n) else none

/-- The floating-point number, if the value is a number; integers are rounded. -/
def binary64? : Json → Option Binary64
  | .number (.float x) => some x
  | .number (.int n) => some (Binary64.ofInt n)
  | _ => none

/-- The value of the member with a key. -/
def member? (key : String) (members : List (String × Json)) : Option Json :=
  (members.find? (·.1 == key)).map (·.2)

/-- The fields of a record, by the order of their names; a field that is left out is none.
`byPosition` says whether an array may stand for the record. -/
def record? (byPosition : Bool) (names : List String) : Json → Option (List (Option Json))
  | .object members =>
    if names.all fun n => (members.filter (·.1 == n)).length ≤ 1 then
      some (names.map (member? · members))
    else none
  | .array items =>
    if byPosition ∧ items.length ≤ names.length then
      some (items.map some ++ List.replicate (names.length - items.length) none)
    else none
  | _ => none

/-- The case of an alternative, and its content if it is written with one. -/
def tagged? : Json → Option (String × Option Json)
  | .string tag => some (tag, none)
  | .object [(tag, content)] => some (tag, some content)
  | _ => none

/-- The case of an alternative that has no content; a written content has to be `null`. -/
def plainTag? (j : Json) : Option String :=
  match j.tagged? with
  | some (tag, none) => some tag
  | some (tag, some .null) => some tag
  | _ => none

/-- Reads every item of an array. -/
def listOf? {α : Type} (read : Json → Option α) (j : Json) : Option (List α) := do
  (← j.list?).mapM read

/-- Reads a field that has to be there. -/
def required? {α : Type} (read : Json → Option α) (field : Option Json) : Option α := do
  read (← field)

/-- Reads a field that has a default. -/
def orDefault? {α : Type} (default : α) (read : Json → Option α) : Option Json → Option α
  | none => some default
  | some j => read j

/-- Reads a field that may be left out or `null`. -/
def optional? {α : Type} (read : Json → Option α) : Option Json → Option (Option α)
  | none => some none
  | some .null => some none
  | some j => (read j).map some

end EffectAudit.Json
