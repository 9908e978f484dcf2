import EffectAudit.Number.Decimal

/-!
# JSON values

The tree of a JSON document. Members of an object stand in the order of the text and may repeat a
key, so that a reader of records can refuse repeated fields; `canonical` gives the value proper.

A token may follow the grammar and still stand for no value: a number beyond the range of floating
point, a string with half a surrogate pair, a container nested too deeply. Such a part is
`unreadable`. Whoever needs the value has to refuse it; whoever skips the part may skip it.

## Main definitions

* `Json`, `Json.Number`: the values
* `Json.depth`, `Json.limited`: nesting, and the value with what nests too deeply made unreadable
* `Json.canonical`: every object sorted by key, with the last of repeated members
-/

namespace EffectAudit

/-- A JSON number: an integer that fits in 64 bits, or a floating-point number. -/
inductive Json.Number where
  | int (value : Int)
  | float (value : Binary64)
  deriving DecidableEq

/-- A JSON value. -/
inductive Json where
  | null
  | bool (value : Bool)
  | number (value : Json.Number)
  | string (value : String)
  | array (items : List Json)
  | object (members : List (String × Json))
  /-- A part that follows the grammar but stands for no value. -/
  | unreadable

namespace Json

instance : Inhabited Json := ⟨null⟩

/-- A natural number as a value. -/
def nat (n : Nat) : Json := .number (.int n)

/-- A list of texts as a value. -/
def strings (texts : List String) : Json := .array (texts.map .string)

/-- An optional value, with `null` for none. -/
def orNull (value : Option Json) : Json := value.getD .null

mutual

/-- The number of containers nested in one another. -/
def depth : Json → Nat
  | .array items => itemsDepth items + 1
  | .object members => membersDepth members + 1
  | _ => 0

/-- The greatest depth among items. -/
def itemsDepth : List Json → Nat
  | [] => 0
  | item :: rest => max item.depth (itemsDepth rest)

/-- The greatest depth among the values of members. -/
def membersDepth : List (String × Json) → Nat
  | [] => 0
  | (_, value) :: rest => max value.depth (membersDepth rest)

end

mutual

/-- The value with every container beyond the given number of levels made unreadable. -/
def limited : Nat → Json → Json
  | 0, .array _ => .unreadable
  | levels + 1, .array items => .array (itemsLimited levels items)
  | 0, .object _ => .unreadable
  | levels + 1, .object members => .object (membersLimited levels members)
  | _, scalar => scalar

/-- Limits the depth of every item. -/
def itemsLimited : Nat → List Json → List Json
  | _, [] => []
  | levels, item :: rest => limited levels item :: itemsLimited levels rest

/-- Limits the depth of the value of every member. -/
def membersLimited : Nat → List (String × Json) → List (String × Json)
  | _, [] => []
  | levels, (key, value) :: rest => (key, limited levels value) :: membersLimited levels rest

end

mutual

/-- Whether no part of the value is unreadable. -/
def isReadable : Json → Bool
  | .unreadable => false
  | .array items => itemsReadable items
  | .object members => membersReadable members
  | _ => true

/-- Whether every item is readable. -/
def itemsReadable : List Json → Bool
  | [] => true
  | item :: rest => item.isReadable && itemsReadable rest

/-- Whether the value of every member is readable. -/
def membersReadable : List (String × Json) → Bool
  | [] => true
  | (_, value) :: rest => value.isReadable && membersReadable rest

end

/-- Puts a member into a list sorted by key, in place of one with the same key. -/
def insertMember (key : String) (value : Json) : List (String × Json) → List (String × Json)
  | [] => [(key, value)]
  | (k, v) :: rest =>
    match compare key k with
    | .lt => (key, value) :: (k, v) :: rest
    | .eq => (key, value) :: rest
    | .gt => (k, v) :: insertMember key value rest

/-- The members sorted by key, with the last of those that repeat a key. -/
def sortMembers (members : List (String × Json)) : List (String × Json) :=
  members.foldl (fun sorted m => insertMember m.1 m.2 sorted) []

mutual

/-- The value with every object sorted by key and without repeated keys. -/
def canonical : Json → Json
  | .array items => .array (itemsCanonical items)
  | .object members => .object (sortMembers (membersCanonical members))
  | scalar => scalar

/-- The canonical forms of items. -/
def itemsCanonical : List Json → List Json
  | [] => []
  | item :: rest => item.canonical :: itemsCanonical rest

/-- Members with the canonical forms of their values. -/
def membersCanonical : List (String × Json) → List (String × Json)
  | [] => []
  | (key, value) :: rest => (key, value.canonical) :: membersCanonical rest

end

end Json

end EffectAudit
