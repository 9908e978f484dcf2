import EffectAudit.Json.Value

/-!
# Reading JSON text

Reading runs two machines over its input, one character and one token at a time. The first splits
the text into tokens; the second nests the tokens into a value. Either stops at the first thing
the grammar does not allow. A text nested beyond `nestingLimit` levels is read, with the parts too
deep in it unreadable.

## Main definitions

* `NumberLiteral`, `NumberLiteral.value?`: the parts of a number token, and the number it stands for
* `StringUnit.decode?`: the characters a string token stands for
* `Lexer.step`, `Nesting.step`: the two machines
* `Json.read?`, `Json.readUnlimited?`: the value of a text
-/

namespace EffectAudit.Json

/-! ## Numbers -/

/-- The parts of a number token. -/
structure NumberLiteral where
  negative : Bool
  integer : List Nat
  /-- Digits after the point, if it is there. -/
  fraction : Option (List Nat)
  /-- Whether the exponent is negative, and its digits, if it is there. -/
  exponent : Option (Bool × List Nat)

namespace NumberLiteral

/-- The value of a decimal digit. -/
def digitValue (c : Char) : Nat := c.toNat - '0'.toNat

/-- The digits at the front of a text, at least one, and the rest. -/
def digits? (cs : List Char) : Option (List Nat × List Char) :=
  match cs.span Char.isDigit with
  | ([], _) => none
  | (ds, rest) => some (ds.map digitValue, rest)

/-- The parts of a number token. An integer part of several digits does not start with zero. -/
def ofChars? (cs : List Char) : Option NumberLiteral := do
  let (negative, cs) := match cs with
    | '-' :: rest => (true, rest)
    | _ => (false, cs)
  let (integer, cs) ← digits? cs
  if integer.head? = some 0 ∧ 1 < integer.length then none
  let (fraction, cs) ← match cs with
    | '.' :: rest => (digits? rest).map fun (ds, rest) => (some ds, rest)
    | _ => some (none, cs)
  let (exponent, cs) ← match cs with
    | 'e' :: rest | 'E' :: rest =>
      let (down, rest) := match rest with
        | '-' :: rest => (true, rest)
        | '+' :: rest => (false, rest)
        | _ => (false, rest)
      (digits? rest).map fun (ds, rest) => (some (down, ds), rest)
    | _ => some (none, cs)
  if cs.isEmpty then some { negative, integer, fraction, exponent } else none

/-- Appends digits to a significand as long as it stays below `2 ^ 64`, and gives the digits that
are left over. -/
def appendDigits : Nat → List Nat → Nat × List Nat
  | significand, [] => (significand, [])
  | significand, d :: ds =>
    if significand * 10 + d < UInt64.size then appendDigits (significand * 10 + d) ds
    else (significand, d :: ds)

/-- The floating-point number `± significand · 10 ^ exponent`. -/
def float? (negative : Bool) (significand : Nat) (exponent : Int) : Option Number :=
  (Binary64.ofScaled? significand exponent).map fun x => .float (x.withSign negative)

/-- The number with the given significand and scale, after its exponent part. Exponents of more
than 31 bits give zero or leave the range. -/
def scaled? (negative : Bool) (significand : Nat) (scale : Int) :
    Option (Bool × List Nat) → Option Number
  | none => float? negative significand scale
  | some (down, ds) =>
    let exponent : Nat := ds.foldl (fun n d => n * 10 + d) 0
    if exponent < Nat.pow 2 31 then
      float? negative significand (if down then scale - exponent else scale + exponent)
    else if significand ≠ 0 ∧ !down then none
    else float? negative 0 0

/-- The number that a token stands for, if it is in range. An integer is kept exactly if it fits in
64 bits, with minus zero a floating-point number. Digits that no longer fit into a significand of
64 bits are dropped. -/
def value? (l : NumberLiteral) : Option Number :=
  let (significand, rest) := appendDigits 0 l.integer
  match l.fraction, l.exponent, rest with
  | none, none, [] =>
    if !l.negative then some (.int significand)
    else if significand = 0 ∨ Nat.pow 2 63 < significand then float? true significand 0
    else some (.int (-significand))
  | fraction, exponent, rest =>
    let ds := fraction.getD []
    let (significand, dropped) := appendDigits significand ds
    scaled? l.negative significand (rest.length - (ds.length - dropped.length : Nat)) exponent

end NumberLiteral

/-! ## Strings -/

/-- One unit of a string token: a character, or the code of a `\u` escape. -/
inductive StringUnit where
  | char (c : Char)
  | code (n : Nat)

namespace StringUnit

/-- Whether a code is the first half of a surrogate pair. -/
def isHigh (n : Nat) : Bool := 0xD800 ≤ n && n < 0xDC00

/-- Whether a code is the second half of a surrogate pair. -/
def isLow (n : Nat) : Bool := 0xDC00 ≤ n && n < 0xE000

/-- The character of a surrogate pair. -/
def paired (high low : Nat) : Char :=
  Char.ofNat (0x10000 + (high - 0xD800) * 0x400 + (low - 0xDC00))

/-- The characters that the units stand for; nothing if half a surrogate pair stands alone. -/
def decode? : List StringUnit → Option (List Char)
  | [] => some []
  | .char c :: rest => (decode? rest).map (c :: ·)
  | .code high :: .code low :: rest =>
    if isHigh high && isLow low then (decode? rest).map (paired high low :: ·)
    else if isHigh high || isLow high then none
    else (decode? (.code low :: rest)).map (Char.ofNat high :: ·)
  | .code n :: rest =>
    if isHigh n || isLow n then none else (decode? rest).map (Char.ofNat n :: ·)

end StringUnit

/-! ## Tokens -/

/-- A token of JSON text. -/
inductive Token where
  | openArray
  | closeArray
  | openObject
  | closeObject
  | comma
  | colon
  /-- A word or a number. -/
  | scalar (value : Json)
  /-- A string, if it stands for characters. -/
  | text (value : Option String)

/-- Where the splitting of a text into tokens stands. -/
inductive Lexer.Mode where
  | between
  | word (read : List Char)
  | number (read : List Char)
  | text (read : List StringUnit)
  | escape (read : List StringUnit)
  | code (read : List StringUnit) (missing : Nat) (value : Nat)

/-- The state of the splitting: the mode, and the tokens so far, last one first. -/
structure Lexer where
  mode : Lexer.Mode
  tokens : List Token

namespace Lexer

/-- The value of a hexadecimal digit. -/
def hexValue? (c : Char) : Option Nat :=
  if c.isDigit then some (c.toNat - '0'.toNat)
  else if 'a' ≤ c ∧ c ≤ 'f' then some (c.toNat - 'a'.toNat + 10)
  else if 'A' ≤ c ∧ c ≤ 'F' then some (c.toNat - 'A'.toNat + 10)
  else none

/-- The value of a word. -/
def word? (letters : List Char) : Option Json :=
  match String.ofList letters with
  | "null" => some .null
  | "true" => some (.bool true)
  | "false" => some (.bool false)
  | _ => none

/-- Ends a word or a number; a string has to be closed by its own quote. -/
def flush? (l : Lexer) : Option (List Token) :=
  match l.mode with
  | .between => some l.tokens
  | .word read => (word? read.reverse).map fun value => .scalar value :: l.tokens
  | .number read =>
    (NumberLiteral.ofChars? read.reverse).map fun literal =>
      .scalar (literal.value?.elim .unreadable .number) :: l.tokens
  | _ => none

/-- Whether a character can continue a number token. -/
def continuesNumber (c : Char) : Bool := c.isDigit || c ∈ ['-', '+', '.', 'e', 'E']

/-- Reads a character that stands between tokens. -/
def start? (tokens : List Token) (c : Char) : Option Lexer :=
  if c ∈ [' ', '\t', '\n', '\r'] then some ⟨.between, tokens⟩
  else if c = '"' then some ⟨.text [], tokens⟩
  else if c.isLower then some ⟨.word [c], tokens⟩
  else if c.isDigit || c = '-' then some ⟨.number [c], tokens⟩
  else if c = '[' then some ⟨.between, .openArray :: tokens⟩
  else if c = ']' then some ⟨.between, .closeArray :: tokens⟩
  else if c = '\x7b' then some ⟨.between, .openObject :: tokens⟩
  else if c = '\x7d' then some ⟨.between, .closeObject :: tokens⟩
  else if c = ',' then some ⟨.between, .comma :: tokens⟩
  else if c = ':' then some ⟨.between, .colon :: tokens⟩
  else none

/-- The character that a one-letter escape stands for. -/
def escape? (c : Char) : Option Char :=
  if c ∈ ['"', '\\', '/'] then some c
  else if c = 'b' then some '\x08'
  else if c = 'f' then some '\x0c'
  else if c = 'n' then some '\n'
  else if c = 'r' then some '\r'
  else if c = 't' then some '\t'
  else none

/-- Reads one character. -/
def step (l : Lexer) (c : Char) : Option Lexer :=
  match l.mode with
  | .between => start? l.tokens c
  | .word read =>
    if c.isLower then some { l with mode := .word (c :: read) }
    else do start? (← l.flush?) c
  | .number read =>
    if continuesNumber c then some { l with mode := .number (c :: read) }
    else do start? (← l.flush?) c
  | .text read =>
    if c = '"' then
      let value := (StringUnit.decode? read.reverse).map String.ofList
      some ⟨.between, .text value :: l.tokens⟩
    else if c = '\\' then some { l with mode := .escape read }
    else if c.toNat < 0x20 then none
    else some { l with mode := .text (.char c :: read) }
  | .escape read =>
    if c = 'u' then some { l with mode := .code read 3 0 }
    else (escape? c).map fun e => { l with mode := .text (.char e :: read) }
  | .code read missing value => do
    let value := value * 16 + (← hexValue? c)
    match missing with
    | 0 => some { l with mode := .text (.code value :: read) }
    | missing + 1 => some { l with mode := .code read missing value }

end Lexer

/-- The tokens of a text. -/
def tokens? (text : String) : Option (List Token) := do
  let l ← text.toList.foldlM Lexer.step ⟨.between, []⟩
  return (← l.flush?).reverse

/-! ## Nesting -/

/-- An unfinished container, with what it holds so far, last one first. -/
inductive Nesting.Frame where
  | array (items : List Json)
  | object (members : List (Option String × Json)) (key : Option String)

/-- What may come next. -/
inductive Nesting.Expect where
  | value
  | firstItem
  | firstKey
  | key
  | colon
  | separator
  deriving DecidableEq

/-- The state of the nesting: unfinished containers, innermost first, or the value. -/
inductive Nesting where
  | reading (expect : Nesting.Expect) (frames : List Nesting.Frame)
  | done (value : Json)

namespace Nesting

/-- An object of the given members; unreadable if one of its keys is. -/
def objectOf (members : List (Option String × Json)) : Json :=
  match members.mapM (fun (key, value) => key.map (·, value)) with
  | some members => .object members
  | none => .unreadable

/-- Hands a finished value to the innermost container. -/
def deliver (value : Json) : List Frame → Nesting
  | [] => .done value
  | .array items :: outer => .reading .separator (.array (value :: items) :: outer)
  | .object members key :: outer =>
    .reading .separator (.object ((key, value) :: members) none :: outer)

/-- Reads one token. -/
def step (n : Nesting) (t : Token) : Option Nesting :=
  match n, t with
  | .reading expect frames, t =>
    match expect, t, frames with
    | .value, .scalar v, _ | .firstItem, .scalar v, _ => some (deliver v frames)
    | .value, .text v, _ | .firstItem, .text v, _ =>
      some (deliver (v.elim .unreadable .string) frames)
    | .value, .openArray, _ | .firstItem, .openArray, _ =>
      some (.reading .firstItem (.array [] :: frames))
    | .value, .openObject, _ | .firstItem, .openObject, _ =>
      some (.reading .firstKey (.object [] none :: frames))
    | .firstItem, .closeArray, .array items :: outer
    | .separator, .closeArray, .array items :: outer =>
      some (deliver (.array items.reverse) outer)
    | .firstKey, .closeObject, .object members _ :: outer
    | .separator, .closeObject, .object members _ :: outer =>
      some (deliver (objectOf members.reverse) outer)
    | .firstKey, .text key, .object members _ :: outer
    | .key, .text key, .object members _ :: outer =>
      some (.reading .colon (.object members key :: outer))
    | .colon, .colon, _ => some (.reading .value frames)
    | .separator, .comma, .array _ :: _ => some (.reading .value frames)
    | .separator, .comma, .object _ _ :: _ => some (.reading .key frames)
    | _, _, _ => none
  | .done _, _ => none

end Nesting

/-- The greatest number of containers nested in one another in a text. -/
def nestingLimit : Nat := 127

/-- The value of a text of any depth, if the text follows the grammar. -/
def readUnlimited? (text : String) : Option Json := do
  let tokens ← tokens? text
  match ← tokens.foldlM Nesting.step (.reading .value []) with
  | .done value => some value
  | .reading _ _ => none

/-- The value of a text, if the text follows the grammar. -/
def read? (text : String) : Option Json := (readUnlimited? text).map (limited nestingLimit)

end EffectAudit.Json
