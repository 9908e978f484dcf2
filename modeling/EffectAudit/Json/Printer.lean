import EffectAudit.Json.Value

/-!
# JSON text

A value is written either on one line without blanks, or over several lines with an indent of two
blanks a level. Inside strings only the quote, the backslash and the control characters below the
blank are escaped; all other characters stand for themselves.

## Main definitions

* `Json.quoted`: the text of a string
* `Json.compact`: the text of a value on one line
* `Json.pretty`: the text of a value over several lines
-/

namespace EffectAudit.Json

/-- The escape of a character inside a string, or the character itself. -/
def escaped (c : Char) : String :=
  if c = '"' then "\\\""
  else if c = '\\' then "\\\\"
  else if c = '\n' then "\\n"
  else if c = '\r' then "\\r"
  else if c = '\t' then "\\t"
  else if c = '\x08' then "\\b"
  else if c = '\x0c' then "\\f"
  else if c.toNat < 0x20 then
    let digits := Nat.toDigits 16 c.toNat
    "\\u" ++ String.ofList (List.replicate (4 - digits.length) '0' ++ digits)
  else String.singleton c

/-- The text of a string, in quotes. -/
def quoted (text : String) : String :=
  text.toList.foldl (fun out c => out ++ escaped c) "\"" ++ "\""

/-- The text of a number. -/
def Number.text : Number → String
  | .int n => toString n
  | .float x => x.text

mutual

/-- The text of a value on one line, without blanks. -/
def compact : Json → String
  | .null => "null"
  | .bool true => "true"
  | .bool false => "false"
  | .number n => n.text
  | .string s => quoted s
  | .array items => "[" ++ ",".intercalate (itemsCompact items) ++ "]"
  | .object members => "\x7b" ++ ",".intercalate (membersCompact members) ++ "\x7d"
  | .unreadable => "null"

/-- The one-line texts of items. -/
def itemsCompact : List Json → List String
  | [] => []
  | item :: rest => item.compact :: itemsCompact rest

/-- The one-line texts of members. -/
def membersCompact : List (String × Json) → List String
  | [] => []
  | (key, value) :: rest => (quoted key ++ ":" ++ value.compact) :: membersCompact rest

end

/-- A line break followed by two blanks a level. -/
def lineBreak (level : Nat) : String := "\n" ++ String.ofList (List.replicate (2 * level) ' ')

/-- Entries between brackets, each on a line of its own; nothing between them if there are none. -/
def bracketed (opening closing : String) (level : Nat) (entries : List String) : String :=
  if entries.isEmpty then opening ++ closing
  else
    opening ++ lineBreak (level + 1) ++ ("," ++ lineBreak (level + 1)).intercalate entries
      ++ lineBreak level ++ closing

mutual

/-- The text of a value that starts at an indentation level. -/
def prettyAt (level : Nat) : Json → String
  | .array items => bracketed "[" "]" level (itemsPretty (level + 1) items)
  | .object members => bracketed "\x7b" "\x7d" level (membersPretty (level + 1) members)
  | scalar => scalar.compact

/-- The texts of items at an indentation level. -/
def itemsPretty (level : Nat) : List Json → List String
  | [] => []
  | item :: rest => prettyAt level item :: itemsPretty level rest

/-- The texts of members at an indentation level. -/
def membersPretty (level : Nat) : List (String × Json) → List String
  | [] => []
  | (key, value) :: rest =>
    (quoted key ++ ": " ++ prettyAt level value) :: membersPretty level rest

end

/-- The text of a value over several lines. -/
def pretty (value : Json) : String := prettyAt 0 value

end EffectAudit.Json
