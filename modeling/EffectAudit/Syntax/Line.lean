import EffectAudit.Syntax.Tree

/-!
# Lines of a source text

A line ends with a line feed, and the text after the last line feed is a line unless it is empty.
A carriage return directly before the line feed belongs to the line ending.

## Main definitions

* `Text.terminatedLines`: the lines of a text with their endings
* `Text.lines`: the lines without their endings
* `SourceUnit.lineText?`: the line with a number
-/

namespace EffectAudit

namespace Text

/-- The lines of a text with the line feeds that end them. -/
def terminatedLines : List Char → List (List Char)
  | [] => []
  | c :: cs =>
    if c = '\n' then [c] :: terminatedLines cs
    else
      match terminatedLines cs with
      | line :: rest => (c :: line) :: rest
      | [] => [[c]]

/-- A line without its line feed and the carriage return before it. -/
def withoutEnding (line : List Char) : List Char :=
  match line.reverse with
  | '\n' :: '\r' :: rest => rest.reverse
  | '\n' :: rest => rest.reverse
  | _ => line

/-- The lines of a text without their endings. -/
def lines (text : List Char) : List (List Char) := (terminatedLines text).map withoutEnding

end Text

/-- The line of a file with the given number, if the file has a text and the text has that line. -/
def SourceUnit.lineText? (u : SourceUnit) (line : UInt32) : Option String := do
  let source ← u.source
  if line = 0 then none
  (Text.lines source.toList)[line.toNat - 1]?.map String.ofList

end EffectAudit
