import EffectAudit.Diagnostic.Basic

/-!
# Labels in a source text

For a report that shows the source text, the place of a diagnostic is given in bytes of the UTF-8
encoding of that text. A label stays inside its line, without the line ending, and covers at least
one character where the line has one left. Texts are cut at bytes, which fails inside a character.

## Main definitions

* `Text.sliceFrom`: a text from a byte on
* `Label.ofSpan`: the bytes that a place covers
* `Diagnostic.help?`: the fix and the notes as one text
* `Severity.reportName`: the name of a severity in such reports
-/

namespace EffectAudit

/-- A stretch of bytes in a text. -/
structure Label where
  offset : Nat
  length : Nat
  deriving DecidableEq

/-- A text was to be cut at a byte where no character of it starts. -/
structure BadSlice where
  offset : Nat
  deriving DecidableEq

namespace Text

/-- The number of bytes of a text. -/
def byteLength : List Char → Nat
  | [] => 0
  | c :: cs => c.utf8Size + byteLength cs

/-- The characters of a text, each with the byte at which it starts, where the text starts at
`start`. -/
def charIndices (start : Nat) : List Char → List (Nat × Char)
  | [] => []
  | c :: cs => (start, c) :: charIndices (start + c.utf8Size) cs

/-- The byte at which the character with the given index starts. -/
def byteOfChar? (text : List Char) (index : Nat) : Option Nat :=
  ((charIndices 0 text)[index]?).map (·.1)

/-- The text from a byte on, which must be its end or the start of a character. -/
def sliceFrom : List Char → Nat → Except BadSlice (List Char)
  | text, 0 => .ok text
  | [], offset + 1 => .error ⟨offset + 1⟩
  | c :: cs, offset + 1 =>
    if offset + 1 < c.utf8Size then .error ⟨offset + 1⟩
    else (sliceFrom cs (offset + 1 - c.utf8Size)).mapError fun e => ⟨e.offset + c.utf8Size⟩

/-- A line without the line feeds and carriage returns at its end. -/
def trimmedEnd (line : List Char) : List Char :=
  (line.reverse.dropWhile fun c => c = '\n' ∨ c = '\r').reverse

end Text

namespace Label

/-- The bytes that a column and a length cover in a line that starts at a byte. Columns and lengths
are counted in characters, and what they point to behind the end of the line is cut off there. -/
def inLine (start : Nat) (line : List Char) (column length : Nat) : Except BadSlice Label := do
  let shown := Text.trimmedEnd line
  let size := Text.byteLength shown
  let first := (Text.byteOfChar? shown (column - 1)).getD size
  let rest ← Text.sliceFrom shown first
  let last := ((Text.byteOfChar? rest (max length 1)).map (first + ·)).getD size
  return ⟨start + first, last - first⟩

/-- Looks for the line with the given index, where `index` and `start` are those of the first of the
lines that are left. -/
def searchLines (goal column length : Nat) :
    Nat → Nat → List (List Char) → Except BadSlice (Option Label)
  | _, _, [] => return none
  | index, start, line :: rest =>
    if index = goal then return some (← inLine start line column length)
    else searchLines goal column length (index + 1) (start + Text.byteLength line) rest

/-- The bytes that a place covers in a text, if the text has its line. -/
def ofSpan (text : String) (span : Span) : Except BadSlice (Option Label) :=
  if span.line = 0 then return none
  else
    searchLines (span.line.toNat - 1) span.column.toNat span.length.toNat 0 0
      (Text.terminatedLines text.toList)

end Label

/-- The fix and the notes of a diagnostic as lines of one text, if there are any. -/
def Diagnostic.help? (d : Diagnostic) : Option String :=
  let lines := d.fix?.toList ++ d.notes.map ("note: " ++ ·)
  if lines.isEmpty then none else some ("\n".intercalate lines)

/-- The name of a severity in reports that show the source text. -/
def Severity.reportName : Severity → String
  | .error => "error"
  | .warning => "warning"
  | .info => "advice"

end EffectAudit
