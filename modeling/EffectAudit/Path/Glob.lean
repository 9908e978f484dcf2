import EffectAudit.Path.Basic

/-!
# File patterns

A pattern is matched against a path as it is spelled. `?` stands for one character, `*` for any
number of characters, slashes included, and `[...]` for one character of a class. `**` has to be a
whole component and stands for any number of whole directories; at the end it stands for anything.

## Main definitions

* `Glob`, `Glob.partsMatch`: the patterns, and the texts that they match
* `Glob.matches`: the same, decided for all ends of a text at once
* `Glob.ParseError`: what can be wrong with the text of a pattern, and where
* `Glob.parse`: the pattern of a text

## Main results

* `Glob.matches_eq_partsMatch`: both ways of matching agree
-/

namespace EffectAudit

/-- A part of a character class. -/
inductive CharRange where
  | single (c : Char)
  | span (first last : Char)
  deriving DecidableEq

/-- Whether a character is in a part of a class. -/
def CharRange.contains (r : CharRange) (c : Char) : Bool :=
  match r with
  | single a => c == a
  | span a b => a ≤ c && c ≤ b

/-- The parts that the inside of a class stands for: `a-c` is a range, anything else itself. -/
def CharRange.ofChars : List Char → List CharRange
  | a :: '-' :: b :: rest => .span a b :: ofChars rest
  | a :: rest => .single a :: ofChars rest
  | [] => []

/-- One part of a pattern. -/
inductive Glob.Part where
  | char (c : Char)
  | anyChar
  | within (ranges : List CharRange)
  | except (ranges : List CharRange)
  /-- Any number of characters. -/
  | anySequence
  /-- Any number of whole directories; at the end, anything. -/
  | anyDirectories
  deriving DecidableEq

/-- A pattern. -/
structure Glob where
  parts : List Glob.Part
  deriving DecidableEq

namespace Glob

/-- Whether a part that stands for one character stands for this one. -/
def Part.admits (p : Part) (c : Char) : Bool :=
  match p with
  | char d => c == d
  | anyChar => true
  | within ranges => ranges.any (·.contains c)
  | except ranges => !ranges.any (·.contains c)
  | anySequence => false
  | anyDirectories => false

/-- The ends of a text, longest first: the text itself, and so on to the empty one. -/
def tails : List Char → List (List Char)
  | [] => [[]]
  | c :: cs => (c :: cs) :: tails cs

/-- The ends of a text that follow a slash. -/
def slashTails : List Char → List (List Char)
  | [] => []
  | c :: cs => if c = '/' then cs :: slashTails cs else slashTails cs

/-- Whether a sequence of parts matches a whole text. -/
def partsMatch : List Part → List Char → Bool
  | [], text => text.isEmpty
  | .anySequence :: parts, text => (tails text).any (partsMatch parts)
  | .anyDirectories :: parts, text =>
    partsMatch parts text || (slashTails text).any (partsMatch parts) || partsMatch parts []
  | _ :: _, [] => false
  | part :: parts, c :: text => part.admits c && partsMatch parts text

/-! ## Matching in rows

A row holds, for each end of a text from the longest on, whether some parts match it. The row of a
pattern follows from that of the pattern without its first part, so that each part is looked at
once for each end. -/

/-- The row of `*` before parts with the given row: some end of the end matches. -/
def sequenceRow : List Bool → List Bool
  | [] => []
  | b :: row =>
    let rest := sequenceRow row
    (b || rest.headD false) :: rest

/-- For each end of the text, whether an end of it that follows a slash is in the row, or the empty
one is. -/
def slashRow : List Char → List Bool → List Bool
  | c :: text, _ :: row =>
    let rest := slashRow text row
    ((c == '/' && row.headD false) || rest.headD false) :: rest
  | _, row => row

/-- The row of a part that stands for one character before parts with the given row. -/
def charRow (part : Part) : List Char → List Bool → List Bool
  | c :: text, _ :: row => (part.admits c && row.headD false) :: charRow part text row
  | _, _ => [false]

/-- The row of a part before parts with the given row. -/
def Part.row (part : Part) (text : List Char) (row : List Bool) : List Bool :=
  match part with
  | anySequence => sequenceRow row
  | anyDirectories => List.zipWith (· || ·) row (slashRow text row)
  | part => charRow part text row

/-- The row of a pattern. -/
def matchRow : List Part → List Char → List Bool
  | [], text => (tails text).map List.isEmpty
  | part :: parts, text => part.row text (matchRow parts text)

/-- Whether a pattern matches a text. -/
def «matches» (g : Glob) (text : String) : Bool := (matchRow g.parts text.toList).headD false

theorem headD_map_tails (f : List Char → Bool) (text : List Char) :
    ((tails text).map f).headD false = f text := by
  cases text <;> rfl

theorem sequenceRow_map_tails (f : List Char → Bool) (text : List Char) :
    sequenceRow ((tails text).map f) = (tails text).map fun s => (tails s).any f := by
  induction text with
  | nil => simp [tails, sequenceRow]
  | cons c text ih =>
    simp only [tails, List.map_cons, sequenceRow, ih, headD_map_tails, List.any_cons]

theorem slashRow_map_tails (f : List Char → Bool) (text : List Char) :
    slashRow text ((tails text).map f)
      = (tails text).map fun s => (slashTails s).any f || f [] := by
  induction text with
  | nil => simp [tails, slashRow, slashTails]
  | cons c text ih =>
    simp only [tails, List.map_cons, slashRow, ih, headD_map_tails, List.cons.injEq, and_true]
    by_cases h : c = '/' <;> simp [slashTails, h, Bool.or_assoc]

theorem charRow_map_tails (part : Part) (f : List Char → Bool) (text : List Char) :
    charRow part text ((tails text).map f) = (tails text).map fun s =>
      match s with
      | [] => false
      | c :: s => part.admits c && f s := by
  induction text with
  | nil => rfl
  | cons c text ih => simp only [tails, List.map_cons, charRow, ih, headD_map_tails]

/-- A row holds what the parts match, end by end. -/
theorem matchRow_eq_map_tails (parts : List Part) (text : List Char) :
    matchRow parts text = (tails text).map (partsMatch parts) := by
  induction parts with
  | nil =>
    unfold matchRow
    exact List.map_congr_left fun s _ => by cases s <;> rfl
  | cons part parts ih =>
    rw [matchRow, ih]
    cases part with
    | anySequence =>
      rw [Part.row, sequenceRow_map_tails]
      exact List.map_congr_left fun s _ => by cases s <;> rw [partsMatch]
    | anyDirectories =>
      rw [Part.row, slashRow_map_tails, List.zipWith_map, List.zipWith_self]
      exact List.map_congr_left fun s _ => by cases s <;> rw [partsMatch, Bool.or_assoc]
    | char | anyChar | within | except =>
      rw [Part.row, charRow_map_tails]
      · exact List.map_congr_left fun s _ => by cases s <;> simp [partsMatch]
      all_goals simp

theorem matches_eq_partsMatch (g : Glob) (text : String) :
    g.matches text = partsMatch g.parts text.toList := by
  rw [«matches», matchRow_eq_map_tails, headD_map_tails]

/-! ## Reading a pattern -/

/-- What can be wrong with a pattern. -/
inductive Fault where
  /-- More than two stars in a row. -/
  | starRun
  /-- Two stars that are not a whole component. -/
  | partialComponent
  /-- A class that is not closed, or is empty. -/
  | badClass
  deriving DecidableEq

/-- A fault, and the number of characters before the place it is reported at. -/
structure ParseError where
  fault : Fault
  position : Nat
  deriving DecidableEq

/-- The text of a fault. -/
def Fault.message : Fault → String
  | starRun => "wildcards are either regular `*` or recursive `**`"
  | partialComponent => "recursive wildcards must form a single path component"
  | badClass => "invalid range pattern"

/-- The text of an error. -/
def ParseError.message (e : ParseError) : String :=
  s!"Pattern syntax error near position {e.position}: {e.fault.message}"

/-- Where the reading of a pattern stands. -/
inductive Reading.Mode where
  | plain
  /-- After the given number of stars, one or two. -/
  | stars (count : Nat)
  /-- Directly after the opening bracket at the given position. -/
  | opened (start : Nat)
  /-- Inside a class, before its first character. -/
  | first (start : Nat) (negated : Bool)
  /-- Inside a class, with the characters so far, last one first. -/
  | inside (start : Nat) (negated : Bool) (read : List Char)

/-- The state of reading a pattern. -/
structure Reading where
  mode : Reading.Mode := .plain
  /-- The number of characters read. -/
  position : Nat := 0
  /-- Whether a component starts where the current run of stars does, or here. -/
  atStart : Bool := true
  /-- The parts so far, last one first. -/
  parts : List Part := []

namespace Reading

/-- Adds `**`; directly after another one it is left out, unless that one opens the pattern. -/
def pushDirectories (parts : List Part) : List Part :=
  if 1 < parts.length ∧ parts.head? = some .anyDirectories then parts
  else .anyDirectories :: parts

/-- Reads a character outside of runs of stars and classes. -/
def plain (r : Reading) (c : Char) : Reading :=
  let next := { r with position := r.position + 1, mode := .plain, atStart := c == '/' }
  if c = '?' then { next with parts := .anyChar :: r.parts }
  else if c = '*' then { next with mode := .stars 1, atStart := r.atStart }
  else if c = '[' then { next with mode := .opened r.position }
  else { next with parts := .char c :: r.parts }

/-- Closes a class. -/
def close (r : Reading) (negated : Bool) (read : List Char) : Reading :=
  let ranges := CharRange.ofChars read.reverse
  { mode := .plain
    position := r.position + 1
    atStart := false
    parts := (if negated then .except ranges else .within ranges) :: r.parts }

/-- Reads one character. -/
def step (r : Reading) (c : Char) : Except ParseError Reading :=
  match r.mode with
  | .plain => .ok (r.plain c)
  | .stars 1 =>
    if c = '*' then .ok { r with mode := .stars 2, position := r.position + 1 }
    else .ok (({ r with parts := .anySequence :: r.parts, atStart := false } : Reading).plain c)
  | .stars _ =>
    if c = '*' then .error ⟨.starRun, r.position⟩
    else if !r.atStart then .error ⟨.partialComponent, r.position - 3⟩
    else if c = '/' then
      .ok { mode := .plain, position := r.position + 1, atStart := true,
            parts := pushDirectories r.parts }
    else .error ⟨.partialComponent, r.position⟩
  | .opened start =>
    if c = '!' then .ok { r with mode := .first start true, position := r.position + 1 }
    else .ok { r with mode := .inside start false [c], position := r.position + 1 }
  | .first start negated =>
    .ok { r with mode := .inside start negated [c], position := r.position + 1 }
  | .inside start negated read =>
    if c = ']' then .ok (r.close negated read)
    else .ok { r with mode := .inside start negated (c :: read), position := r.position + 1 }

/-- Ends the reading. -/
def finish (r : Reading) : Except ParseError Glob :=
  match r.mode with
  | .plain => .ok ⟨r.parts.reverse⟩
  | .stars 1 => .ok ⟨(.anySequence :: r.parts).reverse⟩
  | .stars _ =>
    if r.atStart then .ok ⟨(pushDirectories r.parts).reverse⟩
    else .error ⟨.partialComponent, r.position - 3⟩
  | .opened start | .first start _ | .inside start _ _ => .error ⟨.badClass, start⟩

end Reading

/-- The pattern of a text. -/
def parse (text : String) : Except ParseError Glob := do
  (← text.toList.foldlM Reading.step {}).finish

end Glob

end EffectAudit
