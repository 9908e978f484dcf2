import EffectAudit.Diagnostic.Label
import EffectAudit.Syntax.Line
import Mathlib.Data.List.DropRight

/-!
# Labels and lines

The lines of a text with their endings put together give the text, and every line but the last ends
with a line feed. A label and the text of its line are taken from the same line; the one is without
all line feeds and carriage returns at its end, the other without its line ending. Since a label is
counted off in whole characters, its ends never fall inside one.

## Main definitions

* `Text.IsLine`: a line of a text, with what stands before and behind it

## Main results

* `Text.isLine_of_terminatedLines`: the lines that a text is split into are its lines
* `Text.sliceFrom_byteLength_take`: where a text can be cut
* `Label.inLine_eq`, `Label.searchLines_eq`: what the search for bytes finds
* `Label.label_within_line`: labels cover characters of their line
-/

namespace EffectAudit

namespace Text

/-! ## Lines -/

/-- The line of a text with the given number, between what stands before and behind it: the lines
before it are counted by their line feeds; it starts at the start or behind a line feed, and goes on
to the next line feed or to the end. -/
structure IsLine (text : List Char) (number : Nat) (before line behind : List Char) : Prop where
  split : text = before ++ line ++ behind
  number : before.count '\n' + 1 = number
  starts : before = [] ∨ before.getLast? = some '\n'
  nonempty : line ≠ []
  inner : '\n' ∉ line.dropLast
  ends : behind = [] ∨ line.getLast? = some '\n'

theorem flatten_terminatedLines (text : List Char) : (terminatedLines text).flatten = text := by
  fun_induction terminatedLines text with
  | case1 => rfl
  | case2 cs ih => simp [ih]
  | case3 c cs _ line rest hrest ih => simpa [hrest] using ih
  | case4 c cs _ hnil ih => simpa [hnil] using ih

/-- No line is empty, and a line has no line feed before its end. -/
theorem ne_nil_of_mem_terminatedLines {text line : List Char} (h : line ∈ terminatedLines text) :
    line ≠ [] ∧ '\n' ∉ line.dropLast := by
  fun_induction terminatedLines text generalizing line with
  | case1 => exact absurd h List.not_mem_nil
  | case2 cs ih =>
    rcases List.mem_cons.mp h with rfl | h
    · simp
    · exact ih h
  | case3 c cs hc first rest hrest ih =>
    rw [hrest] at ih
    rcases List.mem_cons.mp h with rfl | h
    · obtain ⟨hne, hinner⟩ := ih List.mem_cons_self
      rw [List.dropLast_cons_of_ne_nil hne]
      exact ⟨List.cons_ne_nil _ _, by simp [hinner, Ne.symm hc]⟩
    · exact ih (List.mem_cons_of_mem _ h)
  | case4 c cs hc hnil ih =>
    rw [List.mem_singleton.mp h]
    simp

/-- All lines but the last end with a line feed. -/
theorem getLast?_of_mem_dropLast {text line : List Char}
    (h : line ∈ (terminatedLines text).dropLast) : line.getLast? = some '\n' := by
  fun_induction terminatedLines text generalizing line with
  | case1 => exact absurd h List.not_mem_nil
  | case2 cs ih =>
    cases hrest : terminatedLines cs with
    | nil =>
      rw [hrest] at h
      exact absurd h List.not_mem_nil
    | cons first rest =>
      rw [hrest] at h ih
      rcases List.mem_cons.mp h with rfl | h
      · rfl
      · exact ih h
  | case3 c cs hc first rest hrest ih =>
    have hmem : first ∈ terminatedLines cs := hrest ▸ List.mem_cons_self
    have hfirst : first ≠ [] := (ne_nil_of_mem_terminatedLines hmem).1
    rw [hrest] at ih
    cases rest with
    | nil => exact absurd h List.not_mem_nil
    | cons second rest =>
      rcases List.mem_cons.mp h with rfl | h
      · rw [List.getLast?_cons_of_ne_nil hfirst]
        exact ih List.mem_cons_self
      · exact ih (List.mem_cons_of_mem _ h)
  | case4 c cs hc hnil ih => exact absurd h List.not_mem_nil

/-- Lines that end with a line feed are counted by their line feeds, and end with one together. -/
theorem count_flatten {lines : List (List Char)}
    (h : ∀ line ∈ lines, line.getLast? = some '\n' ∧ '\n' ∉ line.dropLast) :
    lines.flatten.count '\n' = lines.length ∧
      (lines.flatten = [] ∨ lines.flatten.getLast? = some '\n') := by
  induction lines with
  | nil => exact ⟨rfl, .inl rfl⟩
  | cons line rest ih =>
    obtain ⟨hends, hinner⟩ := h line List.mem_cons_self
    obtain ⟨hcount, hlast⟩ := ih fun l hl => h l (List.mem_cons_of_mem line hl)
    have hline := List.dropLast_append_getLast? '\n' hends
    refine ⟨?_, .inr ?_⟩
    · rw [List.flatten_cons, List.count_append, hcount, ← hline, List.count_append,
        List.count_eq_zero_of_not_mem hinner]
      simp [Nat.add_comm]
    · rw [List.flatten_cons, List.getLast?_append, hends]
      rcases hlast with hnil | hlast
      · rw [hnil]
        rfl
      · rw [hlast]
        rfl

/-- The lines that a text is split into are its lines. -/
theorem isLine_of_terminatedLines {text line : List Char} {i : Nat}
    (h : (terminatedLines text)[i]? = some line) :
    IsLine text (i + 1) ((terminatedLines text).take i).flatten line
      ((terminatedLines text).drop (i + 1)).flatten := by
  obtain ⟨hi, hline⟩ := List.getElem?_eq_some_iff.mp h
  obtain ⟨hne, hinner⟩ := ne_nil_of_mem_terminatedLines (List.mem_of_getElem? h)
  have hbefore : ∀ l ∈ (terminatedLines text).take i, l.getLast? = some '\n' ∧
      '\n' ∉ l.dropLast := by
    intro l hl
    have hmem : l ∈ (terminatedLines text).dropLast := by
      rw [List.dropLast_eq_take]
      exact (List.take_prefix_take_left (by omega)).subset hl
    exact ⟨getLast?_of_mem_dropLast hmem,
      (ne_nil_of_mem_terminatedLines (List.mem_of_mem_take hl)).2⟩
  obtain ⟨hcount, hstarts⟩ := count_flatten hbefore
  refine ⟨?_, ?_, hstarts, hne, hinner, ?_⟩
  · have hsplit : (terminatedLines text).take i ++ line :: (terminatedLines text).drop (i + 1) =
        terminatedLines text := by
      rw [← hline, ← List.drop_eq_getElem_cons hi, List.take_append_drop]
    have hflat := congrArg List.flatten hsplit
    rw [flatten_terminatedLines, List.flatten_append, List.flatten_cons,
      ← List.append_assoc] at hflat
    exact hflat.symm
  · rw [hcount, List.length_take_of_le (by omega)]
  · by_cases hlast : i + 1 < (terminatedLines text).length
    · have hmem : line ∈ (terminatedLines text).dropLast := by
        rw [List.dropLast_eq_take]
        exact List.mem_take_iff_getElem.mpr ⟨i, by omega, hline⟩
      exact .inr (getLast?_of_mem_dropLast hmem)
    · exact .inl (by rw [List.drop_eq_nil_of_le (by omega)]; rfl)

/-! ## Line endings -/

/-- A line is what is shown of it as text, followed by line feeds and carriage returns. -/
theorem exists_withoutEnding_append (line : List Char) :
    ∃ ending, line = withoutEnding line ++ ending ∧ ∀ c ∈ ending, c = '\n' ∨ c = '\r' := by
  have hreverse := line.reverse_reverse
  unfold withoutEnding
  split
  · rename_i rest hrest
    rw [hrest] at hreverse
    exact ⟨['\r', '\n'], by simpa using hreverse.symm, by simp⟩
  · rename_i rest _ hrest
    rw [hrest] at hreverse
    exact ⟨['\n'], by simpa using hreverse.symm, by simp⟩
  · exact ⟨[], (List.append_nil line).symm, by simp⟩

theorem trimmedEnd_eq_rdropWhile (line : List Char) :
    trimmedEnd line = line.rdropWhile fun c => c = '\n' ∨ c = '\r' := rfl

theorem trimmedEnd_append {line ending : List Char} (h : ∀ c ∈ ending, c = '\n' ∨ c = '\r') :
    trimmedEnd (line ++ ending) = trimmedEnd line := by
  induction ending using List.reverseRecOn with
  | nil => rw [List.append_nil]
  | append_singleton ending c ih =>
    rw [← List.append_assoc, trimmedEnd_eq_rdropWhile, List.rdropWhile_concat_pos]
    · exact ih fun d hd => h d (List.mem_append_left _ hd)
    · exact decide_eq_true (h c (by simp))

/-- The text of a line and the line itself are the same without what is cut off for labels. -/
theorem trimmedEnd_withoutEnding (line : List Char) :
    trimmedEnd (withoutEnding line) = trimmedEnd line := by
  obtain ⟨ending, hline, hending⟩ := exists_withoutEnding_append line
  conv_rhs => rw [hline]
  exact (trimmedEnd_append hending).symm

/-! ## Bytes -/

theorem byteLength_eq (cs : List Char) : byteLength cs = (String.ofList cs).utf8ByteSize := by
  induction cs with
  | nil => rfl
  | cons c cs ih =>
    rw [byteLength, ih, ← List.singleton_append, String.ofList_append, String.utf8ByteSize_append,
      ← String.singleton_eq_ofList, String.utf8ByteSize_singleton]

theorem byteLength_append (cs ds : List Char) :
    byteLength (cs ++ ds) = byteLength cs + byteLength ds := by
  simp [byteLength_eq]

/-- The byte at which a character starts is the length of what stands before it; behind the last
character this is the length of the text. -/
theorem getD_byteOfChar? (text : List Char) (index : Nat) :
    (byteOfChar? text index).getD (byteLength text) = byteLength (text.take index) := by
  have h : ∀ start, (((charIndices start text)[index]?).map (·.1)).getD (start + byteLength text) =
      start + byteLength (text.take index) := by
    induction text generalizing index with
    | nil => simp [charIndices, byteLength]
    | cons c cs ih =>
      intro start
      cases index with
      | zero => simp [charIndices, byteLength]
      | succ index =>
        have hrest := ih index (start + c.utf8Size)
        simpa only [charIndices, byteLength, List.getElem?_cons_succ, List.take_succ_cons,
          Nat.add_assoc] using hrest
  simpa only [byteOfChar?, Nat.zero_add] using h 0

/-- A text can be cut before any of its characters and at its end. -/
theorem sliceFrom_byteLength_take (text : List Char) (index : Nat) :
    sliceFrom text (byteLength (text.take index)) = .ok (text.drop index) := by
  induction text generalizing index with
  | nil => rw [List.take_nil, List.drop_nil, byteLength, sliceFrom]
  | cons c cs ih =>
    cases index with
    | zero => rw [List.take_zero, List.drop_zero, byteLength, sliceFrom]
    | succ index =>
      have hpos := c.utf8Size_pos
      obtain ⟨offset, hoffset⟩ := Nat.exists_eq_add_of_lt hpos
      have hsucc : byteLength ((c :: cs).take (index + 1)) =
          offset + byteLength (cs.take index) + 1 := by
        rw [List.take_succ_cons, byteLength]
        omega
      have hrest : offset + byteLength (cs.take index) + 1 - c.utf8Size =
          byteLength (cs.take index) := by omega
      rw [hsucc, sliceFrom, if_neg (by omega), hrest, ih]
      rfl

end Text

/-! ## Labels -/

theorem SourceUnit.lineText?_eq_some_iff (u : SourceUnit) (text : String) (number : UInt32)
    {shown : String} :
    ({ u with source := some text } : SourceUnit).lineText? number = some shown ↔ number ≠ 0 ∧
      ∃ line, (Text.terminatedLines text.toList)[number.toNat - 1]? = some line ∧
        String.ofList (Text.withoutEnding line) = shown := by
  unfold lineText?
  by_cases hzero : number = 0
  · simp [hzero]
  · simp [hzero, Text.lines]

namespace Label

/-- A label covers characters of a text behind given ones: both its ends are boundaries of
characters inside the text, and its bytes are those of the characters. -/
structure Covers (label : Label) (text : String) (before covered : List Char) : Prop where
  offset : label.offset = (String.ofList before).utf8ByteSize
  length : label.length = (String.ofList covered).utf8ByteSize
  start_valid : (⟨label.offset⟩ : String.Pos.Raw).IsValid text
  end_valid : (⟨label.offset + label.length⟩ : String.Pos.Raw).IsValid text
  end_le : label.offset + label.length ≤ text.utf8ByteSize
  bytes : text.toByteArray.extract label.offset (label.offset + label.length) =
    (String.ofList covered).toByteArray

/-- A label that is counted off in characters covers them. -/
theorem covers_of_split {text : String} {before covered behind : List Char}
    (h : text.toList = before ++ covered ++ behind) :
    Covers ⟨Text.byteLength before, Text.byteLength covered⟩ text before covered := by
  have htext : text = String.ofList before ++ (String.ofList covered ++ String.ofList behind) := by
    rw [← String.ofList_append, ← String.ofList_append, ← List.append_assoc, ← h,
      String.ofList_toList]
  rw [Text.byteLength_eq, Text.byteLength_eq]
  have hend := String.utf8ByteSize_append (s := String.ofList before) (t := String.ofList covered)
  refine ⟨rfl, rfl, ?_, ?_, ?_, ?_⟩
  · exact String.Pos.Raw.isValid_iff_exists_append.mpr ⟨_, _, htext, rfl⟩
  · rw [← String.append_assoc] at htext
    exact String.Pos.Raw.isValid_iff_exists_append.mpr
      ⟨_, _, htext, congrArg String.Pos.Raw.mk hend.symm⟩
  · rw [htext, String.utf8ByteSize_append, String.utf8ByteSize_append]
    dsimp only
    omega
  · rw [htext, String.toByteArray_append, String.toByteArray_append]
    exact (ByteArray.extract_append_size_add (i := 0)).trans (ByteArray.extract_append_eq_left rfl)

/-- The label that is counted off in the characters of a line without its ending. -/
def counted (start : Nat) (cut : List Char) (column length : Nat) : Label :=
  ⟨start + Text.byteLength (cut.take (column - 1)),
    Text.byteLength ((cut.drop (column - 1)).take (max length 1))⟩

/-- The search for bytes in a line never cuts the line inside a character, and finds the label that
is counted off in characters. -/
theorem inLine_eq (start : Nat) (line : List Char) (column length : Nat) :
    inLine start line column length = .ok (counted start (Text.trimmedEnd line) column length) := by
  generalize hcut : Text.trimmedEnd line = cut
  have hsize : Text.byteLength cut = Text.byteLength (cut.take (column - 1)) +
      Text.byteLength (cut.drop (column - 1)) := by
    rw [← Text.byteLength_append, List.take_append_drop]
  have hlast : ((Text.byteOfChar? (cut.drop (column - 1)) (max length 1)).map
        (Text.byteLength (cut.take (column - 1)) + ·)).getD (Text.byteLength cut) =
      Text.byteLength (cut.take (column - 1)) +
        Text.byteLength ((cut.drop (column - 1)).take (max length 1)) := by
    rw [hsize, Option.getD_map, Text.getD_byteOfChar?]
  unfold inLine
  dsimp only
  rw [hcut, Text.getD_byteOfChar?, Text.sliceFrom_byteLength_take]
  refine congrArg Except.ok (congrArg (Label.mk _) ?_)
  rw [hlast, Nat.add_sub_cancel_left]

/-- The search through the lines comes to the line that is `steps` lines ahead, and has counted the
bytes before it by then. -/
theorem searchLines_eq (column length steps index start : Nat) (lines : List (List Char)) :
    searchLines (index + steps) column length index start lines =
      .ok ((lines[steps]?).map fun line =>
        counted (start + Text.byteLength (lines.take steps).flatten) (Text.trimmedEnd line) column
          length) := by
  induction lines generalizing steps index start with
  | nil => rfl
  | cons line rest ih =>
    cases steps with
    | zero =>
      rw [searchLines, if_pos (Nat.add_zero index).symm, inLine_eq]
      rfl
    | succ steps =>
      have hgoal : index + (steps + 1) = index + 1 + steps := by omega
      rw [searchLines, if_neg (by omega), hgoal, ih, List.getElem?_cons_succ, List.take_succ_cons,
        List.flatten_cons, Text.byteLength_append, Nat.add_assoc]

/-- A place has a label if the text has its line, and looking for it never fails. -/
theorem exists_ofSpan_eq (text : String) (span : Span) :
    ∃ found, ofSpan text span = .ok found ∧ ∀ label, found = some label ↔ span.line ≠ 0 ∧
      ∃ line, (Text.terminatedLines text.toList)[span.line.toNat - 1]? = some line ∧
        counted (Text.byteLength
          ((Text.terminatedLines text.toList).take (span.line.toNat - 1)).flatten)
          (Text.trimmedEnd line) span.column.toNat span.length.toNat = label := by
  unfold ofSpan
  by_cases hzero : span.line = 0
  · exact ⟨none, if_pos hzero, by simp [hzero]⟩
  · have hsearch := searchLines_eq span.column.toNat span.length.toNat (span.line.toNat - 1) 0 0
      (Text.terminatedLines text.toList)
    rw [Nat.zero_add, Nat.zero_add] at hsearch
    refine ⟨_, (if_neg hzero).trans hsearch, fun label => ?_⟩
    rw [Option.map_eq_some_iff]
    exact (and_iff_right hzero).symm

/-- A label that is counted off in a line covers characters of the line, and of a text with the line
in it. -/
theorem covers_counted {text : String} {before line behind : List Char}
    (h : text.toList = before ++ line ++ behind) (column length : Nat) :
    let cut := Text.trimmedEnd line
    let skipped := cut.take (column - 1)
    let covered := (cut.drop (column - 1)).take (max length 1)
    let label := counted (Text.byteLength before) cut column length
    label.Covers text (before ++ skipped) covered ∧
      Covers ⟨label.offset - Text.byteLength before, label.length⟩ (String.ofList cut) skipped
        covered := by
  intro cut skipped covered label
  have hcut : cut = skipped ++ covered ++ (cut.drop (column - 1)).drop (max length 1) := by
    rw [List.append_assoc, List.take_append_drop, List.take_append_drop]
  obtain ⟨ending, hline⟩ : cut <+: line := List.rdropWhile_prefix _ line
  constructor
  · have hlabel : label =
        ⟨Text.byteLength (before ++ skipped), Text.byteLength covered⟩ := by
      rw [Text.byteLength_append]
      rfl
    rw [hlabel]
    have hsplit : text.toList = before ++ skipped ++ covered ++
        ((cut.drop (column - 1)).drop (max length 1) ++ ending ++ behind) := by
      rw [h, ← hline]
      conv_lhs => rw [hcut]
      simp only [List.append_assoc]
    exact covers_of_split hsplit
  · have hlabel : label.offset - Text.byteLength before = Text.byteLength skipped :=
      Nat.add_sub_cancel_left _ _
    rw [hlabel]
    exact covers_of_split (by rw [String.toList_ofList]; exact hcut)

/-- **Labels cover characters of their line.** Looking for the label of a place never cuts a text
inside a character or behind its end. A place has a label in a text exactly if the text has its
line. The line without the line feeds and carriage returns at its end is the shown text of the line
without them. The label covers the characters of this part of the line from the column on, where
column zero counts as one, and as many as the length says, where zero counts as one, or fewer where
the line ends. It does so in the text, and counted from the start of the line in this part of the
line. -/
theorem label_within_line (u : SourceUnit) (text : String) (span : Span) :
    let shown? := ({ u with source := some text } : SourceUnit).lineText? span.line
    ∃ found, ofSpan text span = .ok found ∧ found.isSome = shown?.isSome ∧
    ∀ label, found = some label → ∃ shown before line behind,
      shown? = some shown ∧ Text.IsLine text.toList span.line.toNat before line behind ∧
      shown.toList <+: line ∧
      let cut := line.rdropWhile fun c => c = '\n' ∨ c = '\r'
      let first := max span.column.toNat 1 - 1
      let skipped := cut.take first
      let covered := (cut.drop first).take (max span.length.toNat 1)
      shown.toList.rdropWhile (fun c => c = '\n' ∨ c = '\r') = cut ∧
      label.Covers text (before ++ skipped) covered ∧
      Covers ⟨label.offset - (String.ofList before).utf8ByteSize, label.length⟩ (String.ofList cut)
        skipped covered := by
  intro shown?
  obtain ⟨found, hfound, hlabels⟩ := exists_ofSpan_eq text span
  refine ⟨found, hfound, ?_, fun label hlabel => ?_⟩
  · rw [Bool.eq_iff_iff, Option.isSome_iff_exists, Option.isSome_iff_exists]
    constructor
    · rintro ⟨label, hlabel⟩
      obtain ⟨hzero, line, hline, -⟩ := (hlabels label).mp hlabel
      exact ⟨_, (u.lineText?_eq_some_iff text _).mpr ⟨hzero, line, hline, rfl⟩⟩
    · rintro ⟨shown, hshown⟩
      obtain ⟨hzero, line, hline, -⟩ := (u.lineText?_eq_some_iff text _).mp hshown
      exact ⟨_, (hlabels _).mpr ⟨hzero, line, hline, rfl⟩⟩
  · obtain ⟨hzero, line, hline, rfl⟩ := (hlabels label).mp hlabel
    have hisLine := Text.isLine_of_terminatedLines hline
    have hnumber : span.line.toNat - 1 + 1 = span.line.toNat :=
      Nat.sub_add_cancel (Nat.pos_of_ne_zero fun h => hzero (UInt32.toNat_inj.mp h))
    rw [hnumber] at hisLine
    obtain ⟨ending, hending, -⟩ := Text.exists_withoutEnding_append line
    have hcut := Text.trimmedEnd_withoutEnding line
    have hcolumn : max span.column.toNat 1 - 1 = span.column.toNat - 1 := by omega
    refine ⟨_, _, line, _, (u.lineText?_eq_some_iff text _).mpr ⟨hzero, line, hline, rfl⟩, hisLine,
      ?_⟩
    rw [String.toList_ofList, hcolumn, ← Text.byteLength_eq]
    exact ⟨⟨ending, hending.symm⟩, hcut, covers_counted hisLine.split _ _⟩

/-- The second line of a text whose first line ends in two carriage returns before its line feed;
the place starts behind a character of two bytes and is longer than the line. -/
theorem label_behind_wide_character :
    let text := "é\r\r\nßx\r"
    ofSpan text ⟨2, 2, 9⟩ = .ok (some ⟨7, 1⟩) ∧
    ∃ before line behind, Text.IsLine text.toList 2 before line behind ∧
      Covers ⟨7, 1⟩ text (before ++ ['ß']) ['x'] := by
  intro text
  have hlabel : ofSpan text ⟨2, 2, 9⟩ = .ok (some ⟨7, 1⟩) := by decide +kernel
  obtain ⟨found, hfound, -, hcovers⟩ :=
    label_within_line { path := ⟨"a.cdz"⟩ } text ⟨2, 2, 9⟩
  obtain rfl : some ⟨7, 1⟩ = found := Except.ok.inj (hlabel.symm.trans hfound)
  obtain ⟨shown, before, line, behind, hshown, hline, -, hcut, hlabel', -⟩ := hcovers _ rfl
  refine ⟨hlabel, before, line, behind, hline, ?_⟩
  -- the shown text of the line settles what the line is without its ending
  have htext : some shown = some "ßx\r" := hshown.symm.trans (by decide +kernel)
  obtain rfl : shown = "ßx\r" := Option.some.inj htext
  rw [← hcut] at hlabel'
  exact hlabel'

end Label

end EffectAudit
