import Allman.Proofs.CountedLines
import Allman.Proofs.LiveBuffers
import Allman.Proofs.PrintedParts

/-! What a warning prints of the edit that would put it right. The preview is made from
lines and columns and searches the text for the end of the last line itself, but what it
prints is the edit as it is applied: the lines that it touches behind a minus sign, as
they are, and behind a plus sign, as they will be. -/

namespace Allman

namespace Buffers
variable {buffers : Buffers} {id : Nat} {name text : Bytes}

/-- What is read off a buffer in use is read off its text. -/
theorem Sound.reads_text (sound : buffers.Sound) (held : buffers.Holds id name text) :
    0 < id ∧ buffers.content id = text ∧ buffers.line id = (Lines.ofText text).line ∧
      buffers.position id = (Lines.ofText text).position := by
  obtain ⟨buffer, found, -, rfl⟩ := held
  refine ⟨sound.id_pos found, ?_, ?_, ?_⟩
  · rw [content, found]
    rfl
  · funext number
    rw [line, found, Option.elim_some, sound.lines_eq found]
  · funext offset
    rw [position, found, Option.elim_some, sound.lines_eq found]

private theorem Holds.name_eq (held : buffers.Holds id name text) : buffers.name id = name := by
  obtain ⟨buffer, found, rfl, -⟩ := held
  rw [Buffers.name, found]
  rfl

end Buffers

/-- A preview as it is printed: the lines that go, then those that come. -/
def previewText (colour : Bool) (removed added : List Bytes) : Bytes :=
  ascii "  |\n" ++ removed.flatMap (removedLine colour) ++ added.flatMap (addedLine colour)

def shownLines (removed added : List Bytes) : Styled :=
  Diagnostic.plain (ascii "  |\n") ++ removed.flatMap (FixIt.previewLine .red (ascii "-")) ++
    added.flatMap (FixIt.previewLine .green (ascii "+"))

private theorem render_shownLines (colour : Bool) (removed added : List Bytes) :
    (shownLines removed added).render colour = previewText colour removed added := by
  simp only [shownLines, previewText, Styled.render_append, Styled.render_plain, Styled.render_flatMap,
    FixIt.render_removed, FixIt.render_added]

/-- The lines that hold an edit once it has been applied: what stands before it in its
first line, the text it puts there, and what stands behind it in its last line. -/
def editedLines (text : Bytes) (edit : Edit) : Bytes :=
  slice text (lineStart text edit.start) edit.start ++ edit.replacement ++
    slice text edit.stop (lineEnd text edit.stop)

section Pieces
variable {text : Bytes}

/-- A line that is read loses all the carriage returns at its end. -/
theorem map_trimEnd_splitAt (text : Bytes) : (splitAt Byte.newline text).map (trimEnd Byte.isLineEnd) =
    (text.splitOn Byte.newline).map (·.rdropWhile (· == Byte.carriageReturn)) := by
  rw [← splitAt_eq_splitOn]
  apply List.map_congr_left
  intro piece member
  exact trimEnd_isLineEnd (not_mem_of_mem_splitAt member)

/-- A line that is put in loses one carriage return. -/
theorem textLines_eq (text : Bytes) : textLines text = (text.splitOn Byte.newline).map fun piece =>
    if [Byte.carriageReturn] <:+ piece then piece.dropLast else piece := by
  rw [textLines, splitAt_eq_splitOn]
  apply List.map_congr_left
  intro piece _
  have ends : piece.getLast? = some Byte.carriageReturn ↔ [Byte.carriageReturn] <:+ piece := by
    rw [List.getLast?_eq_some_iff, List.IsSuffix]
    simp only [eq_comm]
  simp only [ends]

end Pieces

section Preview
variable {buffers : Buffers} {id : Nat} {name text : Bytes} {edit : Edit} {message : Bytes}

/-- Applying an edit changes the lines that hold it. -/
theorem applyEdits_lines (fits : edit.Fits text.length 0) : (applyEdits text [edit]).text =
    text.take (lineStart text edit.start) ++ editedLines text edit ++ text.drop (lineEnd text edit.stop) := by
  obtain ⟨applied, -⟩ := @applyEdits_of_ordered text [edit] ⟨fits, trivial⟩
  have before : slice text 0 edit.start =
      text.take (lineStart text edit.start) ++ slice text (lineStart text edit.start) edit.start := by
    rw [take_append_slice _ (lineStart_le _ _)]
    rfl
  have behind := slice_append_drop text (le_lineEnd text edit.stop)
  rw [applied, Edit.splice, Edit.splice, before, ← behind]
  simp only [editedLines, List.append_assoc]

/-- Where both ends of an edit lie in the text, nothing wraps: the column leads back from
the offset, and the edit is put between what stands before and behind it. -/
theorem FixIt.after?_of_within {fixIt : FixIt} (start : fixIt.extent.start.Within text)
    (stop : fixIt.extent.stop.Within text) (sized : text.length < Word.size) :
    let first := fixIt.extent.start
    let last := fixIt.extent.stop
    fixIt.after? text = some (slice text (first.offset - (first.column - 1)) first.offset ++ fixIt.replacement ++
      slice text last.offset ((nextNewline? text last.offset).getD text.length)) := by
  intro first last
  have inside : first.offset ≤ text.length := start.offset
  have positive : 1 ≤ first.column := start.column.1
  have back : first.column - 1 ≤ first.offset := start.column.2
  have reached : last.offset ≤ text.length := stop.offset
  have column : Word.sub first.column 1 = first.column - 1 := by
    rw [← Nat.sub_add_cancel positive]
    exact Word.sub_one (by omega)
  have lineStart : Word.sub first.offset (first.column - 1) = first.offset - (first.column - 1) :=
    Word.sub_of_le (by omega) back
  have length : Word.sub first.offset (first.offset - (first.column - 1)) =
      first.offset - (first.offset - (first.column - 1)) := Word.sub_of_le (by omega) (Nat.sub_le _ _)
  have reach : ¬ (decide (text.length < first.offset - (first.column - 1)) ||
      decide (text.length < last.offset)) = true := by
    simp only [Bool.or_eq_true, decide_eq_true_eq]
    omega
  simp only [first, last] at column lineStart length reach ⊢
  simp only [FixIt.after?, column, lineStart, length, if_neg reach]
  rfl

/-- The columns lead back to the start of the line, and the search for a newline to the
end of it. -/
theorem FixIt.after?_eq (fits : edit.Fits text.length 0) (sized : text.length < Word.size) :
    FixIt.after? text ⟨⟨id, (Lines.ofText text).position edit.start, (Lines.ofText text).position edit.stop⟩,
      edit.replacement, message⟩ = some (editedLines text edit) := by
  obtain ⟨forward, inside, -⟩ := fits
  have line := lineStart_le text edit.start
  have back : edit.start - (edit.start - lineStart text edit.start) = lineStart text edit.start := by omega
  rw [FixIt.after?_of_within (Lines.position_within _ _) (Lines.position_within _ _) sized]
  simp only [position_eq (Nat.le_trans forward inside), position_eq inside, Nat.add_sub_cancel, back, lineEnd_eq inside]
  rfl

/-- The preview of an edit in a buffer in use. -/
theorem FixIt.preview?_eq (sound : buffers.Sound) (held : buffers.Holds id name text) (sized : text.length < Word.size)
    (fits : edit.Fits text.length 0) (message : Bytes) :
    FixIt.preview? buffers ⟨buffers.extent id edit.start edit.stop, edit.replacement, message⟩ =
      some (shownLines (((slice text (lineStart text edit.start) (lineEnd text edit.stop)).splitOn Byte.newline).map
        (·.rdropWhile (· == Byte.carriageReturn))) (textLines (editedLines text edit))) := by
  obtain ⟨positive, content, line, position⟩ := sound.reads_text held
  obtain ⟨ordered, lines⟩ := lines_between fits.1 fits.2.1
  have placed : ¬ (decide (id = 0) || decide (((Lines.ofText text).position edit.start).line = 0)) = true := by
    rw [position_eq (Nat.le_trans fits.1 fits.2.1)]
    simpa using Nat.ne_of_gt positive
  rw [← map_trimEnd_splitAt, ← lines]
  simp only [FixIt.preview?, content, FixIt.after?_eq fits sized, Buffers.extent, position, line,
    Nat.max_eq_left ordered, if_neg placed, Option.map_some, shownLines, List.flatMap_map]

end Preview

section Printing
variable {buffers : Buffers} {diagnostic : Diagnostic}

/-- Printing a diagnostic that can be shown in full. -/
theorem Log.emit_eq (complete : (diagnostic.layout buffers).complete = true) (log : Log) :
    log.emit buffers diagnostic =
      .ok { log.print ((if log.warnings = 0 then [] else [Byte.newline]) ++
          (diagnostic.layout buffers).pieces.render (log.colour == .always)) with warnings := log.warnings + 1 } :=
  if_pos complete

/-- The edits of a diagnostic are printed last. -/
theorem Log.exists_emit_fixIts
    (complete : (Diagnostic.layoutFixIts buffers diagnostic.fixIts).complete = true) (log : Log) :
    ∃ front after, log.emit buffers diagnostic = .ok after ∧ after.output = log.output ++ front ++
      (Diagnostic.layoutFixIts buffers diagnostic.fixIts).pieces.render (log.colour == .always) := by
  obtain ⟨front, layout⟩ : ∃ front : Styled, (diagnostic.layout buffers).pieces =
      front ++ (Diagnostic.layoutFixIts buffers diagnostic.fixIts).pieces := ⟨_, rfl⟩
  refine ⟨(if log.warnings = 0 then [] else [Byte.newline]) ++ front.render (log.colour == .always), _,
    emit_eq complete log, ?_⟩
  simp only [print, layout, Styled.render_append, List.append_assoc]

end Printing

/-- The edit for a violation in a buffer in use is always printed, at the end of its
warning: a line of advice with the place of the edit, then the preview, in colour or
without it. The lines behind a minus sign are those of the text from the one that holds
the start of the edit to the one that holds its end, as the buffer reads them. The lines
behind a plus sign are those of a text which, put in their place, gives the text with the
edit applied. The length of a text is a word, so the offsets and columns that the preview
is made from never wrap. -/
theorem preview_shows_edit {buffers : Buffers} {id : Nat} {name text : Bytes} (sound : buffers.Sound)
    (held : buffers.Holds id name text) (sized : text.length < Word.size) (violation : Violation)
    (forward : violation.start ≤ violation.stop) (inside : violation.stop ≤ text.length) (skipped : Bool) :
    let first := lineStart text violation.start
    let last := lineEnd text violation.stop
    let start := buffers.position id violation.start
    let diagnostic := violation.toDiagnostic buffers id skipped
    let edits := Diagnostic.layoutFixIts buffers diagnostic.fixIts
    ∃ removed added after,
      edits.complete = true ∧
      (∀ colour, edits.pieces.render colour =
        adviceLead colour .help ++ violation.rule.advice ++
          (ascii " (" ++ name ++ ascii ":" ++ decimal start.line ++ ascii ":" ++ decimal start.column ++ ascii ")") ++
          ascii "\n" ++ previewText colour removed added) ∧
      (∀ log : Log, ∃ front printed, log.emit buffers diagnostic = .ok printed ∧
        printed.output = log.output ++ front ++ edits.pieces.render (log.colour == .always)) ∧
      removed = ((slice text first last).splitOn Byte.newline).map (·.rdropWhile (· == Byte.carriageReturn)) ∧
      removed = (List.range' start.line removed.length).map (buffers.line id) ∧
      added = textLines after ∧
      added = ((after.splitOn Byte.newline).map fun piece =>
        if [Byte.carriageReturn] <:+ piece then piece.dropLast else piece) ∧
      text.take first ++ after ++ text.drop last = (applyEdits text [violation.toEdit]).text := by
  intro first last start diagnostic edits
  have fits : violation.toEdit.Fits text.length 0 := ⟨forward, inside, Nat.zero_le _⟩
  obtain ⟨positive, -, line, position⟩ := sound.reads_text held
  obtain ⟨-, lines⟩ := lines_between forward inside
  rw [map_trimEnd_splitAt] at lines
  let fixIt : FixIt :=
    ⟨buffers.extent id violation.toEdit.start violation.toEdit.stop, violation.toEdit.replacement, violation.rule.advice⟩
  let removed := ((slice text first last).splitOn Byte.newline).map (·.rdropWhile (· == Byte.carriageReturn))
  let after := editedLines text violation.toEdit
  have preview : fixIt.preview? buffers = _ := FixIt.preview?_eq sound held sized fits violation.rule.advice
  have layout : edits = ⟨fixIt.heading buffers ++ shownLines removed (textLines after), true⟩ := by
    change Diagnostic.layoutFixIts buffers [fixIt] = _
    simp only [Diagnostic.layoutFixIts, preview, List.append_nil]
    rfl
  have complete : edits.complete = true := by rw [layout]
  refine ⟨removed, textLines after, after, complete, ?_, Log.exists_emit_fixIts complete, rfl, ?_, rfl,
    textLines_eq after, (applyEdits_lines fits).symm⟩
  · intro colour
    have advice : violation.rule.advice.isEmpty = false := by cases violation.rule <;> rfl
    rw [layout, Styled.render_append, render_shownLines, FixIt.render_heading]
    simp only [fixIt, Buffers.extent, advice, Bool.false_eq_true, if_false, if_neg (Nat.ne_of_gt positive), held.name_eq]
    rfl
  · have numbered := lines.symm
    rw [← line, ← position] at numbered
    rw [show removed = _ from numbered, List.length_map, List.length_range']

theorem preview_shows_moved_star :
    let text := ascii "int x;\r\nint* p;\r\n"
    let buffers := (({} : Buffers).add (.ofText (ascii "a.c") text)).2
    let violation : Violation := { start := 11, stop := 13, suggested := ascii " *" }
    let edits := Diagnostic.layoutFixIts buffers (violation.toDiagnostic buffers 1 false).fixIts
    buffers.Sound ∧ buffers.Holds 1 (ascii "a.c") text ∧ text.length < Word.size ∧
      violation.start ≤ violation.stop ∧ violation.stop ≤ text.length ∧
      edits.pieces.render false =
        ascii "  = help: attach '*' to the name (a.c:2:4)\n  |\n  | - int* p;\n  | + int *p;\n" ∧
      edits.pieces.render true =
        ascii "  \x1b[2m=\x1b[0m \x1b[1m\x1b[32mhelp\x1b[0m: attach '*' to the name (a.c:2:4)\n  |\n" ++
          ascii "  | \x1b[31m- int* p;\x1b[0m\n  | \x1b[32m+ int *p;\x1b[0m\n" ∧
      (applyEdits text [violation.toEdit]).text = ascii "int x;\r\nint *p;\r\n" := by
  intro text buffers violation edits
  have sound : buffers.Sound := Buffers.Sound.initial.add rfl
  have held : buffers.Holds 1 (ascii "a.c") text := ⟨.ofText (ascii "a.c") text, rfl, rfl, rfl⟩
  have sized : text.length < Word.size := by decide
  obtain ⟨removed, added, after, -, printed, -, lines, -, -, lines', applied⟩ :=
    preview_shows_edit sound held sized violation (by decide) (by decide) false
  have result : (applyEdits text [violation.toEdit]).text = ascii "int x;\r\nint *p;\r\n" := by decide
  -- The text put in is what stands in the result between the parts that stay.
  obtain rfl : after = ascii "int *p;\r" := by
    have split : ascii "int x;\r\n" ++ after ++ ascii "\n" = ascii "int x;\r\n" ++ ascii "int *p;\r" ++ ascii "\n" :=
      applied.trans result
    exact List.append_cancel_left (List.append_cancel_right split)
  obtain rfl : removed = [ascii "int* p;"] := lines.trans (by decide)
  obtain rfl : added = [ascii "int *p;"] := lines'.trans (by decide)
  refine ⟨sound, held, sized, by decide, by decide, ?_, ?_, result⟩
  · exact (printed false).trans (by decide)
  · exact (printed true).trans (by decide)

end Allman
