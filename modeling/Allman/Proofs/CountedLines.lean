import Mathlib.Data.List.DropRight
import Allman.Proofs.NumberedLines

/-! Lines and columns as one counts them by hand. The index keeps the offsets at which
lines start and searches them, but what it answers is a plain count: a line number
counts the newlines before an offset, a column the bytes since the last of them, and a
line is a piece of the text between two newlines. A byte is found again in its line at
its column, unless it belongs to the line break. -/

namespace Allman

/-- From an offset on, its line holds nothing but the line break that ends it. -/
def AtLineEnd (text : Bytes) (offset : Nat) : Prop :=
  ∀ c ∈ (text.drop offset).takeWhile (· ≠ Byte.newline), c = Byte.carriageReturn

section Pieces
variable {text piece : Bytes}

theorem splitAt_eq_splitOn (separator : UInt8) (text : Bytes) : splitAt separator text = text.splitOn separator := by
  induction text with
  | nil => rfl
  | cons c rest ih =>
    obtain ⟨piece, pieces, split⟩ := List.exists_cons_of_ne_nil (splitAt_ne_nil separator rest)
    rw [splitAt_cons split, List.splitOn_cons_eq_if_modifyHead, ← ih, split]
    simp only [beq_iff_eq, List.modifyHead_cons]

theorem not_mem_of_mem_splitAt {separator : UInt8} (member : piece ∈ splitAt separator text) : separator ∉ piece := by
  induction text generalizing piece with
  | nil =>
    obtain rfl := List.mem_singleton.mp member
    exact List.not_mem_nil
  | cons c rest ih =>
    obtain ⟨first, others, split⟩ := List.exists_cons_of_ne_nil (splitAt_ne_nil separator rest)
    rw [split] at ih
    rw [splitAt_cons split] at member
    split at member
    next =>
      rcases List.mem_cons.mp member with rfl | later
      · exact List.not_mem_nil
      · exact ih later
    next other =>
      rcases List.mem_cons.mp member with rfl | later
      · exact fun inside => (List.mem_cons.mp inside).elim (Ne.symm other) (ih List.mem_cons_self)
      · exact ih (List.mem_cons_of_mem _ later)

/-- Without newlines in it, a piece has only carriage returns to lose. -/
theorem trimEnd_isLineEnd (unbroken : Byte.newline ∉ piece) :
    trimEnd Byte.isLineEnd piece = piece.rdropWhile (· == Byte.carriageReturn) := by
  induction piece using List.reverseRecOn with
  | nil => rfl
  | append_singleton piece c ih =>
    rw [List.mem_append, List.mem_singleton, not_or] at unbroken
    have same : Byte.isLineEnd c = (c == Byte.carriageReturn) := by
      rw [Byte.isLineEnd, beq_false_of_ne (Ne.symm unbroken.2), Bool.false_or]
    change (piece ++ [c]).rdropWhile Byte.isLineEnd = _
    rw [List.rdropWhile_concat, List.rdropWhile_concat, same, ← ih unbroken.1]
    rfl

end Pieces

section Found
variable {text : Bytes} {offset : Nat} {c : UInt8}

private theorem slice_lineEnd (text : Bytes) (offset : Nat) :
    slice text offset (lineEnd text offset) = (text.drop offset).takeWhile (· ≠ Byte.newline) := by
  rw [slice, lineEnd, Nat.add_sub_cancel_left]
  exact (List.prefix_iff_eq_take.mp (List.takeWhile_prefix _)).symm

private theorem newline_not_mem_slice_lineStart (inside : offset ≤ text.length) :
    Byte.newline ∉ slice text (lineStart text offset) offset := by
  obtain ⟨inLine, split, unbroken, -⟩ := exists_lineStart inside
  rw [← take_append_slice text (lineStart_le text offset)] at split
  rwa [List.append_cancel_left split]

/-- The line that holds an offset is the text from its start to its end. -/
theorem line_of_offset (inside : offset ≤ text.length) :
    (Lines.ofText text).line ((Lines.ofText text).position offset).line =
      trimEnd Byte.isLineEnd (slice text (lineStart text offset) (lineEnd text offset)) := by
  have unbroken : Byte.newline ∉ slice text (lineStart text offset) (lineEnd text offset) := by
    rw [← slice_append_slice text (lineStart_le text offset) (le_lineEnd text offset), List.mem_append, not_or]
    obtain ⟨inLine, split, unbroken, -⟩ := exists_lineEnd text offset
    rw [← slice_append_drop text (le_lineEnd text offset)] at split
    exact ⟨newline_not_mem_slice_lineStart inside, List.append_cancel_right split ▸ unbroken⟩
  obtain ⟨-, lines⟩ := lines_between (Nat.le_refl offset) inside
  rw [splitAt_of_not_mem unbroken, Nat.sub_self] at lines
  exact List.head_eq_of_cons_eq lines

/-- A byte before the line break stands in its line behind what comes before it there. -/
theorem exists_line_behind (found : text[offset]? = some c) (visible : ¬ AtLineEnd text offset) :
    ∃ after, (Lines.ofText text).line ((Lines.ofText text).position offset).line =
      slice text (lineStart text offset) offset ++ c :: after := by
  obtain ⟨inside, rfl⟩ := List.getElem?_eq_some_iff.mp found
  rw [AtLineEnd, not_forall] at visible
  obtain ⟨d, visible⟩ := visible
  obtain ⟨member, other⟩ := Classical.not_imp.mp visible
  have stays : Byte.isLineEnd d = false := by
    have inLine : d ≠ Byte.newline := by simpa using List.mem_takeWhile_imp member
    simp [Byte.isLineEnd, inLine, other]
  obtain ⟨middle, behind, split⟩ := List.append_of_mem member
  -- Nothing up to the byte `d` is trimmed, and `text[offset]` stands at `d` or before it.
  have ends : (slice text (lineStart text offset) offset ++ (middle ++ [d])).getLast? = some d := by simp
  have shown : slice text (lineStart text offset) (lineEnd text offset) =
      slice text (lineStart text offset) offset ++ (middle ++ [d]) ++ behind := by
    rw [← slice_append_slice text (lineStart_le text offset) (le_lineEnd text offset), slice_lineEnd, split]
    simp
  obtain ⟨first, rest, starts⟩ := List.exists_cons_of_ne_nil (show middle ++ [d] ≠ [] by simp)
  obtain rfl : text[offset] = first := by
    obtain ⟨later, ahead, -⟩ := exists_firstLine (text.drop offset)
    have whole : text.drop offset = first :: (rest ++ behind ++ later) := by
      rw [ahead, split, List.append_cons, starts]
      rfl
    rw [← List.head?_drop, whole] at found
    exact (Option.some.inj found).symm
  refine ⟨rest ++ trimEnd Byte.isLineEnd behind, ?_⟩
  rw [line_of_offset (Nat.le_of_lt inside), shown, trimEnd_append ends stays, starts, List.append_assoc,
    List.cons_append]

/-- A byte before the line break is found in its line at its column, behind the bytes that
stand before it in the line. -/
theorem line_at_column (found : text[offset]? = some c) (visible : ¬ AtLineEnd text offset) :
    let position := (Lines.ofText text).position offset
    let bytes := (Lines.ofText text).line position.line
    bytes.take (position.column - 1) = slice text (lineStart text offset) offset ∧
      bytes[position.column - 1]? = some c := by
  obtain ⟨inside, -⟩ := List.getElem?_eq_some_iff.mp found
  obtain ⟨after, line⟩ := exists_line_behind found visible
  have before : (slice text (lineStart text offset) offset).length = offset - lineStart text offset := by
    rw [slice, List.length_take, List.length_drop]
    omega
  dsimp only
  rw [line, position_eq (Nat.le_of_lt inside), Nat.add_sub_cancel, ← before, List.take_left,
    List.getElem?_append_right (Nat.le_refl _), Nat.sub_self]
  exact ⟨rfl, rfl⟩

end Found

/-- An offset past the end of a text stands for its end. -/
theorem position_clamped (text : Bytes) (offset : Nat) :
    (Lines.ofText text).position offset = (Lines.ofText text).position (min offset text.length) := by
  have indexed : ¬ (Lines.ofText text).starts.isEmpty = true := by simp [Lines.ofText]
  have within : min (min offset text.length) (Lines.ofText text).text.length = min offset text.length :=
    Nat.min_eq_left (Nat.min_le_right _ _)
  rw [Lines.position, if_neg indexed, Lines.position, if_neg indexed, within]
  rfl

/-- A position lies in a text: its offset does, its line starts there, and there are
enough lines. -/
structure Position.Within (position : Position) (text : Bytes) : Prop where
  offset : position.offset ≤ text.length
  column : 1 ≤ position.column ∧ position.column - 1 ≤ position.offset
  line : 1 ≤ position.line ∧ position.line ≤ text.length + 1

theorem Lines.position_within (text : Bytes) (offset : Nat) : ((ofText text).position offset).Within text := by
  have inside := Nat.min_le_right offset text.length
  have newlines : (text.take (lineStart text (min offset text.length))).count Byte.newline ≤ text.length :=
    Nat.le_trans List.count_le_length (List.length_take_le' _ _)
  rw [position_clamped, position_eq inside]
  refine ⟨inside, ⟨Nat.succ_pos _, ?_⟩, Nat.succ_pos _, Nat.succ_le_succ newlines⟩
  rw [Nat.add_sub_cancel]
  exact Nat.sub_le _ _

/-- The start of a line is the start of the text, or it stands behind a newline. -/
theorem lineStart_eq_zero_or {text : Bytes} {offset : Nat} (inside : offset ≤ text.length) :
    lineStart text offset = 0 ∨ text[lineStart text offset - 1]? = some Byte.newline := by
  obtain ⟨-, -, -, starts⟩ := exists_lineStart inside
  have length : (text.take (lineStart text offset)).length = lineStart text offset := by
    rw [List.length_take, Nat.min_eq_left (Nat.le_trans (lineStart_le text offset) inside)]
  rcases starts with none | last
  · left
    rw [← length, none, List.length_nil]
  · right
    obtain ⟨front, split⟩ := List.getLast?_eq_some_iff.mp last
    rw [split, List.length_append, List.length_singleton] at length
    have whole : text = front ++ Byte.newline :: text.drop (lineStart text offset) := by
      rw [← List.singleton_append, ← List.append_assoc, ← split, List.take_append_drop]
    rw [← length, Nat.add_sub_cancel, whole, List.getElem?_append_right (Nat.le_refl _), Nat.sub_self]
    rfl

/-- Positions and lines are what one counts by hand. The line number of an offset is one
more than the number of newlines before it, and its column counts from the start of the
text or from the last newline; an offset past the end names the end. The lines are the
pieces of the text between its newlines without the carriage returns at their ends, and
there are no others. A byte that does not belong to a line break stands in the line and
at the column that its position names. -/
theorem lines_counted (text : Bytes) :
    let lines := Lines.ofText text
    (∀ offset, let place := min offset text.length
      ∃ start ≤ place, Byte.newline ∉ slice text start place ∧
        (start = 0 ∨ text[start - 1]? = some Byte.newline) ∧
        lines.position offset = ⟨place, 1 + (text.take place).count Byte.newline, place - start + 1⟩) ∧
    (∀ number, 1 ≤ number → number ≤ 1 + text.count Byte.newline →
      ∃ piece, (text.splitOn Byte.newline)[number - 1]? = some piece ∧
        lines.line number = piece.rdropWhile (· == Byte.carriageReturn)) ∧
    (∀ number, number = 0 ∨ 1 + text.count Byte.newline < number → lines.line number = []) ∧
    (∀ offset c, text[offset]? = some c → ¬ AtLineEnd text offset →
      (lines.line (lines.position offset).line)[(lines.position offset).column - 1]? = some c) := by
  intro lines
  refine ⟨?_, ?_, ?_, ?_⟩
  · intro offset place
    have inside : place ≤ text.length := Nat.min_le_right _ _
    refine ⟨lineStart text place, lineStart_le text place, newline_not_mem_slice_lineStart inside,
      lineStart_eq_zero_or inside, ?_⟩
    obtain ⟨inLine, split, unbroken, -⟩ := exists_lineStart inside
    rw [position_clamped, position_eq inside, split, List.count_append, List.count_eq_zero_of_not_mem unbroken,
      Nat.add_comm]
    rfl
  · intro number positive bounded
    obtain ⟨index, rfl⟩ := Nat.exists_eq_add_of_le' positive
    have below : index < (splitAt Byte.newline text).length := by
      rw [length_splitAt]
      omega
    refine ⟨(splitAt Byte.newline text)[index], ?_, ?_⟩
    · rw [← splitAt_eq_splitOn, Nat.add_sub_cancel, List.getElem?_eq_getElem below]
    · rw [Lines.line_ofText, List.getElem?_eq_getElem below, Option.getD_some,
        trimEnd_isLineEnd (not_mem_of_mem_splitAt (List.getElem_mem below))]
  · rintro number (rfl | beyond)
    · rfl
    · obtain ⟨index, rfl⟩ := Nat.exists_eq_add_of_lt beyond
      have none : (splitAt Byte.newline text)[1 + text.count Byte.newline + index]? = none := by
        rw [List.getElem?_eq_none_iff, length_splitAt]
        omega
      rw [Lines.line_ofText, none]
      rfl
  · intro offset c found visible
    exact (line_at_column found visible).2

end Allman
