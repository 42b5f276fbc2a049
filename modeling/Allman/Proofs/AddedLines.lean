import Allman.Proofs.KeptLineBreaks

/-! How many lines a fix makes. Stars are moved inside their gaps, and a gap with a
newline is left as it is. A brace takes blanks with it on both sides and never the end
of a line, and it gets one line break. So no line is ever joined to the next one, and
every brace that is moved makes one line more. -/

namespace Allman
open Region

private theorem count_newline_eq_zero_iff {bytes : Bytes} :
    bytes.count Byte.newline = 0 ↔ hasNewline bytes = false := by
  rw [List.count_eq_zero, hasNewline, List.contains_eq_mem, decide_eq_false_iff_not]

private theorem count_lineBreakAfter (text : Bytes) (offset : Nat) :
    (Outline.lineBreakAfter text offset).count Byte.newline = 1 := by
  unfold Outline.lineBreakAfter
  split
  · split <;> decide
  · decide

/-- The newlines that an edit adds are found in the text that all edits make. -/
theorem Edit.count_splice {text : Bytes} {offset : Nat} {c : UInt8} {violations : List Violation}
    {adds : Violation → Bool} (ordered : Ordered text.length offset (violations.map Violation.toEdit))
    (added : ∀ violation ∈ violations, violation.suggested.count c =
      (slice text violation.start violation.stop).count c + if adds violation then 1 else 0) :
    (splice text offset (violations.map Violation.toEdit)).count c =
      (text.drop offset).count c + violations.countP adds := by
  induction violations generalizing offset with
  | nil => rfl
  | cons violation rest ih =>
    obtain ⟨⟨forward, -, after⟩, later⟩ := ordered
    have here := added violation List.mem_cons_self
    have behind := ih later fun other member => added other (List.mem_cons_of_mem _ member)
    rw [List.map_cons, splice, List.countP_cons, List.count_append, List.count_append, behind,
      ← slice_append_drop text after, ← slice_append_drop text forward, List.count_append, List.count_append]
    simp only [Violation.toEdit]
    omega

section Edits
variable {items : List Item} {last : Bytes} {index first count : Nat} {violation : Violation}

/-- A brace takes no newline with it. -/
theorem MisplacedBrace.count_slice (brace : MisplacedBrace items last index violation) (reads : Reads true items last) :
    (slice (woven items last) violation.start violation.stop).count Byte.newline = 0 := by
  have found := brace.item reads
  have covers := brace.start_lt_stop reads
  obtain ⟨blanks, rest, split, blank, stop, -⟩ := brace.stop
  obtain ⟨tail, behind, -⟩ := reads.drop_eq_gapAt (show index + 1 ≤ items.length from brace.below)
  have taken : slice (woven items last) (reach items (index + 1)) violation.stop = blanks := by
    rw [slice, stop, Nat.add_sub_cancel_left, drop_reach, behind, split, List.append_assoc, List.take_left]
  -- The gap before the brace, the brace and the blanks it takes make up the stretch from the token before it.
  have whole : slice (woven items last) (reach items index) violation.stop =
      gapAt items last index ++ [Byte.leftBrace] ++ blanks := by
    have forward : reach items (index + 1) ≤ violation.stop := stop ▸ Nat.le_add_right _ _
    rw [← slice_append_slice _ (reach_mono items (Nat.le_succ index)) forward, slice_item found, taken]
  have none : (slice (woven items last) (reach items index) violation.stop).count Byte.newline = 0 := by
    rw [whole, List.count_append, List.count_append, count_newline_eq_zero_iff.mpr brace.inLine,
      count_newline_eq_zero_iff.mpr (hasNewline_blanks blank)]
    rfl
  rw [← slice_append_slice _ brace.reach_le_start (Nat.le_of_lt (Nat.lt_of_le_of_lt covers.1 covers.2)),
    List.count_append] at none
  exact (Nat.add_eq_zero_iff.mp none).2

private theorem MisplacedBrace.count_suggested (brace : MisplacedBrace items last index violation) :
    violation.suggested.count Byte.newline = 1 := by
  obtain ⟨braced, -, -, -, suggested⟩ := Outline.checkBrace?_eq_some brace.violates
  have indent := count_newline_eq_zero_iff.mpr (@hasNewline_blanks (((outlineOf items last).lines.line
    ((outlineOf items last).owningLine index braced)).takeWhile Byte.isBlank) List.all_takeWhile)
  rw [suggested, List.count_append, List.count_append, count_lineBreakAfter, indent]
  rfl

/-- Stars with no newline between them have the newlines of the gaps around them. -/
theorem count_starText {gap : Nat → Bytes}
    (inLine : ∀ index, first < index → index ≤ first + count → (gap index).count Byte.newline = 0) :
    (starText gap first (count + 1)).count Byte.newline =
      (gap first).count Byte.newline + (gap (first + count + 1)).count Byte.newline := by
  induction count generalizing first with
  | zero => rw [starText, starText, List.count_append, List.count_cons_of_ne (by decide)]
  | succ count ih =>
    have rest := @ih (first + 1) fun index after before => inLine index (by omega) (by omega)
    have closed := inLine (first + 1) (Nat.lt_succ_self _) (by omega)
    have place : first + 1 + count + 1 = first + (count + 1) + 1 := by omega
    rw [closed, Nat.zero_add, place] at rest
    rw [starText, List.count_append, List.count_cons_of_ne (by decide), rest]

private theorem count_starLayout (outline : Outline) (previous : Nat) (before after : Bytes) (count : Nat) :
    (outline.starLayout previous before after count).count Byte.newline =
      before.count Byte.newline + after.count Byte.newline := by
  have stars : (List.replicate count Byte.star).count Byte.newline = 0 := by
    rw [List.count_replicate]
    rfl
  have front : (if hasNewline before then before else if outline.is previous .leftParen then [] else
      [Byte.space]).count Byte.newline = before.count Byte.newline := by
    split
    next => rfl
    next inLine =>
      rw [count_newline_eq_zero_iff.mpr (Bool.eq_false_iff.mpr inLine)]
      split <;> rfl
  have back : (if hasNewline after then after else []).count Byte.newline = after.count Byte.newline := by
    split
    next => rfl
    next inLine => rw [count_newline_eq_zero_iff.mpr (Bool.eq_false_iff.mpr inLine)]; rfl
  rw [Outline.starLayout, List.count_append, List.count_append, front, stars, back, Nat.add_zero]

/-- Stars are moved without a newline more or less. -/
theorem MisplacedStars.count_suggested (stars : MisplacedStars items last first count violation)
    (reads : Reads true items last) : violation.suggested.count Byte.newline =
      (slice (woven items last) violation.start violation.stop).count Byte.newline := by
  rw [stars.suggested, stars.start, stars.stop, stars.slice_eq reads, count_starLayout, count_starText]
  intro index after before
  exact count_newline_eq_zero_iff.mpr (stars.run.gap reads after before).2

private theorem Reads.count_suggested (reads : Reads true items last) {chosen : Rule → Bool}
    (violates : (outlineOf items last).violationAt? chosen index = some violation) :
    violation.suggested.count Byte.newline =
      (slice (woven items last) violation.start violation.stop).count Byte.newline +
        if violation.rule == .bracePlacement then 1 else 0 := by
  obtain ⟨-, brace | ⟨count, stars⟩⟩ := reads.violationAt?_cases violates
  · rw [brace.count_suggested, brace.count_slice reads, brace.rule]
    rfl
  · rw [stars.count_suggested reads, stars.rule]
    rfl

end Edits

/-- A fix adds one newline for every brace that it moves, and nowhere takes one away. -/
theorem fix_adds_lines (text : Bytes) :
    (fix text).text.count Byte.newline =
      text.count Byte.newline + (fix text).report.countOf .bracePlacement ∧
    ∀ violation ∈ (scan text).violations, violation.suggested.count Byte.newline =
      (slice text violation.start violation.stop).count Byte.newline +
        if violation.rule == .bracePlacement then 1 else 0 := by
  obtain ⟨items, last, rfl, reads⟩ := exists_reads true text
  have added : ∀ violation ∈ (scan (woven items last)).violations, violation.suggested.count Byte.newline =
      (slice (woven items last) violation.start violation.stop).count Byte.newline +
        if violation.rule == .bracePlacement then 1 else 0 := by
    intro violation member
    rw [reads.scan_violations] at member
    obtain ⟨index, -, violates⟩ := List.mem_filterMap.mp member
    exact reads.count_suggested violates
  refine ⟨?_, added⟩
  have ordered := reads.ordered fun _ => true
  rw [← reads.scan_violations] at ordered
  have whole := Edit.count_splice ordered added
  rw [fix, applyFixes, (applyEdits_of_ordered ordered).1, whole, List.drop_zero]
  rfl

end Allman
