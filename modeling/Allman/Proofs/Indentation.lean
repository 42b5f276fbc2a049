import Mathlib.Data.List.Induction
import Allman.Proofs.SameCode

/-! What the text suggested for a brace is made of. The line break is read off the
text from the brace on, and the indentation off the text before the word that the
block belongs to. Both are found in one pass, so they can be followed from gap to
gap of a layout. -/

namespace Allman
open Region

/-- The line break that ends the first line of a text, or a newline where there is none. -/
def lineBreakOf : Bytes → Bytes
  | [] => [Byte.newline]
  | c :: rest =>
    if c = Byte.newline then [Byte.newline]
    else if startsCrLf (c :: rest) then [Byte.carriageReturn, Byte.newline]
    else lineBreakOf rest

section LineBreak
variable {text rest : Bytes} {c : UInt8} {offset : Nat}

theorem startsCrLf_of_not_newline (inLine : rest.head? ≠ some Byte.newline) : startsCrLf (c :: rest) = false := by
  cases rest with
  | nil => rfl
  | cons d rest =>
    have second : d ≠ Byte.newline := by simpa using inLine
    simp [startsCrLf, second]

private theorem findIdx?_eq_zero_iff :
    text.findIdx? (· == Byte.newline) = some 0 ↔ text.head? = some Byte.newline := by
  cases text with
  | nil => simp
  | cons c rest =>
    rw [List.findIdx?_cons]
    split <;> simp_all

private theorem lineBreakOf_of_findIdx? (found : text.findIdx? (· == Byte.newline) = some (offset + 1)) :
    lineBreakOf text = if text[offset]? = some Byte.carriageReturn then [Byte.carriageReturn, Byte.newline]
      else [Byte.newline] := by
  induction text generalizing offset with
  | nil => cases found
  | cons c rest ih =>
    rw [List.findIdx?_cons] at found
    split at found
    next => cases found
    next inLine =>
      have first : c ≠ Byte.newline := by simpa using inLine
      obtain ⟨place, later, same⟩ := Option.map_eq_some_iff.mp found
      obtain rfl : place = offset := by omega
      rw [lineBreakOf, if_neg first]
      cases place with
      | zero =>
        have second := findIdx?_eq_zero_iff.mp later
        match rest with
        | d :: more =>
          obtain rfl : d = Byte.newline := by simpa using second
          by_cases pair : c = Byte.carriageReturn
          · simp [startsCrLf, pair]
          · simp [startsCrLf, pair, lineBreakOf]
      | succ before =>
        have second : rest.head? ≠ some Byte.newline := by
          intro head
          rw [findIdx?_eq_zero_iff.mpr head] at later
          cases later
        rw [startsCrLf_of_not_newline second, ih later]
        rfl

private theorem lineBreakOf_of_inLine (inLine : text.findIdx? (· == Byte.newline) = none) :
    lineBreakOf text = [Byte.newline] := by
  induction text with
  | nil => rfl
  | cons c rest ih =>
    rw [List.findIdx?_cons] at inLine
    split at inLine
    next => cases inLine
    next first =>
      have later := Option.map_eq_none_iff.mp inLine
      have second : rest.head? ≠ some Byte.newline := by
        intro head
        rw [findIdx?_eq_zero_iff.mpr head] at later
        cases later
      rw [lineBreakOf, if_neg (by simpa using first), startsCrLf_of_not_newline second, ih later]
      rfl

/-- The line break behind a byte that is no newline is that of the text from there on. -/
theorem lineBreakAfter_eq (here : text[offset]? = some c) (inLine : c ≠ Byte.newline) :
    Outline.lineBreakAfter text offset = lineBreakOf (text.drop offset) := by
  unfold Outline.lineBreakAfter nextNewline?
  cases found : (text.drop offset).findIdx? (· == Byte.newline) with
  | none => rw [lineBreakOf_of_inLine found]; rfl
  | some place =>
    cases place with
    | zero =>
      rw [findIdx?_eq_zero_iff, List.head?_drop, here, Option.some_inj] at found
      exact absurd found inLine
    | succ before =>
      rw [lineBreakOf_of_findIdx? found, List.getElem?_drop]
      rfl

end LineBreak

/-- The two texts end their first line in the same way, whatever stands before them. -/
structure SameLineEnd (text other : Bytes) : Prop where
  ending : lineBreakOf text = lineBreakOf other
  head : text.head? = some Byte.newline ↔ other.head? = some Byte.newline

section LineEnds
variable {text other gap gap' : Bytes}

theorem SameLineEnd.cons (same : SameLineEnd text other) (c : UInt8) : SameLineEnd (c :: text) (c :: other) := by
  refine ⟨?_, by simp⟩
  rw [lineBreakOf, lineBreakOf, same.ending]
  by_cases newline : text.head? = some Byte.newline
  · have newline' := same.head.mp newline
    match text, other with
    | d :: text, e :: other =>
      obtain rfl : d = Byte.newline := by simpa using newline
      obtain rfl : e = Byte.newline := by simpa using newline'
      rfl
  · rw [startsCrLf_of_not_newline newline, startsCrLf_of_not_newline (mt same.head.mpr newline)]

theorem SameLineEnd.append (same : SameLineEnd text other) (bytes : Bytes) :
    SameLineEnd (bytes ++ text) (bytes ++ other) := by
  induction bytes with
  | nil => exact same
  | cons c bytes ih => exact ih.cons c

theorem hasNewline_cons {c : UInt8} (inLine : hasNewline (c :: gap) = false) :
    c ≠ Byte.newline ∧ hasNewline gap = false := by
  rw [← List.singleton_append, hasNewline_append, Bool.or_eq_false_iff] at inLine
  refine ⟨?_, inLine.2⟩
  rintro rfl
  cases inLine.1

private theorem head?_gap (inLine : hasNewline gap = false) (ahead : text.head? ≠ some Byte.newline) :
    (gap ++ text).head? ≠ some Byte.newline := by
  cases gap with
  | nil => exact ahead
  | cons c gap => simpa using (hasNewline_cons inLine).1

private theorem lineBreakOf_gap (inLine : hasNewline gap = false) (ahead : text.head? ≠ some Byte.newline) :
    lineBreakOf (gap ++ text) = lineBreakOf text := by
  induction gap with
  | nil => rfl
  | cons c gap ih =>
    obtain ⟨first, later⟩ := hasNewline_cons inLine
    rw [List.cons_append, lineBreakOf, if_neg first, startsCrLf_of_not_newline (head?_gap later ahead), ih later]
    rfl

/-- A gap inside a line may become another one. -/
theorem SameLineEnd.regap (same : SameLineEnd text other) (inLine : hasNewline gap = false)
    (inLine' : hasNewline gap' = false) (ahead : text.head? ≠ some Byte.newline) :
    SameLineEnd (gap ++ text) (gap' ++ other) := by
  have ahead' := mt same.head.mpr ahead
  refine ⟨?_, iff_of_false (head?_gap inLine ahead) (head?_gap inLine' ahead')⟩
  rw [lineBreakOf_gap inLine ahead, lineBreakOf_gap inLine' ahead', same.ending]

end LineEnds

/-- The blanks that the current line starts with, and whether it has nothing else so far. -/
structure Margin where
  blanks : Bytes := []
  blank : Bool := true

def Margin.step (margin : Margin) (c : UInt8) : Margin :=
  if c = Byte.newline then {}
  else if margin.blank && Byte.isBlank c then ⟨margin.blanks ++ [c], true⟩
  else ⟨margin.blanks, false⟩

def Margin.after (margin : Margin) (bytes : Bytes) : Margin := bytes.foldl step margin

/-- The blanks that the last line of a text starts with. -/
def indentOf (text : Bytes) : Bytes := (Margin.after {} text).blanks

section Margins
variable {text gap gap' : Bytes} {c : UInt8} {margin : Margin}

theorem Margin.after_append (margin : Margin) (first second : Bytes) :
    margin.after (first ++ second) = (margin.after first).after second :=
  List.foldl_append

/-- Nothing in a line changes its margin once it holds more than blanks. -/
theorem Margin.after_inLine (closed : margin.blank = false) (inLine : hasNewline gap = false) :
    margin.after gap = margin := by
  induction gap with
  | nil => rfl
  | cons c gap ih =>
    obtain ⟨first, later⟩ := hasNewline_cons inLine
    have step : margin.step c = margin := by
      rw [step, if_neg first, closed]
      cases margin
      cases closed
      rfl
    change (margin.step c).after gap = margin
    rw [step]
    exact ih later

private theorem Margin.closed_of_getLast? (margin : Margin) (ends : text.getLast? = some c)
    (solid : Byte.isSpace c = false) : (margin.after text).blank = false := by
  obtain ⟨front, rfl⟩ := List.getLast?_eq_some_iff.mp ends
  obtain ⟨inLine, stays⟩ := isBlank_of_isSpace_eq_false solid
  rw [after_append]
  change ((margin.after front).step c).blank = false
  rw [step, if_neg inLine, stays, Bool.and_false]
  rfl

/-- Behind a byte that is no space, a gap inside the line may become another one. -/
theorem Margin.after_gap (margin : Margin) (ends : text.getLast? = some c) (solid : Byte.isSpace c = false)
    (inLine : hasNewline gap = false) (inLine' : hasNewline gap' = false) :
    margin.after (text ++ gap) = margin.after (text ++ gap') := by
  have closed := margin.closed_of_getLast? ends solid
  rw [after_append, after_append, after_inLine closed inLine, after_inLine closed inLine']

end Margins

namespace Lines

theorem startsAfter_append (offset : Nat) (first second : Bytes) :
    startsAfter offset (first ++ second) = startsAfter offset first ++ startsAfter (offset + first.length) second := by
  induction first generalizing offset with
  | nil => rfl
  | cons c first ih =>
    have next : offset + 1 + first.length = offset + (first.length + 1) := by omega
    simp only [List.cons_append, startsAfter, ih, List.length_cons, next]
    split <;> rfl

theorem mem_startsAfter {offset start : Nat} {text : Bytes} (member : start ∈ startsAfter offset text) :
    offset < start ∧ start ≤ offset + text.length := by
  induction text generalizing offset with
  | nil => cases member
  | cons c text ih =>
    rw [List.length_cons]
    have later : start ∈ startsAfter (offset + 1) text → offset < start ∧ start ≤ offset + (text.length + 1) := by
      intro member
      have bounds := ih member
      omega
    rw [startsAfter] at member
    split at member
    · rcases List.mem_cons.mp member with rfl | member
      · omega
      · exact later member
    · exact later member

def lastStart (text : Bytes) : Nat := (startsAfter 0 text).getLastD 0

private theorem lastStart_le (text : Bytes) : lastStart text ≤ text.length := by
  rw [lastStart, List.getLastD_eq_getLast?]
  cases found : (startsAfter 0 text).getLast? with
  | none => exact Nat.zero_le _
  | some start =>
    have bounds := mem_startsAfter (List.mem_of_getLast? found)
    rw [Nat.zero_add] at bounds
    exact bounds.2

private theorem takeWhile_concat (p : UInt8 → Bool) (bytes : Bytes) (c : UInt8) :
    (bytes ++ [c]).takeWhile p = if bytes.all p && p c then bytes.takeWhile p ++ [c] else bytes.takeWhile p := by
  induction bytes with
  | nil => cases holds : p c <;> simp [holds]
  | cons d bytes ih =>
    by_cases holds : p d = true
    · simp only [List.cons_append, List.takeWhile_cons, holds, if_true, ih, List.all_cons, Bool.true_and]
      split <;> rfl
    · simp [holds]

/-- The margin of a text is found in its last line. -/
theorem margin_eq (text : Bytes) : Margin.after {} text =
    ⟨(text.drop (lastStart text)).takeWhile Byte.isBlank, (text.drop (lastStart text)).all Byte.isBlank⟩ := by
  induction text using List.reverseRecOn with
  | nil => rfl
  | append_singleton text c ih =>
    rw [Margin.after_append, ih]
    change Margin.step _ c = _
    by_cases newline : c = Byte.newline
    · have start : lastStart (text ++ [c]) = text.length + 1 := by
        simp [lastStart, startsAfter_append, startsAfter, newline]
      rw [Margin.step, if_pos newline, start, List.drop_eq_nil_of_le (by simp)]
      rfl
    · have start : lastStart (text ++ [c]) = lastStart text := by
        simp [lastStart, startsAfter_append, startsAfter, newline]
      rw [Margin.step, if_neg newline, start, List.drop_append_of_le_length (lastStart_le text),
        takeWhile_concat]
      simp only [List.all_append, List.all_cons, List.all_nil, Bool.and_true]
      split
      next held => rw [held]
      next held => rw [Bool.eq_false_iff.mpr held]

section Line
variable {before rest : Bytes} {c : UInt8}

theorem starts_ofText (before rest : Bytes) :
    (ofText (before ++ rest)).starts = 0 :: startsAfter 0 before ++ startsAfter before.length rest := by
  simp only [ofText, startsAfter_append, Nat.zero_add, List.cons_append]

/-- The lines that start at an offset or before it are those that start in the text before it. -/
theorem takeWhile_starts (before rest : Bytes) :
    (ofText (before ++ rest)).starts.takeWhile (· ≤ before.length) = 0 :: startsAfter 0 before := by
  have early : ∀ start ∈ 0 :: startsAfter 0 before, decide (start ≤ before.length) = true := by
    intro start member
    rcases List.mem_cons.mp member with rfl | member
    · simp
    · simpa using (mem_startsAfter member).2
  have late : (startsAfter before.length rest).takeWhile (fun start => decide (start ≤ before.length)) = [] := by
    cases found : startsAfter before.length rest with
    | nil => rfl
    | cons start starts =>
      have bounds := @mem_startsAfter before.length start rest (by rw [found]; simp)
      rw [List.takeWhile_cons_of_neg (by simpa using bounds.1)]
  rw [starts_ofText, List.takeWhile_append_of_pos early, late, List.append_nil]

/-- An offset stands in the last line that starts before it, and its column counts from there. -/
theorem position_ofText (before rest : Bytes) :
    (ofText (before ++ rest)).position before.length =
      ⟨before.length, (startsAfter 0 before).length + 1, before.length - lastStart before + 1⟩ := by
  have within : min before.length (before ++ rest).length = before.length := by simp
  have text : (ofText (before ++ rest)).text = before ++ rest := rfl
  rw [position, if_neg (by simp [ofText]), text, within]
  dsimp only
  rw [takeWhile_starts, List.length_cons, lastStart, List.getLastD_eq_getLast?, List.getLast?_cons,
    List.getLastD_eq_getLast?]
  rfl

private theorem line_position (before rest : Bytes) :
    ((ofText (before ++ rest)).position before.length).line = (startsAfter 0 before).length + 1 := by
  rw [position_ofText]

/-- The line that a byte stands in, up to and including the byte. -/
theorem exists_line (before : Bytes) (c : UInt8) (rest : Bytes) : ∃ more,
    (ofText (before ++ c :: rest)).line ((startsAfter 0 before).length + 1) =
      trimEnd Byte.isLineEnd (before.drop (lastStart before) ++ c :: more) := by
  have start : (ofText (before ++ c :: rest)).starts[(startsAfter 0 before).length]? = some (lastStart before) := by
    have last := @List.getLast?_eq_getElem? _ (0 :: startsAfter 0 before)
    rw [List.getLast?_cons, List.length_cons, Nat.add_sub_cancel] at last
    rw [starts_ofText, List.getElem?_append_left (by simp), ← last, lastStart, List.getLastD_eq_getLast?]
  have stop : before.length < ((ofText (before ++ c :: rest)).starts[(startsAfter 0 before).length + 1]?).getD
      (before ++ c :: rest).length := by
    rw [starts_ofText, List.getElem?_append_right (by simp), List.length_cons, Nat.sub_self]
    cases found : (startsAfter before.length (c :: rest))[0]? with
    | none => simp
    | some start => exact (mem_startsAfter (List.mem_of_getElem? found)).1
  obtain ⟨size, stop⟩ := Nat.exists_eq_add_of_lt stop
  have text : (ofText (before ++ c :: rest)).text = before ++ c :: rest := rfl
  have first : slice (before ++ c :: rest) (lastStart before) before.length = before.drop (lastStart before) := by
    rw [slice, List.drop_append_of_le_length (lastStart_le before), List.take_left' (by simp)]
  refine ⟨rest.take size, ?_⟩
  simp only [line, start, text, stop]
  rw [← slice_append_slice _ (lastStart_le before) (show before.length ≤ before.length + size + 1 by omega), first,
    Nat.add_assoc, slice_append_left, List.take_succ_cons]

/-- A byte that is no space stands in the line whose margin is that of the text before it. -/
theorem indent_eq (before : Bytes) (solid : Byte.isSpace c = false) (rest : Bytes) :
    ((ofText (before ++ c :: rest)).line ((ofText (before ++ c :: rest)).position before.length).line).takeWhile
      Byte.isBlank = indentOf before := by
  obtain ⟨more, line⟩ := exists_line before c rest
  have stays : Byte.isLineEnd c = false := by
    simp only [Byte.isSpace, Bool.or_eq_false_iff] at solid
    simp [Byte.isLineEnd, solid]
  have ends : (before.drop (lastStart before) ++ [c]).getLast? = some c := List.getLast?_concat
  have head : (c :: trimEnd Byte.isLineEnd more).head?.any Byte.isBlank = false := (isBlank_of_isSpace_eq_false solid).2
  rw [line_position, line, ← List.singleton_append, ← List.append_assoc, trimEnd_append ends stays, List.append_assoc,
    List.singleton_append, (dropWhile_append_of_head head).1, indentOf, margin_eq]

end Line
end Lines
end Allman
