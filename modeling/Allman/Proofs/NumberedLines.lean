import Allman.Proofs.CollectedFiles
import Allman.Proofs.Indentation

/-! The lines of a text by their numbers. Line `n + 1` is the piece behind the `n`th
newline, so the lines from one offset to another are the pieces of a stretch of the
text: from the start of the line that holds the first to the end of the line that holds
the second. -/

namespace Allman

/-- Where the line that holds an offset starts: behind the last newline before it. -/
def lineStart (text : Bytes) (offset : Nat) : Nat :=
  offset - ((text.take offset).reverse.takeWhile (· ≠ Byte.newline)).length

/-- Where the line that holds an offset ends: at the first newline from there on. -/
def lineEnd (text : Bytes) (offset : Nat) : Nat :=
  offset + ((text.drop offset).takeWhile (· ≠ Byte.newline)).length

section Pieces
variable {front back : Bytes}

theorem length_splitAt (separator : UInt8) (text : Bytes) :
    (splitAt separator text).length = text.count separator + 1 := by
  induction text with
  | nil => rfl
  | cons c rest ih =>
    obtain ⟨piece, pieces, split⟩ := List.exists_cons_of_ne_nil (splitAt_ne_nil separator rest)
    rw [split, List.length_cons] at ih
    rw [splitAt_cons split, List.count_cons]
    split
    next same => simp [same, ih]
    next other => simp [other, ih]

/-- What stands between two line borders is cut into the same pieces on its own. -/
theorem splitAt_between (middle : Bytes) (starts : front = [] ∨ front.getLast? = some Byte.newline)
    (ends : back = [] ∨ back.head? = some Byte.newline) :
    ∃ before after, splitAt Byte.newline (front ++ middle ++ back) =
        before ++ splitAt Byte.newline middle ++ after ∧ before.length = front.count Byte.newline := by
  obtain ⟨after, behind⟩ : ∃ after, splitAt Byte.newline (middle ++ back) = splitAt Byte.newline middle ++ after := by
    rcases ends with rfl | head
    · exact ⟨[], by simp⟩
    · obtain ⟨rest, rfl⟩ := List.head?_eq_some_iff.mp head
      exact ⟨_, splitAt_append_cons _ _ _⟩
  rcases starts with rfl | last
  · exact ⟨[], after, behind, rfl⟩
  · obtain ⟨front, rfl⟩ := List.getLast?_eq_some_iff.mp last
    refine ⟨splitAt Byte.newline front, after, ?_, ?_⟩
    · rw [List.append_assoc, List.append_assoc, List.singleton_append, splitAt_append_cons, behind, List.append_assoc]
    · rw [length_splitAt, List.count_append]
      rfl

end Pieces

namespace Lines

private theorem startsAfter_shift (offset : Nat) (text : Bytes) :
    startsAfter offset text = (startsAfter 0 text).map (offset + ·) := by
  induction text generalizing offset with
  | nil => rfl
  | cons c text ih =>
    have next : (startsAfter (0 + 1) text).map (offset + ·) = startsAfter (offset + 1) text := by
      rw [ih (0 + 1), ih (offset + 1), List.map_map]
      apply List.map_congr_left
      intro start _
      simp only [Function.comp_apply]
      omega
    simp only [startsAfter]
    split
    · rw [List.map_cons, next, Nat.zero_add]
    · rw [next]

private theorem length_startsAfter (offset : Nat) (text : Bytes) :
    (startsAfter offset text).length = text.count Byte.newline := by
  induction text generalizing offset with
  | nil => rfl
  | cons c text ih =>
    simp only [startsAfter, List.count_cons, beq_iff_eq]
    split <;> simp [ih]

private theorem startsAfter_of_not_mem {text : Bytes} (inLine : Byte.newline ∉ text) (offset : Nat) :
    startsAfter offset text = [] := by
  rw [← List.length_eq_zero_iff, length_startsAfter, List.count_eq_zero_of_not_mem inLine]

private theorem trimEnd_newline (text : Bytes) :
    trimEnd Byte.isLineEnd (text ++ [Byte.newline]) = trimEnd Byte.isLineEnd text := by
  rw [trimEnd, List.reverse_append]
  rfl

section Front
variable {front : Bytes} (inLine : Byte.newline ∉ front) (rest : Bytes)
include inLine

private theorem starts_behind : (ofText (front ++ Byte.newline :: rest)).starts =
    0 :: (ofText rest).starts.map (front.length + 1 + ·) := by
  have first : startsAfter front.length (Byte.newline :: rest) =
      (front.length + 1) :: startsAfter (front.length + 1) rest := if_pos rfl
  rw [starts_ofText, startsAfter_of_not_mem inLine, first, startsAfter_shift]
  rfl

private theorem line_first : (ofText (front ++ Byte.newline :: rest)).line 1 = trimEnd Byte.isLineEnd front := by
  have starts := starts_behind inLine rest
  have second : (ofText rest).starts[0]? = some 0 := rfl
  have whole : slice (front ++ Byte.newline :: rest) 0 (front.length + 1) = front ++ [Byte.newline] := by
    rw [← List.singleton_append, ← List.append_assoc, slice, List.drop_zero, Nat.sub_zero, List.take_left' (by simp)]
  simp only [line, starts, List.getElem?_cons_zero, List.getElem?_cons_succ, List.getElem?_map, second, Option.map_some,
    Option.getD_some, Nat.add_zero]
  exact (congrArg (trimEnd Byte.isLineEnd) whole).trans (trimEnd_newline front)

private theorem line_behind (number : Nat) :
    (ofText (front ++ Byte.newline :: rest)).line (number + 2) = (ofText rest).line (number + 1) := by
  have starts := starts_behind inLine rest
  have length : (ofText (front ++ Byte.newline :: rest)).text.length =
      front.length + 1 + (ofText rest).text.length := by
    simp only [ofText, List.length_append, List.length_cons]
    omega
  have later (start stop : Nat) : slice (ofText (front ++ Byte.newline :: rest)).text (front.length + 1 + start)
      (front.length + 1 + stop) = slice (ofText rest).text start stop := by
    simp only [ofText, slice]
    rw [Nat.add_sub_add_left, ← List.drop_drop, ← List.singleton_append, ← List.append_assoc,
      List.drop_left' (by simp)]
  have ends : (((ofText rest).starts[number + 1]?).map (front.length + 1 + ·)).getD
      (front.length + 1 + (ofText rest).text.length) =
        front.length + 1 + ((ofText rest).starts[number + 1]?).getD (ofText rest).text.length :=
    Option.getD_map ..
  simp only [line, starts, List.getElem?_cons_succ, List.getElem?_map, length, ends]
  cases (ofText rest).starts[number]? with
  | none => rfl
  | some start => simp only [Option.map_some, later]

end Front

/-- A line is what stands between two newlines, without the line end bytes it ends with. -/
theorem line_ofText (text : Bytes) (number : Nat) : (ofText text).line (number + 1) =
    trimEnd Byte.isLineEnd ((splitAt Byte.newline text)[number]?.getD []) := by
  induction size : text.length using Nat.strongRecOn generalizing text number with
  | ind size ih =>
  subst size
  by_cases broken : Byte.newline ∈ text
  · obtain ⟨front, rest, rfl, inLine⟩ := List.eq_append_cons_of_mem broken
    rw [splitAt_append_cons, splitAt_of_not_mem inLine, List.singleton_append]
    cases number with
    | zero => exact line_first inLine rest
    | succ number =>
      rw [line_behind inLine, ih rest.length (by simp; omega) rest number rfl, List.getElem?_cons_succ]
  · have starts : (ofText text).starts = [0] := by rw [ofText, startsAfter_of_not_mem broken]
    rw [splitAt_of_not_mem broken, line, starts]
    cases number with
    | zero => simp [ofText, slice]
    | succ number => rfl

end Lines

section Around
variable {text : Bytes} {start stop offset : Nat}

/-- The bytes before the first newline, and what stands from there on. -/
theorem exists_firstLine (text : Bytes) :
    ∃ rest, text = text.takeWhile (· ≠ Byte.newline) ++ rest ∧ Byte.newline ∉ text.takeWhile (· ≠ Byte.newline) ∧
      (rest = [] ∨ rest.head? = some Byte.newline) := by
  induction text with
  | nil => exact ⟨[], rfl, List.not_mem_nil, .inl rfl⟩
  | cons c text ih =>
    by_cases newline : c = Byte.newline
    · exact ⟨c :: text, by simp [newline], by simp [newline], .inr (by simp [newline])⟩
    · obtain ⟨rest, split, inLine, border⟩ := ih
      rw [List.takeWhile_cons_of_pos (by simpa using newline)]
      refine ⟨rest, by rw [List.cons_append, ← split], ?_, border⟩
      rw [List.mem_cons, not_or]
      exact ⟨Ne.symm newline, inLine⟩

/-- Before an offset stand whole lines and then the part of its own line before it. -/
theorem exists_lineStart (inside : offset ≤ text.length) :
    ∃ inLine, text.take offset = text.take (lineStart text offset) ++ inLine ∧ Byte.newline ∉ inLine ∧
      (text.take (lineStart text offset) = [] ∨ (text.take (lineStart text offset)).getLast? = some Byte.newline) := by
  obtain ⟨rest, split, inLine, border⟩ := exists_firstLine (text.take offset).reverse
  have forward := congrArg List.reverse split
  rw [List.reverse_reverse, List.reverse_append] at forward
  have length := congrArg List.length split
  rw [List.length_reverse, List.length_take, Nat.min_eq_left inside, List.length_append] at length
  have whole : text.take (lineStart text offset) = rest.reverse := by
    have shorter : text.take (lineStart text offset) = (text.take offset).take (lineStart text offset) := by
      rw [List.take_take, Nat.min_eq_left (show lineStart text offset ≤ offset from Nat.sub_le _ _)]
    rw [shorter, forward, List.take_left' (by rw [lineStart, List.length_reverse]; omega)]
  refine ⟨_, whole ▸ forward, mt List.mem_reverse.mp inLine, ?_⟩
  rw [whole, List.reverse_eq_nil_iff, List.getLast?_reverse]
  exact border

/-- From an offset on stand the rest of its line and then the newline that ends it, or nothing. -/
theorem exists_lineEnd (text : Bytes) (offset : Nat) :
    ∃ inLine, text.drop offset = inLine ++ text.drop (lineEnd text offset) ∧ Byte.newline ∉ inLine ∧
      (text.drop (lineEnd text offset) = [] ∨ (text.drop (lineEnd text offset)).head? = some Byte.newline) := by
  obtain ⟨rest, split, inLine, border⟩ := exists_firstLine (text.drop offset)
  have behind : text.drop (lineEnd text offset) = rest := by
    rw [lineEnd, ← List.drop_drop]
    conv_lhs => arg 2; rw [split]
    exact List.drop_left
  exact ⟨_, behind ▸ split, inLine, behind ▸ border⟩

theorem lineStart_le (text : Bytes) (offset : Nat) : lineStart text offset ≤ offset := Nat.sub_le _ _

theorem le_lineEnd (text : Bytes) (offset : Nat) : offset ≤ lineEnd text offset := Nat.le_add_right _ _

private theorem findIdx?_newline (text : Bytes) : (text.findIdx? (· == Byte.newline)).getD text.length =
    (text.takeWhile (· ≠ Byte.newline)).length := by
  induction text with
  | nil => rfl
  | cons c text ih =>
    rw [List.findIdx?_cons]
    by_cases newline : c = Byte.newline
    · simp [newline]
    · rw [if_neg (by simpa using newline), List.takeWhile_cons_of_pos (by simpa using newline), List.length_cons,
        List.length_cons, ← ih]
      exact Option.getD_map ..

theorem lineEnd_eq (inside : offset ≤ text.length) :
    (nextNewline? text offset).getD text.length = lineEnd text offset := by
  have length : text.length = offset + (text.drop offset).length := by
    rw [List.length_drop]
    omega
  rw [nextNewline?, length, lineEnd, ← findIdx?_newline]
  exact Option.getD_map ..

/-- A text that ends with a newline is followed by the start of a line. -/
theorem lastStart_append {whole inLine : Bytes} (starts : whole = [] ∨ whole.getLast? = some Byte.newline)
    (unbroken : Byte.newline ∉ inLine) : Lines.lastStart (whole ++ inLine) = whole.length := by
  rw [Lines.lastStart, Lines.startsAfter_append, Lines.startsAfter_of_not_mem unbroken, List.append_nil]
  rcases starts with rfl | last
  · rfl
  · obtain ⟨front, rfl⟩ := List.getLast?_eq_some_iff.mp last
    have behind : Lines.startsAfter (0 + front.length) [Byte.newline] = [front.length + 1] := by
      rw [Nat.zero_add]
      rfl
    rw [Lines.startsAfter_append, behind, List.getLastD_concat, List.length_append, List.length_singleton]

/-- A column counts from the start of its line, and a line number the newlines before it. -/
theorem position_eq (inside : offset ≤ text.length) : (Lines.ofText text).position offset =
    ⟨offset, (text.take (lineStart text offset)).count Byte.newline + 1, offset - lineStart text offset + 1⟩ := by
  obtain ⟨inLine, split, unbroken, starts⟩ := exists_lineStart inside
  have place := Lines.position_ofText (text.take offset) (text.drop offset)
  have length : (text.take (lineStart text offset)).length = lineStart text offset := by
    rw [List.length_take, Nat.min_eq_left (Nat.le_trans (lineStart_le text offset) inside)]
  rw [List.take_append_drop, List.length_take, Nat.min_eq_left inside, Lines.length_startsAfter] at place
  rw [place, split, lastStart_append starts unbroken, length, List.count_append,
    List.count_eq_zero_of_not_mem unbroken]

/-- The pieces of a text between its newlines are its lines by their numbers. -/
theorem lines_of_pieces {before pieces after : List Bytes}
    (split : splitAt Byte.newline text = before ++ pieces ++ after) :
    (List.range' (before.length + 1) pieces.length).map (Lines.ofText text).line =
      pieces.map (trimEnd Byte.isLineEnd) := by
  apply List.ext_getElem
  · simp
  · intro index _ bound
    rw [List.length_map] at bound
    have number : before.length + 1 + 1 * index = before.length + index + 1 := by omega
    have piece : (splitAt Byte.newline text)[before.length + index]? = some pieces[index] := by
      rw [split, List.append_assoc, List.getElem?_append_right (by omega), Nat.add_sub_cancel_left,
        List.getElem?_append_left bound, List.getElem?_eq_getElem bound]
    rw [List.getElem_map, List.getElem_map, List.getElem_range', number, Lines.line_ofText, piece]
    rfl

/-- The text around two offsets: whole lines, the lines that hold them, and whole lines again. -/
theorem slice_lines (text : Bytes) (ordered : start ≤ stop) :
    text.take (lineStart text start) ++ slice text (lineStart text start) (lineEnd text stop) ++
      text.drop (lineEnd text stop) = text := by
  have around := Nat.le_trans (lineStart_le text start) (Nat.le_trans ordered (le_lineEnd text stop))
  rw [List.append_assoc, slice_append_drop _ around, List.take_append_drop]

/-- The newlines before the line of the second offset are those before the line of the
first and those between. -/
theorem count_newlines (ordered : start ≤ stop) (inside : stop ≤ text.length) :
    (text.take (lineStart text stop)).count Byte.newline = (text.take (lineStart text start)).count Byte.newline +
      (slice text (lineStart text start) (lineEnd text stop)).count Byte.newline := by
  obtain ⟨before, splitBefore, unbrokenBefore, -⟩ := exists_lineStart inside
  obtain ⟨behind, splitBehind, unbrokenBehind, -⟩ := exists_lineEnd text stop
  have whole := congrArg (List.count Byte.newline) (slice_lines text ordered)
  have halves := congrArg (List.count Byte.newline) (List.take_append_drop stop text)
  rw [splitBefore, splitBehind] at halves
  simp only [List.count_append, List.count_eq_zero_of_not_mem unbrokenBefore,
    List.count_eq_zero_of_not_mem unbrokenBehind] at whole halves
  omega

/-- The lines from one offset to another by their numbers are the pieces of the text
from the start of the first line to the end of the last. -/
theorem lines_between (ordered : start ≤ stop) (inside : stop ≤ text.length) :
    let first := ((Lines.ofText text).position start).line
    let last := ((Lines.ofText text).position stop).line
    first ≤ last ∧ (List.range' first (last - first + 1)).map (Lines.ofText text).line =
      (splitAt Byte.newline (slice text (lineStart text start) (lineEnd text stop))).map (trimEnd Byte.isLineEnd) := by
  obtain ⟨_, _, _, starts⟩ := exists_lineStart (Nat.le_trans ordered inside)
  obtain ⟨_, _, _, ends⟩ := exists_lineEnd text stop
  obtain ⟨before, after, split, length⟩ :=
    splitAt_between (slice text (lineStart text start) (lineEnd text stop)) starts ends
  rw [slice_lines text ordered] at split
  have lines := lines_of_pieces split
  have newlines := count_newlines ordered inside
  rw [length_splitAt, length] at lines
  rw [position_eq inside, position_eq (Nat.le_trans ordered inside), newlines]
  dsimp only
  refine ⟨by omega, ?_⟩
  rw [show ∀ m n : Nat, m + n + 1 - (m + 1) = n by omega]
  exact lines

end Around
end Allman
