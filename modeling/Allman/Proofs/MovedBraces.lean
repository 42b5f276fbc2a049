import Allman.Proofs.CleanText
import Allman.Proofs.Indentation

/-! A misplaced brace told from the layout alone. Whether a brace is at fault depends
on its role and the gap before it. The text suggested for it depends on the end of
its line and on the margin before the token that its block belongs to, and how many
blanks it takes with it depends on the gap behind it. -/

namespace Allman
open Region

namespace Outline

/-- The token whose line the block of a brace belongs to. -/
def owner (outline : Outline) (index : Nat) : Nat :=
  match outline.previousCode? index with
  | none => index
  | some close =>
    match if outline.is close .rightParen then outline.brackets.opener? close else none with
    | none => index
    | some first =>
      match outline.previousCode? first with
      | some word => if outline.is word .identifier then word else first
      | none => first

theorem Agrees.owner {outline other : Outline} (agrees : Agrees outline other) (index : Nat) :
    outline.owner index = other.owner index := by
  simp only [Outline.owner, agrees.previousCode?, agrees.is, agrees.brackets]

private theorem exists_token_of_lt {outline : Outline} {index later : Nat} {token : Token} (before : index < later)
    (found : outline.tokens[later]? = some token) : ∃ token, outline.tokens[index]? = some token := by
  have below := (Array.getElem?_eq_some_iff.mp found).1
  exact ⟨_, Array.getElem?_eq_getElem (Nat.lt_trans before below)⟩

theorem owningLine_eq {outline : Outline} {index : Nat} {brace : Token}
    (found : outline.tokens[index]? = some brace) : ∃ token, outline.tokens[outline.owner index]? = some token ∧
      outline.owningLine index brace = (outline.position token).line := by
  cases precedes : outline.previousCode? index with
  | none => exact ⟨brace, by simp [owner, precedes, found], by simp [owningLine, precedes]⟩
  | some close =>
  cases opened : if outline.is close .rightParen then outline.brackets.opener? close else none with
  | none => exact ⟨brace, by simp only [owner, precedes, opened, found], by simp only [owningLine, precedes, opened]⟩
  | some first =>
    have pair : outline.brackets.opener? close = some first := by
      split at opened
      · exact opened
      · cases opened
    obtain ⟨-, last, present⟩ := previousCode?_some precedes
    obtain ⟨paren, at_⟩ := exists_token_of_lt (Brackets.opener?_lt pair) present
    cases leads : outline.previousCode? first with
    | none =>
      exact ⟨paren, by simp only [owner, precedes, opened, leads, at_],
        by simp only [owningLine, precedes, opened, leads, at_, Option.bind_none]⟩
    | some before =>
      obtain ⟨-, word, named⟩ := previousCode?_some leads
      have identifier : outline.is before .identifier = true ↔ word.kind = .identifier := by simp [is, kind?, named]
      simp only [owner, owningLine, precedes, opened, leads, Option.bind_some, named, at_, identifier]
      split
      · exact ⟨word, named, rfl⟩
      · exact ⟨paren, at_, rfl⟩

/-- What a violation at a brace says. -/
theorem checkBrace?_eq_some {outline : Outline} {index : Nat} {violation : Violation}
    (violates : outline.checkBrace? index = some violation) : ∃ brace, outline.tokens[index]? = some brace ∧
      violation.site = brace.start ∧ violation.stop = absorbBlanks outline.text brace.stop ∧
      violation.suggested = lineBreakAfter outline.text brace.start ++
        (outline.lines.line (outline.owningLine index brace)).takeWhile Byte.isBlank ++ [Byte.leftBrace] := by
  unfold checkBrace? at violates
  split at violates
  next brace previous found _ =>
    split at violates
    · cases violates
    · cases violates
      exact ⟨brace, found, rfl, rfl, rfl⟩
  next => cases violates

end Outline

/-- The blanks at the start of a gap, if they end a line or, where nothing follows, the text. -/
def trailingBlanks (gap : Bytes) (ended : Bool) : Bytes :=
  if (gap.dropWhile Byte.isBlank).isEmpty && ended || startsLineBreak (gap.dropWhile Byte.isBlank) then
    gap.takeWhile Byte.isBlank
  else []

theorem absorbBlanks_eq {text gap tail : Bytes} {offset : Nat} (behind : text.drop offset = gap ++ tail)
    (ends : tail = [] ∨ ∃ c rest, tail = c :: rest ∧ Byte.isSpace c = false) :
    Outline.absorbBlanks text offset = offset + (trailingBlanks gap tail.isEmpty).length := by
  have notBlank : tail.head?.any Byte.isBlank = false := by
    rcases ends with rfl | ⟨c, rest, rfl, solid⟩
    · rfl
    · exact (isBlank_of_isSpace_eq_false solid).2
  obtain ⟨taken, dropped⟩ := @dropWhile_append_of_head Byte.isBlank gap tail notBlank
  have broken : startsLineBreak (gap.dropWhile Byte.isBlank ++ tail) =
      startsLineBreak (gap.dropWhile Byte.isBlank) := by
    rcases ends with rfl | ⟨c, rest, rfl, solid⟩
    · rw [List.append_nil]
    · rw [Bool.eq_iff_iff]
      constructor
      · intro starts
        exact startsLineBreak_of_append starts (startsLineBreak_solid solid rest)
      · intro starts
        exact startsLineBreak_append starts _
  have empty : (gap.dropWhile Byte.isBlank ++ tail).isEmpty =
      ((gap.dropWhile Byte.isBlank).isEmpty && tail.isEmpty) := by
    cases gap.dropWhile Byte.isBlank <;> rfl
  simp only [Outline.absorbBlanks, trailingBlanks, behind, taken, dropped, broken, empty]
  split <;> rfl

def indentAt (items : List Item) (last : Bytes) (index : Nat) : Bytes :=
  indentOf (woven (items.take index) [] ++ gapAt items last index)

section Braces
variable {items : List Item} {last : Bytes} {index : Nat} {item : Item} {violation : Violation} {token : Token}

theorem Reads.indent_eq (reads : Reads true items last) (found : (outlineOf items last).tokens[index]? = some token) :
    ((outlineOf items last).lines.line ((outlineOf items last).position token).line).takeWhile Byte.isBlank =
      indentAt items last index := by
  rw [reads.token, Option.map_eq_some_iff] at found
  obtain ⟨item, found, rfl⟩ := found
  obtain ⟨-, stands⟩ := reads.at found
  obtain ⟨c, more, bytes, solid⟩ := stands.solid
  have whole : woven items last = (woven (items.take index) [] ++ item.gap) ++
      c :: (more ++ woven (items.drop (index + 1)) last) := by
    rw [woven_take_drop items last index, woven_drop found, bytes, List.append_assoc]
    rfl
  have start : (item.token (reach items index)).start = (woven (items.take index) [] ++ item.gap).length := by
    rw [List.length_append]
    rfl
  have lines : (outlineOf items last).lines = Lines.ofText (woven items last) := rfl
  rw [Outline.position, lines, start, whole, Lines.indent_eq _ solid, indentAt, gapAt_eq found]

/-- The text suggested for a brace. -/
theorem MisplacedBrace.suggested_eq (brace : MisplacedBrace items last index violation)
    (reads : Reads true items last) :
    violation.suggested = lineBreakOf (Byte.leftBrace :: woven (items.drop (index + 1)) last) ++
      indentAt items last ((outlineOf items last).owner index) ++ [Byte.leftBrace] := by
  obtain ⟨braced, found, -, -, suggested⟩ := Outline.checkBrace?_eq_some brace.violates
  obtain ⟨token, owned, line⟩ := Outline.owningLine_eq found
  have item := brace.item reads
  have start : braced.start = reach items index + (gapAt items last index).length := by
    rw [reads.token, item, Option.map_some, Option.some_inj] at found
    rw [← found]
    rfl
  have here := @getElem?_site items last index _ item _ rfl
  have whole : (outlineOf items last).text = woven items last := rfl
  rw [suggested, line, reads.indent_eq owned, whole, start, lineBreakAfter_eq here (by decide), ← List.drop_drop,
    drop_reach, woven_drop item, List.drop_left]
  rfl

/-- The blanks that a brace takes with it. -/
theorem MisplacedBrace.absorbed_eq (brace : MisplacedBrace items last index violation) (reads : Reads true items last) :
    violation.stop - (violation.site + 1) =
      (trailingBlanks (gapAt items last (index + 1)) (index + 1 = items.length)).length := by
  obtain ⟨braced, found, site, stop, -⟩ := Outline.checkBrace?_eq_some brace.violates
  have item := brace.item reads
  rw [reads.token, item, Option.map_some, Option.some_inj] at found
  have behind : braced.stop = reach items (index + 1) := by
    rw [← found]
    exact (reach_succ item).symm
  have length : braced.stop = braced.start + 1 := by
    rw [← found]
    rfl
  have below : index + 1 ≤ items.length := (List.getElem?_eq_some_iff.mp item).1
  obtain ⟨tail, after, ends⟩ := reads.drop_eq_gapAt below
  have ended : tail.isEmpty = decide (index + 1 = items.length) := by
    rcases ends with ⟨rfl, ended⟩ | ⟨c, rest, rfl, -⟩
    · simp [ended]
    · refine (decide_eq_false fun ended => ?_).symm
      rw [ended, List.drop_length, gapAt, List.getElem?_eq_none (Nat.le_refl _)] at after
      simp [woven] at after
  have rest := (drop_reach items last (index + 1)).trans after
  rw [← behind] at rest
  have absorbed := absorbBlanks_eq rest (ends.imp And.left id)
  have whole : (outlineOf items last).text = woven items last := rfl
  rw [stop, site, whole, absorbed, ended]
  omega

/-- A brace is at fault if it opens a block and follows a token in its line. -/
theorem Reads.checkBrace?_isSome_iff (reads : Reads true items last) :
    ((outlineOf items last).checkBrace? index).isSome = true ↔
      0 < index ∧ (outlineOf items last).is index .leftBrace = true ∧
        (outlineOf items last).role? index = some .block ∧ hasNewline (gapAt items last index) = false := by
  constructor
  · intro fault
    obtain ⟨violation, violates⟩ := Option.isSome_iff_exists.mp fault
    have brace := reads.misplacedBrace violates
    obtain ⟨before, -, rfl, -⟩ := brace.previous
    exact ⟨Nat.succ_pos _, (reads.is_iff _ _).mpr brace.brace, brace.role, brace.inLine⟩
  · rintro ⟨positive, is, role, inLine⟩
    obtain ⟨before, rfl⟩ := Nat.exists_eq_succ_of_ne_zero (Nat.ne_of_gt positive)
    obtain ⟨item, found, kind⟩ := (reads.is_iff _ _).mp is
    have below := (List.getElem?_eq_some_iff.mp found).1
    rw [gapAt_eq found] at inLine
    exact reads.checkBrace?_isSome (List.getElem?_eq_getElem (Nat.lt_of_succ_lt below)) found kind role inLine

end Braces
end Allman
