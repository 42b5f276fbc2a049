import Allman.Proofs.Respacing
import Allman.Proofs.ScannedLayout
import Allman.Outline

/-! Where the items of a layout stand in its text, and what the outline of the text
says about them. Token and gap number `index` follow one another from the offset
`reach items index` on. -/

namespace Allman
open Region

/-- The offset at which the gap before a token starts. -/
def reach (items : List Item) (index : Nat) : Nat := (woven (items.take index) []).length

/-- The gap before a token, or the last gap where there is no such token. -/
def gapAt (items : List Item) (last : Bytes) (index : Nat) : Bytes := (items[index]?.map Item.gap).getD last

abbrev outlineOf (items : List Item) (last : Bytes) : Outline := Outline.ofText (woven items last)

def Item.token (offset : Nat) (item : Item) : Token :=
  ⟨item.kind, offset + item.gap.length, offset + item.gap.length + item.bytes.length, item.bytes⟩

theorem woven_append (items more : List Item) (last : Bytes) :
    woven (items ++ more) last = woven items [] ++ woven more last := by
  induction items with
  | nil => rfl
  | cons item items ih => simp [woven, ih]

theorem woven_cons (item : Item) (items : List Item) (last : Bytes) :
    woven (item :: items) last = item.gap ++ (item.bytes ++ woven items last) := by
  simp [woven]

section Reach
variable {items : List Item} {last : Bytes} {index : Nat} {item : Item}

theorem woven_take_drop (items : List Item) (last : Bytes) (index : Nat) :
    woven items last = woven (items.take index) [] ++ woven (items.drop index) last := by
  rw [← woven_append, List.take_append_drop]

theorem drop_reach (items : List Item) (last : Bytes) (index : Nat) :
    (woven items last).drop (reach items index) = woven (items.drop index) last := by
  rw [woven_take_drop items last index, reach, List.drop_left]

theorem take_reach (items : List Item) (last : Bytes) (index : Nat) :
    (woven items last).take (reach items index) = woven (items.take index) [] := by
  rw [woven_take_drop items last index, reach, List.take_left]

theorem woven_drop (found : items[index]? = some item) :
    woven (items.drop index) last = item.gap ++ (item.bytes ++ woven (items.drop (index + 1)) last) := by
  obtain ⟨below, rfl⟩ := List.getElem?_eq_some_iff.mp found
  rw [List.drop_eq_getElem_cons below, woven_cons]

theorem gapAt_eq (found : items[index]? = some item) : gapAt items last index = item.gap := by
  rw [gapAt, found]
  rfl

theorem reach_succ (found : items[index]? = some item) :
    reach items (index + 1) = reach items index + item.gap.length + item.bytes.length := by
  rw [reach, List.take_add_one, found, woven_append, List.length_append, ← reach]
  simp [woven, Nat.add_assoc]

theorem reach_mono (items : List Item) {first second : Nat} (ordered : first ≤ second) :
    reach items first ≤ reach items second := by
  have split : items.take first = (items.take second).take first := by
    rw [List.take_take, Nat.min_eq_left ordered]
  rw [reach, split, reach, woven_take_drop (items.take second) [] first, List.length_append]
  exact Nat.le_add_right _ _

theorem reach_le_length (items : List Item) (last : Bytes) (index : Nat) :
    reach items index ≤ (woven items last).length := by
  rw [woven_take_drop items last index, List.length_append]
  exact Nat.le_add_right _ _

theorem getElem?_placed (offset : Nat) (items : List Item) (index : Nat) :
    (placed offset items)[index]? = items[index]?.map (Item.token (offset + reach items index)) := by
  induction items generalizing offset index with
  | nil => rfl
  | cons item items ih =>
    cases index with
    | zero => rfl
    | succ index =>
      have length : reach (item :: items) (index + 1) = item.gap.length + item.bytes.length + reach items index := by
        simp [reach, woven, Nat.add_assoc]
      simp only [placed, List.getElem?_cons_succ, ih, length, Nat.add_assoc]

private theorem length_placed (offset : Nat) (items : List Item) : (placed offset items).length = items.length := by
  induction items generalizing offset with
  | nil => rfl
  | cons item items ih => rw [placed, List.length_cons, ih, List.length_cons]

theorem Reads.at {line : Bool} (reads : Reads line items last) (found : items[index]? = some item) :
    Gap (item.bytes ++ woven (items.drop (index + 1)) last) item.gap ∧
    Stands (lineAfter line (woven (items.take index) [] ++ item.gap)) item.kind item.bytes
      (woven (items.drop (index + 1)) last) := by
  induction items generalizing line index with
  | nil => cases found
  | cons first rest ih =>
    obtain ⟨isGap, stands, later⟩ := reads
    cases index with
    | zero =>
      cases found
      exact ⟨isGap, stands⟩
    | succ index =>
      obtain ⟨isGap', stands'⟩ := ih later found
      rw [← lineAfter_append] at stands'
      exact ⟨isGap', by simpa [woven] using stands'⟩

end Reach

/-- A token with another one behind it in its line ends with a byte that is no space. -/
theorem Stands.ends_solid {line : Bool} {kind : TokenKind} {bytes gap tail : Bytes} {c : UInt8}
    (stands : Stands line kind bytes (gap ++ c :: tail)) (solid : Byte.isSpace c = false)
    (inLine : hasNewline gap = false) : ∃ d, bytes.getLast? = some d ∧ Byte.isSpace d = false := by
  have quoted : ∀ {region}, region ≠ RegionKind.code → Opens region bytes (gap ++ c :: tail) →
      ∃ d, bytes.getLast? = some d ∧ Byte.isSpace d = false := by
    intro region passage opens
    rcases opens.ending passage with finished | ⟨-, closed⟩ | ⟨starts, -⟩
    · simp at finished
    · exact closed
    · rw [startsLineBreak_gap inLine solid] at starts
      cases starts
  generalize whole : gap ++ c :: tail = after at stands quoted
  cases stands with
  | string opens => exact quoted (by decide) opens
  | character opens => exact quoted (by decide) opens
  | directive _ directive =>
    obtain ⟨inner, rfl, -⟩ := directive.newline_before solid whole.symm
    simp [hasNewline] at inLine
  | @plain _ e rest _ firstSolid _ _ spells =>
    rcases List.eq_nil_or_concat rest with rfl | ⟨front, d, rfl⟩
    · exact ⟨e, rfl, firstSolid⟩
    · refine ⟨d, by simp [List.getLast?_cons], Bool.eq_false_iff.mpr fun space => ?_⟩
      have goesOn := spells.goesOn d (by simp)
      rw [startsAnew_of_isSpace space] at goesOn
      cases goesOn

private theorem Stands.newline_of_directive {line : Bool} {bytes gap tail : Bytes} {c : UInt8}
    (stands : Stands line .directive bytes (gap ++ c :: tail)) (solid : Byte.isSpace c = false) :
    hasNewline gap = true := by
  generalize whole : gap ++ c :: tail = after at stands
  cases stands with
  | directive _ directive =>
    obtain ⟨inner, rfl, -⟩ := directive.newline_before solid whole.symm
    simp [hasNewline]
  | plain _ _ _ spells => exact absurd (by simp) spells.kind_ne

theorem lineAfter_of_getLast? {bytes : Bytes} {c : UInt8} (ends : bytes.getLast? = some c)
    (solid : Byte.isSpace c = false) (line : Bool) : lineAfter line bytes = false := by
  obtain ⟨front, rfl⟩ := List.getLast?_eq_some_iff.mp ends
  rw [lineAfter_append, lineAfter_solid solid, lineAfter_nil]

private theorem lineAfter_false {bytes : Bytes} (inLine : hasNewline bytes = false) :
    lineAfter false bytes = false := by
  induction bytes with
  | nil => rfl
  | cons c bytes ih =>
    rw [← List.singleton_append, hasNewline_append, Bool.or_eq_false_iff] at inLine
    have first : c ≠ Byte.newline := by
      rintro rfl
      cases inLine.1
    change lineAfter (c == Byte.newline || false && Byte.isBlank c) bytes = false
    rw [beq_eq_false_iff_ne.mpr first]
    exact ih inLine.2

section Outline
variable {items : List Item} {last : Bytes} {index : Nat} {item next : Item}

theorem Reads.token (reads : Reads true items last) (index : Nat) :
    (outlineOf items last).tokens[index]? = items[index]?.map (Item.token (reach items index)) := by
  have tokens : (outlineOf items last).tokens = (placed 0 items).toArray :=
    congrArg List.toArray reads.scan_eq
  rw [tokens, List.getElem?_toArray, getElem?_placed, Nat.zero_add]

theorem Reads.size_eq (reads : Reads true items last) : (outlineOf items last).size = items.length := by
  have tokens : (outlineOf items last).tokens = (placed 0 items).toArray :=
    congrArg List.toArray reads.scan_eq
  rw [Outline.size, tokens, List.size_toArray, length_placed]

theorem Reads.is_iff (reads : Reads true items last) (index : Nat) (kind : TokenKind) :
    (outlineOf items last).is index kind = true ↔ ∃ item, items[index]? = some item ∧ item.kind = kind := by
  rw [Outline.is, beq_iff_eq, Outline.kind?, reads.token, Option.map_map, Option.map_eq_some_iff]
  rfl

theorem slice_gap (found : items[index]? = some item) :
    slice (woven items last) (reach items index) (reach items index + item.gap.length) = item.gap := by
  rw [slice, drop_reach, woven_drop found, Nat.add_sub_cancel_left, List.take_left]

theorem slice_item (found : items[index]? = some item) :
    slice (woven items last) (reach items index) (reach items (index + 1)) = item.gap ++ item.bytes := by
  rw [slice, drop_reach, woven_drop found, reach_succ found, Nat.add_assoc, Nat.add_sub_cancel_left,
    ← List.append_assoc, List.take_left' (List.length_append ..)]

theorem take_start (found : items[index]? = some item) :
    (woven items last).take (reach items index + item.gap.length) = woven (items.take index) [] ++ item.gap := by
  rw [List.take_add, take_reach, drop_reach, woven_drop found, List.take_left]

theorem Reads.gap_eq (reads : Reads true items last) (found : items[index]? = some item)
    (found' : items[index + 1]? = some next) :
    (outlineOf items last).gap index (index + 1) = gapAt items last (index + 1) := by
  have stop : (item.token (reach items index)).stop = reach items (index + 1) := (reach_succ found).symm
  rw [Outline.gap, reads.token, reads.token, found, found', Option.map_some, Option.map_some]
  simp only [stop]
  rw [gapAt_eq found']
  exact slice_gap found'

private theorem Reads.stands_before (reads : Reads true items last) (found : items[index]? = some item)
    (found' : items[index + 1]? = some next) :
    ∃ line c tail, Stands line item.kind item.bytes (next.gap ++ c :: tail) ∧ Byte.isSpace c = false := by
  obtain ⟨-, stands⟩ := reads.at found
  obtain ⟨-, stands'⟩ := reads.at found'
  obtain ⟨c, rest, first, solid⟩ := stands'.solid
  rw [woven_drop found', first, List.cons_append] at stands
  exact ⟨_, _, _, stands, solid⟩

theorem Reads.kind_ne_directive (reads : Reads true items last) (found : items[index]? = some item)
    (found' : items[index + 1]? = some next) (inLine : hasNewline next.gap = false) : item.kind ≠ .directive := by
  obtain ⟨line, c, tail, stands, solid⟩ := reads.stands_before found found'
  intro directive
  rw [directive] at stands
  rw [stands.newline_of_directive solid] at inLine
  cases inLine

/-- What stands before a token in its line ends with a byte that is no space, but for the gap. -/
theorem Reads.getLast?_before (reads : Reads true items last) (found : items[index]? = some item)
    (found' : items[index + 1]? = some next) (inLine : hasNewline next.gap = false) :
    ∃ d, (woven (items.take (index + 1)) []).getLast? = some d ∧ Byte.isSpace d = false := by
  obtain ⟨line, c, tail, stands, solid⟩ := reads.stands_before found found'
  obtain ⟨d, ends, solid'⟩ := stands.ends_solid solid inLine
  refine ⟨d, ?_, solid'⟩
  rw [List.take_add_one, found, woven_append]
  simp [woven, ends]

theorem Reads.startsLine_eq_false (reads : Reads true items last) (found : items[index]? = some item)
    (found' : items[index + 1]? = some next) (inLine : hasNewline next.gap = false) :
    startsLine (woven items last) (reach items (index + 1) + next.gap.length) = false := by
  obtain ⟨d, ends, solid⟩ := reads.getLast?_before found found' inLine
  rw [startsLine_eq, take_start found', lineAfter_append, lineAfter_of_getLast? ends solid, lineAfter_false inLine]

theorem Reads.previousCode?_eq (reads : Reads true items last) (found : items[index]? = some item)
    (found' : items[index + 1]? = some next) (inLine : hasNewline next.gap = false) :
    (outlineOf items last).previousCode? (index + 1) = some index := by
  have code := reads.kind_ne_directive found found' inLine
  rw [Outline.previousCode?, previousCode?, reads.token, found]
  simp [Item.token, code]

end Outline

end Allman
