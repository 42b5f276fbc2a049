import Allman.Proofs.CommutingRules

/-! Texts whose lines end with a carriage return and a newline. A fix makes new lines
only where it moves a brace, and it takes their line breaks from the text behind the
brace. So such a text keeps its line ends unless no line ends behind the brace: then the
brace gets a newline alone, however the lines before it end. -/

namespace Allman
open Region

/-- Every newline of a text has a carriage return right before it. -/
def CrLf (text : Bytes) : Prop :=
  ∀ before rest, text = before ++ Byte.newline :: rest → before.getLast? = some Byte.carriageReturn

/-- Every newline has a carriage return right before it, where `returned` tells whether
one stands right before the text. -/
def CrLfAfter (returned : Bool) : Bytes → Prop
  | [] => True
  | c :: rest => (c = Byte.newline → returned = true) ∧ CrLfAfter (c == Byte.carriageReturn) rest

def returnedAfter (returned : Bool) (bytes : Bytes) : Bool :=
  bytes.foldl (fun _ c => c == Byte.carriageReturn) returned

section Returns
variable {returned : Bool} {text first second gap : Bytes}

private theorem returnedAfter_append (returned : Bool) (first second : Bytes) :
    returnedAfter returned (first ++ second) = returnedAfter (returnedAfter returned first) second :=
  List.foldl_append

private theorem returnedAfter_concat (returned : Bool) (bytes : Bytes) (c : UInt8) :
    returnedAfter returned (bytes ++ [c]) = (c == Byte.carriageReturn) :=
  returnedAfter_append returned bytes [c]

private theorem returnedAfter_eq_of_ne_nil (solid : text ≠ []) (returned other : Bool) :
    returnedAfter returned text = returnedAfter other text := by
  match text with
  | c :: rest => rfl

private theorem returnedAfter_false_iff :
    returnedAfter false text = true ↔ text.getLast? = some Byte.carriageReturn := by
  rcases List.eq_nil_or_concat text with rfl | ⟨front, c, rfl⟩
  · simp [returnedAfter]
  · rw [List.concat_eq_append, returnedAfter_concat, List.getLast?_concat, beq_iff_eq, Option.some_inj]

private theorem crLfAfter_append :
    CrLfAfter returned (first ++ second) ↔ CrLfAfter returned first ∧ CrLfAfter (returnedAfter returned first) second := by
  induction first generalizing returned with
  | nil => simp [CrLfAfter, returnedAfter]
  | cons c first ih =>
    rw [List.cons_append, CrLfAfter, CrLfAfter, ih, and_assoc]
    rfl

private theorem crLfAfter_iff : CrLfAfter returned text ↔
    ∀ before rest, text = before ++ Byte.newline :: rest → returnedAfter returned before = true := by
  constructor
  · rintro crlf before rest rfl
    exact (crLfAfter_append.mp crlf).2.1 rfl
  · intro crlf
    induction text generalizing returned with
    | nil => trivial
    | cons c text ih =>
      refine ⟨?_, ?_⟩
      · rintro rfl
        exact crlf [] text rfl
      · apply ih
        rintro before rest rfl
        exact crlf (c :: before) rest rfl

private theorem crLf_iff : CrLf text ↔ CrLfAfter false text := by
  simp only [CrLf, crLfAfter_iff, returnedAfter_false_iff]

instance decidableCrLfAfter : (returned : Bool) → (text : Bytes) → Decidable (CrLfAfter returned text)
  | _, [] => inferInstanceAs (Decidable True)
  | returned, c :: rest =>
    have := decidableCrLfAfter (c == Byte.carriageReturn) rest
    inferInstanceAs (Decidable ((c = Byte.newline → returned = true) ∧ CrLfAfter (c == Byte.carriageReturn) rest))

instance (text : Bytes) : Decidable (CrLf text) := decidable_of_iff' _ crLf_iff

/-- Only a newline asks what stands before a text. -/
theorem crLfAfter_congr (ahead : text.head? ≠ some Byte.newline) (returned other : Bool) :
    CrLfAfter returned text ↔ CrLfAfter other text := by
  match text with
  | [] => exact Iff.rfl
  | c :: rest =>
    have first : c ≠ Byte.newline := by simpa using ahead
    simp only [CrLfAfter, first, false_imp_iff, true_and]

private theorem crLfAfter_inLine (inLine : hasNewline gap = false) (returned : Bool) : CrLfAfter returned gap := by
  induction gap generalizing returned with
  | nil => trivial
  | cons c gap ih =>
    obtain ⟨first, later⟩ := hasNewline_cons inLine
    exact ⟨fun newline => absurd newline first, ih later _⟩

theorem hasNewline_blanks {blanks : Bytes} (blank : blanks.all Byte.isBlank = true) : hasNewline blanks = false := by
  rw [hasNewline, List.contains_eq_mem, decide_eq_false_iff_not]
  intro member
  exact absurd (List.all_eq_true.mp blank _ member) (by decide)

/-- Blanks at the start of a text may go. -/
theorem CrLfAfter.strip {blanks : Bytes} (crlf : CrLfAfter returned (blanks ++ text))
    (blank : blanks.all Byte.isBlank = true) : CrLfAfter returned text := by
  obtain ⟨-, crlf⟩ := crLfAfter_append.mp crlf
  rcases List.eq_nil_or_concat blanks with rfl | ⟨front, c, rfl⟩
  · exact crlf
  · have last : (c == Byte.carriageReturn) = false := by
      rw [beq_eq_false_iff_ne]
      rintro rfl
      simp +decide at blank
    rw [List.concat_eq_append, returnedAfter_concat, last] at crlf
    have ahead : text.head? ≠ some Byte.newline := by
      intro head
      obtain ⟨rest, rfl⟩ := List.head?_eq_some_iff.mp head
      cases crlf.1 rfl
    exact (crLfAfter_congr ahead _ _).mp crlf

/-- The first line break of such a text is a carriage return with its newline, if there is one. -/
theorem CrLfAfter.lineBreakOf_eq (crlf : CrLfAfter returned text) (ahead : text.head? ≠ some Byte.newline) :
    lineBreakOf text =
      if hasNewline text then [Byte.carriageReturn, Byte.newline] else [Byte.newline] := by
  induction text generalizing returned with
  | nil => rfl
  | cons c rest ih =>
    have first : c ≠ Byte.newline := by simpa using ahead
    have longer : hasNewline (c :: rest) = hasNewline rest := by simp [hasNewline, Ne.symm first]
    rw [lineBreakOf, if_neg first, longer]
    by_cases second : rest.head? = some Byte.newline
    · obtain ⟨rest, rfl⟩ := List.head?_eq_some_iff.mp second
      have carriage : c = Byte.carriageReturn := by simpa using crlf.2.1 rfl
      simp [carriage, startsCrLf, hasNewline]
    · rw [startsCrLf_of_not_newline second, ih crlf.2 second]
      rfl

end Returns

section Layouts
variable {items : List Item} {last : Bytes} {index : Nat} {item : Item} {violation : Violation} {chosen : Rule → Bool}

private theorem Reads.head?_bytes {line : Bool} (reads : Reads line items last)
    (found : items[index]? = some item) : item.bytes ≠ [] ∧ item.bytes.head? ≠ some Byte.newline := by
  obtain ⟨c, rest, first, solid⟩ := (reads.at found).2.solid
  rw [first]
  exact ⟨List.cons_ne_nil _ _, by simpa using (isBlank_of_isSpace_eq_false solid).1⟩

/-- The line ends of a text are those of its gaps and those inside its tokens. What stands
before a token does not matter to the token, as no token starts with a newline. -/
theorem Reads.crLfAfter_iff {line returned : Bool} (reads : Reads line items last) :
    CrLfAfter returned (woven items last) ↔
      (∀ index, index ≤ items.length →
        CrLfAfter (returnedAfter returned (woven (items.take index) [])) (gapAt items last index)) ∧
      ∀ item ∈ items, CrLfAfter false item.bytes := by
  induction items generalizing line returned with
  | nil => simp [woven, gapAt, returnedAfter]
  | cons item items ih =>
    obtain ⟨-, solid⟩ := @Reads.head?_bytes _ _ 0 _ _ reads rfl
    have bytes := crLfAfter_congr solid (returnedAfter returned item.gap) false
    have shift : ∀ index, returnedAfter returned (woven ((item :: items).take (index + 1)) []) =
        returnedAfter (returnedAfter returned (item.gap ++ item.bytes)) (woven (items.take index) []) :=
      fun index => returnedAfter_append _ _ _
    rw [woven, crLfAfter_append, crLfAfter_append, bytes, ih reads.2.2, List.forall_mem_cons]
    constructor
    · rintro ⟨⟨gap, token⟩, gaps, tokens⟩
      refine ⟨fun index within => ?_, token, tokens⟩
      cases index with
      | zero => exact gap
      | succ index =>
        rw [shift]
        exact gaps index (Nat.le_of_succ_le_succ within)
    · rintro ⟨gaps, token, tokens⟩
      refine ⟨⟨gaps 0 (Nat.zero_le _), token⟩, fun index within => ?_, tokens⟩
      rw [← shift]
      exact gaps (index + 1) (Nat.succ_le_succ within)

/-- Fixing changes no token, so it changes no byte that a gap follows. -/
theorem Reads.returnedAfter_retouched (reads : Reads true items last) (within : index ≤ items.length) :
    returnedAfter false (woven ((retouchedItems chosen items last).take index) []) =
      returnedAfter false (woven (items.take index) []) := by
  cases index with
  | zero => rfl
  | succ index =>
    have found := List.getElem?_eq_getElem (Nat.lt_of_succ_le within)
    obtain ⟨solid, -⟩ := reads.head?_bytes found
    rw [List.take_add_one, List.take_add_one, getElem?_retouchedItems found, found, woven_append, woven_append]
    simp only [Option.toList_some, woven, List.append_nil, returnedAfter_append]
    exact returnedAfter_eq_of_ne_nil solid _ _

/-- A fixed text ends its lines as it should if each of its gaps does. -/
theorem Reads.crLf_retouched_iff (reads : Reads true items last) (crlf : CrLfAfter false (woven items last)) :
    CrLfAfter false (woven (retouchedItems chosen items last) (retouchedLast chosen items last)) ↔
      ∀ index, index ≤ items.length → CrLfAfter (returnedAfter false (woven (items.take index) []))
        ((outlineOf items last).retouch chosen index (gapAt items last index)) := by
  have tokens : ∀ item ∈ retouchedItems chosen items last, CrLfAfter false item.bytes := by
    intro item member
    obtain ⟨index, found⟩ := List.mem_iff_getElem?.mp member
    rw [retouchedItems, List.getElem?_mapIdx, Option.map_eq_some_iff] at found
    obtain ⟨old, found, rfl⟩ := found
    exact (reads.crLfAfter_iff.mp crlf).2 old (List.mem_of_getElem? found)
  rw [((reads.respaced chosen).reads reads).1.crLfAfter_iff, length_retouchedItems, and_iff_left tokens]
  refine forall_congr' fun index => forall_congr' fun within => ?_
  rw [reads.returnedAfter_retouched within, gapAt_retouched_le within]

/-- Where a brace is moved, its gap ends its line as the text does if a line ends behind
the brace, or by chance if a carriage return is left before the new line. -/
theorem MisplacedBrace.crLf_iff (brace : MisplacedBrace items last index violation) (reads : Reads true items last)
    (crlf : CrLfAfter false (woven items last)) :
    CrLfAfter (returnedAfter false (woven (items.take index) []))
        (trimEnd Byte.isBlank (gapAt items last index) ++ violation.suggested.dropLast) ↔
      hasNewline ((woven items last).drop violation.site) = true ∨
        ((woven items last).take violation.start).getLast? = some Byte.carriageReturn := by
  have behind : (woven items last).drop violation.site =
      Byte.leftBrace :: woven (items.drop (index + 1)) last := by
    rw [brace.site, ← List.drop_drop, drop_reach, woven_drop (brace.item reads), List.drop_left]
    rfl
  have before : (woven items last).take violation.start =
      woven (items.take index) [] ++ trimEnd Byte.isBlank (gapAt items last index) := by
    rw [← take_append_slice _ brace.reach_le_start, take_reach, brace.slice_start]
  have later := crlf
  rw [← List.take_append_drop violation.site (woven items last), crLfAfter_append, behind] at later
  have inLine : hasNewline (trimEnd Byte.isBlank (gapAt items last index)) = false := by
    obtain ⟨blanks, split, -⟩ := exists_trimEnd Byte.isBlank (gapAt items last index)
    have whole := brace.inLine
    rw [split, hasNewline_append, Bool.or_eq_false_iff] at whole
    exact whole.1
  have indent (place : Nat) : hasNewline (indentAt items last place) = false := by
    rw [indentAt, indentOf, Lines.margin_eq]
    exact hasNewline_blanks List.all_takeWhile
  rw [brace.suggested_eq reads, List.dropLast_concat, later.2.lineBreakOf_eq (by simp +decide), behind, before,
    ← returnedAfter_false_iff, returnedAfter_append, crLfAfter_append, crLfAfter_append,
    and_iff_right (crLfAfter_inLine inLine _), and_iff_left (crLfAfter_inLine (indent _) _)]
  cases hasNewline (Byte.leftBrace :: woven (items.drop (index + 1)) last) with
  | true => simp +decide [CrLfAfter]
  | false => simp [CrLfAfter]

/-- No gap but that before a moved brace can lose its line ends. -/
theorem Reads.crLf_retouch_iff (reads : Reads true items last) (crlf : CrLfAfter false (woven items last))
    (within : index ≤ items.length) :
    CrLfAfter (returnedAfter false (woven (items.take index) []))
        ((outlineOf items last).retouch chosen index (gapAt items last index)) ↔
      ∀ violation, (outlineOf items last).movedBrace? chosen index = some violation →
        hasNewline ((woven items last).drop violation.site) = true ∨
          ((woven items last).take violation.start).getLast? = some Byte.carriageReturn := by
  cases moved : (outlineOf items last).movedBrace? chosen index with
  | some violation =>
    simp only [Outline.retouch, moved, Option.some_inj, forall_eq']
    exact (reads.movedBrace?_some moved).crLf_iff reads crlf
  | none =>
    refine iff_of_true ?_ fun _ => (absurd · (Option.some_ne_none _).symm)
    have gap := (reads.crLfAfter_iff.mp crlf).1 index within
    simp only [Outline.retouch, moved]
    split
    · -- The gaps of stars stay inside their line.
      split <;> exact crLfAfter_inLine (by decide) _
    · rcases reads.drop_absorbed index with same | ⟨-, blanks, rest, split, dropped, blank, -⟩
      · rw [same]
        exact gap
      · rw [dropped]
        rw [split] at gap
        exact gap.strip blank

end Layouts

/-- Fixing a text whose lines all end with a carriage return and a newline gives such a
text again, exactly if behind every brace that is moved some line ends, or a carriage
return of its own stands where the new line starts. -/
theorem fix_crLf_iff {text : Bytes} (crlf : CrLf text) :
    CrLf (fix text).text ↔ ∀ violation ∈ (scan text).violations, violation.rule = .bracePlacement →
      hasNewline (text.drop violation.site) = true ∨
        (text.take violation.start).getLast? = some Byte.carriageReturn := by
  obtain ⟨items, last, rfl, reads⟩ := exists_reads true text
  rw [crLf_iff] at crlf
  rw [fix_text reads, crLf_iff, reads.crLf_retouched_iff crlf, reads.scan_violations]
  constructor
  · intro gaps violation member rule
    obtain ⟨index, below, violates⟩ := List.mem_filterMap.mp member
    rw [List.mem_range, reads.size_eq] at below
    obtain ⟨-, brace | ⟨count, stars⟩⟩ := reads.violationAt?_cases violates
    · have moved : (outlineOf items last).movedBrace? (fun _ => true) index = some violation :=
        (reads.movedBrace?_eq rfl index).trans brace.violates
      exact (reads.crLf_retouch_iff crlf (Nat.le_of_lt below)).mp (gaps index (Nat.le_of_lt below)) violation moved
    · rw [stars.rule] at rule
      cases rule
  · intro breaks index within
    rw [reads.crLf_retouch_iff crlf within]
    intro violation moved
    have brace := reads.movedBrace?_some moved
    apply breaks violation _ brace.rule
    have below := (List.getElem?_eq_some_iff.mp (brace.item reads)).1
    rw [← reads.size_eq, ← List.mem_range] at below
    exact List.mem_filterMap.mpr ⟨index, below, brace.violationAt?_eq rfl⟩

theorem fix_crLf_terminated :
    let text := ascii "int x;\r\nvoid f(void) \x7b\r\n\x7d\r\n"
    CrLf text ∧ CrLf (fix text).text := by
  intro text
  have crlf : CrLf text := by decide
  exact ⟨crlf, (fix_crLf_iff crlf).mpr (by decide +kernel)⟩

/-- A brace in the last line gets a newline alone if the line is not ended. -/
theorem fix_breaks_crLf : ¬ ∀ text, hasNewline text = true → CrLf text → CrLf (fix text).text := by
  intro keeps
  have kept := keeps (ascii "int x;\r\nvoid f(void) \x7b") (by decide) (by decide)
  revert kept
  decide +kernel

end Allman
