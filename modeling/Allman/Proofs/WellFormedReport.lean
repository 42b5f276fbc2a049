import Allman.Proofs.ReportOrder

/-! What a report promises. Each violation lies in the text around the byte it is
about, says what stands there and where, and covers no byte but spaces, the stars
of one run or one brace. No two violations overlap, so fixing a text never has to
leave one of them out. -/

namespace Allman
open Region

def Rule.mark : Rule → UInt8
  | pointerSpacing => Byte.star
  | bracePlacement => Byte.leftBrace

def solidAt (text : Bytes) (offset : Nat) : Bool := text[offset]?.any fun c => !Byte.isSpace c

structure Violation.WellFormed (text : Bytes) (violation : Violation) : Prop where
  covers : violation.start ≤ violation.site ∧ violation.site < violation.stop ∧ violation.stop ≤ text.length
  mark : text[violation.site]? = some violation.rule.mark
  current : violation.current = slice text violation.start violation.stop
  line : violation.line = ((Lines.ofText text).position violation.site).line
  column : violation.column = ((Lines.ofText text).position violation.site).column
  /-- The bytes covered other than spaces are the stars of one run. -/
  stars : violation.rule = .pointerSpacing → ∃ run ∈ (Outline.ofText text).starRuns,
    ∀ offset, violation.start ≤ offset → offset < violation.stop → (solidAt text offset = true ↔
      ∃ index ∈ run, ∃ token, (Outline.ofText text).tokens[index]? = some token ∧ token.start = offset ∧
        token.lexeme = [Byte.star])
  /-- The one byte covered other than spaces is the brace. -/
  brace : violation.rule = .bracePlacement → ∀ offset, violation.start ≤ offset → offset < violation.stop →
    (solidAt text offset = true ↔ offset = violation.site)

section Covered
variable {items : List Item} {last : Bytes} {index first count : Nat} {item : Item} {violation : Violation}

private theorem getElem?_reach (items : List Item) (last : Bytes) (index offset : Nat) :
    (woven items last)[reach items index + offset]? = (woven (items.drop index) last)[offset]? := by
  rw [← drop_reach, List.getElem?_drop]

private theorem getElem?_token (found : items[index]? = some item) {offset : Nat}
    (inside : offset < item.bytes.length) :
    (woven items last)[reach items index + item.gap.length + offset]? = item.bytes[offset]? := by
  rw [Nat.add_assoc, getElem?_reach, woven_drop found, List.getElem?_append_right (Nat.le_add_right _ _),
    Nat.add_sub_cancel_left, List.getElem?_append_left inside]

private theorem Reads.solidAt_gapAt (reads : Reads true items last) (within : index ≤ items.length)
    {front spaces back : Bytes}
    (split : gapAt items last index = front ++ (spaces ++ back)) (blank : allSpaces spaces = true) {offset : Nat}
    (past : reach items index + front.length ≤ offset)
    (inside : offset < reach items index + front.length + spaces.length) :
    solidAt (woven items last) offset = false := by
  obtain ⟨tail, behind, -⟩ := reads.drop_eq_gapAt within
  obtain ⟨place, rfl⟩ := Nat.exists_eq_add_of_le past
  have below : place < spaces.length := by omega
  have space : Byte.isSpace spaces[place] = true := List.all_eq_true.mp blank _ (List.getElem_mem below)
  rw [solidAt, Nat.add_assoc, getElem?_reach, behind, split, List.append_assoc, List.append_assoc,
    List.getElem?_append_right (Nat.le_add_right _ _), Nat.add_sub_cancel_left, List.getElem?_append_left below,
    List.getElem?_eq_getElem below, Option.any_some, space]
  rfl

theorem solidAt_of_getElem? {text : Bytes} {offset : Nat} {c : UInt8} (found : text[offset]? = some c)
    (solid : Byte.isSpace c = false) : solidAt text offset = true := by
  rw [solidAt, found, Option.any_some, solid]
  rfl

theorem getElem?_site (found : items[index]? = some item) {c : UInt8} (bytes : item.bytes = [c]) :
    (woven items last)[reach items index + (gapAt items last index).length]? = some c := by
  have byte := @getElem?_token items last index item found 0 (by simp [bytes])
  rw [gapAt_eq found]
  simpa [bytes] using byte

private theorem MisplacedBrace.solidAt_iff (brace : MisplacedBrace items last index violation)
    (reads : Reads true items last)
    {offset : Nat} (past : violation.start ≤ offset) (before : offset < violation.stop) :
    solidAt (woven items last) offset = true ↔ offset = violation.site := by
  have found := brace.item reads
  have next := reach_succ found
  simp only [List.length_singleton] at next
  obtain ⟨old, split, blank⟩ := exists_trimEnd Byte.isBlank (gapAt items last index)
  obtain ⟨blanks, rest, split', blank', stop, -⟩ := brace.stop
  have length := congrArg List.length split
  rw [List.length_append] at length
  rw [brace.start] at past
  rw [stop] at before
  rw [brace.site]
  rcases Nat.lt_trichotomy offset (reach items index + (gapAt items last index).length) with earlier | rfl | later
  · have split : gapAt items last index = trimEnd Byte.isBlank (gapAt items last index) ++ (old ++ []) := by
      rwa [List.append_nil]
    have blank := reads.solidAt_gapAt (Nat.le_of_lt brace.below) split (allSpaces_of_blanks blank) past (by omega)
    rw [blank]
    exact ⟨nofun, fun same => absurd same (Nat.ne_of_lt earlier)⟩
  · exact iff_of_true (solidAt_of_getElem? (getElem?_site found rfl) (by decide)) rfl
  · have blank := @reads.solidAt_gapAt _ _ (index + 1) brace.below [] blanks rest split' (allSpaces_of_blanks blank')
      offset (by simp only [List.length_nil]; omega) (by simp only [List.length_nil]; omega)
    rw [blank]
    exact ⟨nofun, fun same => absurd same (Nat.ne_of_gt later)⟩

theorem exists_reach (items : List Item) {next offset : Nat} (past : reach items first ≤ offset)
    (ordered : first ≤ next) :
    (∃ index, first ≤ index ∧ index < next ∧ reach items index ≤ offset ∧ offset < reach items (index + 1)) ∨
      reach items next ≤ offset := by
  induction ordered with
  | refl => exact .inr past
  | @step next ordered ih =>
    rcases ih with ⟨index, after, before, found⟩ | reached
    · exact .inl ⟨index, after, Nat.lt_succ_of_lt before, found⟩
    · rcases Nat.lt_or_ge offset (reach items (next + 1)) with inside | beyond
      · exact .inl ⟨next, ordered, Nat.lt_succ_self _, reached, inside⟩
      · exact .inr beyond

theorem MisplacedStars.allSpaces_gap (stars : MisplacedStars items last first count violation)
    (reads : Reads true items last) (after : first ≤ index) (before : index ≤ first + count + 1) :
    allSpaces (gapAt items last index) = true := by
  rcases Nat.eq_or_lt_of_le after with rfl | after
  · exact stars.before
  · rcases Nat.eq_or_lt_of_le before with rfl | before
    · exact stars.after
    · exact (stars.run.gap reads after (Nat.le_of_lt_succ before)).1

private theorem MisplacedStars.solidAt_iff (stars : MisplacedStars items last first count violation)
    (reads : Reads true items last) {offset : Nat} (past : violation.start ≤ offset)
    (before : offset < violation.stop) :
    solidAt (woven items last) offset = true ↔ ∃ index, first ≤ index ∧ index ≤ first + count ∧
      reach items index + (gapAt items last index).length = offset := by
  rw [stars.start] at past
  rw [stars.stop] at before
  have below := stars.below
  have blank : ∀ {index}, first ≤ index → index ≤ first + count + 1 → reach items index ≤ offset →
      offset < reach items index + (gapAt items last index).length → solidAt (woven items last) offset = false := by
    intro index after within past inside
    exact @reads.solidAt_gapAt _ _ index (by omega) [] _ [] (by simp) (stars.allSpaces_gap reads after within) offset
      past inside
  constructor
  · intro solid
    rcases exists_reach items past (show first ≤ first + count + 1 by omega) with
      ⟨index, after, within, reached, inside⟩ | reached
    · refine ⟨index, after, Nat.le_of_lt_succ within, ?_⟩
      have next := reach_succ (stars.run.item reads after (Nat.le_of_lt_succ within))
      simp only [List.length_singleton] at next
      rcases Nat.lt_or_ge offset (reach items index + (gapAt items last index).length) with gap | token
      · rw [blank after (Nat.le_of_lt within) reached gap] at solid
        cases solid
      · omega
    · rw [blank (by omega) (Nat.le_refl _) reached before] at solid
      cases solid
  · rintro ⟨index, after, within, rfl⟩
    exact solidAt_of_getElem? (getElem?_site (stars.run.item reads after within) rfl) (by decide)

private theorem MisplacedBrace.stop_le_length (brace : MisplacedBrace items last index violation)
    (reads : Reads true items last) : violation.stop ≤ (woven items last).length := by
  obtain ⟨tail, behind, -⟩ := reads.drop_eq_gapAt (show index + 1 ≤ items.length from brace.below)
  have length := congrArg List.length (woven_take_drop items last (index + 1))
  rw [behind, List.length_append, List.length_append] at length
  have stop := brace.stop_le
  rw [reach] at stop
  omega

private theorem MisplacedStars.stop_le_length (stars : MisplacedStars items last first count violation) :
    violation.stop ≤ (woven items last).length := by
  rw [stars.stop]
  exact Nat.le_trans (reach_gap_le stars.below) (reach_le_length items last _)

end Covered

namespace Outline

/-- A violation says what stands in its range, and where its site is. -/
structure Describes (outline : Outline) (violation : Violation) : Prop where
  current : violation.current = slice outline.text violation.start violation.stop
  line : violation.line = (outline.lines.position violation.site).line
  column : violation.column = (outline.lines.position violation.site).column

private theorem checkBrace?_describes {outline : Outline} {index : Nat} {violation : Violation}
    (violates : outline.checkBrace? index = some violation) : outline.Describes violation := by
  unfold checkBrace? at violates
  split at violates
  · split at violates
    · cases violates
    · cases violates
      exact ⟨rfl, rfl, rfl⟩
  · cases violates

private theorem checkStars?_describes {outline : Outline} {run : List Nat} {violation : Violation}
    (violates : outline.checkStars? run = some violation) : outline.Describes violation := by
  unfold checkStars? at violates
  split at violates
  · cases violates
  · cases violates
  · dsimp only at violates
    split at violates
    · split at violates
      · cases violates
        exact ⟨rfl, rfl, rfl⟩
      · cases violates
    · cases violates

end Outline

section Report
variable {items : List Item} {last : Bytes} {index : Nat} {violation : Violation} {chosen : Rule → Bool}

theorem Reads.wellFormed (reads : Reads true items last)
    (violates : (outlineOf items last).violationAt? chosen index = some violation) :
    violation.WellFormed (woven items last) := by
  obtain ⟨-, brace | ⟨count, stars⟩⟩ := reads.violationAt?_cases violates
  · obtain ⟨current, line, column⟩ := Outline.checkBrace?_describes brace.violates
    obtain ⟨begins, ends⟩ := brace.start_lt_stop reads
    refine ⟨⟨begins, ends, brace.stop_le_length reads⟩, ?_, current, line, column, ?_, ?_⟩
    · rw [brace.site, brace.rule]
      exact getElem?_site (brace.item reads) rfl
    · rw [brace.rule]
      exact nofun
    · intro _ offset past before
      exact brace.solidAt_iff reads past before
  · obtain ⟨current, line, column⟩ := Outline.checkStars?_describes stars.violates
    obtain ⟨begins, ends⟩ := stars.start_lt_stop reads
    refine ⟨⟨begins, ends, stars.stop_le_length⟩, ?_, current, line, column, ?_, ?_⟩
    · rw [stars.site, stars.rule]
      exact getElem?_site (stars.run.item reads (Nat.le_refl _) (Nat.le_add_right _ _)) rfl
    · refine fun _ => ⟨_, stars.member, fun offset past before => (stars.solidAt_iff reads past before).trans ?_⟩
      constructor
      · rintro ⟨star, after, within, rfl⟩
        have token := reads.token star
        rw [stars.run.item reads after within] at token
        exact ⟨star, by rw [List.mem_range'_1]; omega, _, token, rfl, rfl⟩
      · rintro ⟨star, listed, token, at_, rfl, -⟩
        rw [List.mem_range'_1] at listed
        have within : star ≤ index + count := by omega
        rw [reads.token, stars.run.item reads listed.1 within] at at_
        obtain rfl := Option.some.inj at_
        exact ⟨star, listed.1, within, rfl⟩
    · rw [stars.rule]
      exact nofun

theorem Edit.ordered_of_pairwise {length settled : Nat} {edits : List Edit}
    (inside : ∀ edit ∈ edits, edit.Fits length settled) (apart : edits.Pairwise (·.stop ≤ ·.start)) :
    Edit.Ordered length settled edits := by
  induction edits generalizing settled with
  | nil => trivial
  | cons edit rest ih =>
    obtain ⟨later, apart⟩ := List.pairwise_cons.mp apart
    refine ⟨inside edit (by simp), ih (fun other member => ?_) apart⟩
    obtain ⟨forward, within, -⟩ := inside other (by simp [member])
    exact ⟨forward, within, later other member⟩

theorem Reads.ordered (reads : Reads true items last) (chosen : Rule → Bool) :
    Edit.Ordered (woven items last).length 0
      (((outlineOf items last).violations chosen).map Violation.toEdit) := by
  refine Edit.ordered_of_pairwise ?_ ?_
  · intro edit member
    obtain ⟨violation, listed, rfl⟩ := List.mem_map.mp member
    obtain ⟨index, -, violates⟩ := List.mem_filterMap.mp listed
    obtain ⟨begins, ends, within⟩ := (reads.wellFormed violates).covers
    exact ⟨Nat.le_of_lt (Nat.lt_of_le_of_lt begins ends), within, Nat.zero_le _⟩
  · rw [List.pairwise_map]
    exact reads.pairwise_violations chosen

theorem Violation.wellFormed_of_mem_scan {text : Bytes} (found : violation ∈ (scan text).violations) :
    violation.WellFormed text := by
  obtain ⟨items, last, rfl, reads⟩ := exists_reads true text
  rw [reads.scan_violations] at found
  obtain ⟨index, -, violates⟩ := List.mem_filterMap.mp found
  exact reads.wellFormed violates

/-- No edit of a report is rejected when all of them are applied. -/
theorem rejected_scan (text : Bytes) :
    (applyEdits text ((scan text).violations.map Violation.toEdit)).rejected = [] := by
  obtain ⟨items, last, rfl, reads⟩ := exists_reads true text
  rw [reads.scan_violations]
  exact (applyEdits_of_ordered (reads.ordered _)).2

theorem fix_skipped (text : Bytes) : (fix text).report.skipped = [] := by
  simp only [fix, applyFixes, rejected_scan, List.filterMap_nil, List.append_nil]
  rfl

end Report

/-- Every report is well formed: each violation is in accordance with the text,
each ends before the next one starts, and so none is ever left out by a fix. -/
theorem scan_wellFormed (text : Bytes) :
    (∀ violation ∈ (scan text).violations, violation.WellFormed text) ∧
    (scan text).violations.Pairwise (·.stop ≤ ·.start) ∧
    (applyEdits text ((scan text).violations.map Violation.toEdit)).rejected = [] ∧
    (fix text).report.skipped = [] := by
  refine ⟨fun _ => Violation.wellFormed_of_mem_scan, ?_, rejected_scan text, fix_skipped text⟩
  obtain ⟨items, last, rfl, reads⟩ := exists_reads true text
  rw [reads.scan_violations]
  exact reads.pairwise_violations _

end Allman
