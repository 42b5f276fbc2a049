import Allman.Proofs.Places
import Allman.Proofs.Splicing
import Allman.Proofs.StarRuns

/-! What the violations of a text say about its layout. A brace at fault follows a
token in its line; its violation covers the blanks before it, the brace, and blanks
behind it that end the line. A run of stars at fault is covered from the end of the
token before it to the start of the token behind it. -/

namespace Allman
open Region

section Gaps
variable {items : List Item} {last : Bytes} {index : Nat} {item : Item}

/-- What follows a token starts with its gap; behind the gap stands a token or nothing. -/
theorem Reads.drop_eq_gapAt {line : Bool} (reads : Reads line items last) (within : index ≤ items.length) :
    ∃ tail, woven (items.drop index) last = gapAt items last index ++ tail ∧
      ((tail = [] ∧ index = items.length) ∨ ∃ c rest, tail = c :: rest ∧ Byte.isSpace c = false) := by
  cases found : items[index]? with
  | none =>
    have ended := List.getElem?_eq_none_iff.mp found
    refine ⟨[], ?_, .inl ⟨rfl, Nat.le_antisymm within ended⟩⟩
    rw [List.drop_eq_nil_of_le ended, gapAt, found, List.append_nil]
    rfl
  | some item =>
    obtain ⟨-, stands⟩ := reads.at found
    obtain ⟨c, rest, first, solid⟩ := stands.solid
    refine ⟨c :: (rest ++ woven (items.drop (index + 1)) last), ?_, .inr ⟨c, _, rfl, solid⟩⟩
    rw [woven_drop found, gapAt_eq found, first, List.cons_append]

private theorem Reads.punctuator_item {line : Bool} (reads : Reads line items last)
    (found : items[index]? = some item)
    {kind : TokenKind} (same : item.kind = kind) {c : UInt8}
    (punctuator : kind ∉ [TokenKind.identifier, .number, .invalid, .string, .character, .directive])
    (spelled : ∀ entry ∈ punctuators, entry.2 = kind → entry.1 = [c]) :
    items[index]? = some ⟨gapAt items last index, kind, [c]⟩ := by
  obtain ⟨-, stands⟩ := reads.at found
  rw [same] at stands
  rw [gapAt_eq found, found, ← same, ← spelled _ (stands.mem punctuator) rfl]

end Gaps

theorem dropWhile_append_of_head {p : UInt8 → Bool} {front back : Bytes} (ends : back.head?.any p = false) :
    (front ++ back).takeWhile p = front.takeWhile p ∧ (front ++ back).dropWhile p = front.dropWhile p ++ back := by
  induction front with
  | nil => cases back <;> simp_all
  | cons c front ih =>
    by_cases holds : p c = true
    · simpa [holds] using ih
    · simp [holds]

theorem trimEnd_append {p : UInt8 → Bool} {front back : Bytes} {c : UInt8} (ends : front.getLast? = some c)
    (stays : p c = false) : trimEnd p (front ++ back) = front ++ trimEnd p back := by
  have head : front.reverse.head?.any p = false := by simp [ends, stays]
  rw [trimEnd, List.reverse_append, (dropWhile_append_of_head head).2, List.reverse_append, List.reverse_reverse]
  rfl

theorem exists_trimEnd (p : UInt8 → Bool) (bytes : Bytes) :
    ∃ trimmed, bytes = trimEnd p bytes ++ trimmed ∧ trimmed.all p = true := by
  refine ⟨(bytes.reverse.takeWhile p).reverse, ?_, ?_⟩
  · rw [trimEnd, ← List.reverse_append, List.takeWhile_append_dropWhile, List.reverse_reverse]
  · rw [List.all_reverse]
    exact List.all_takeWhile

/-- The blanks that a moved brace takes with it lie in the gap behind it, up to the
end of the line or of the text. -/
theorem absorbBlanks_gap {text gap tail : Bytes} {offset : Nat} (behind : text.drop offset = gap ++ tail)
    (ends : tail = [] ∨ ∃ c rest, tail = c :: rest ∧ Byte.isSpace c = false) :
    ∃ blanks rest, gap = blanks ++ rest ∧ blanks.all Byte.isBlank = true ∧
      Outline.absorbBlanks text offset = offset + blanks.length ∧
      (blanks = [] ∨ startsLineBreak rest = true ∨ rest = [] ∧ tail = []) := by
  have notBlank : tail.head?.any Byte.isBlank = false := by
    rcases ends with rfl | ⟨c, rest, rfl, solid⟩
    · rfl
    · exact (isBlank_of_isSpace_eq_false solid).2
  obtain ⟨taken, dropped⟩ := @dropWhile_append_of_head Byte.isBlank gap tail notBlank
  have blank : (gap.takeWhile Byte.isBlank).all Byte.isBlank = true := List.all_takeWhile
  simp only [Outline.absorbBlanks, behind, taken, dropped]
  split
  next ended =>
    refine ⟨_, _, (List.takeWhile_append_dropWhile).symm, blank, rfl, .inr ?_⟩
    simp only [Bool.or_eq_true, List.isEmpty_iff, List.append_eq_nil_iff] at ended
    rcases ended with finished | starts
    · exact .inr finished
    · rcases ends with rfl | ⟨c, rest, rfl, solid⟩
      · exact .inl (by simpa using starts)
      · exact .inl (startsLineBreak_of_append starts (startsLineBreak_solid solid rest))
  next => exact ⟨[], gap, rfl, rfl, rfl, .inl rfl⟩

/-- The violation `violation` lies at the brace at `index` of a layout: another token
stands before the brace in its line. -/
structure MisplacedBrace (items : List Item) (last : Bytes) (index : Nat) (violation : Violation) : Prop where
  violates : (outlineOf items last).checkBrace? index = some violation
  previous : ∃ before item, index = before + 1 ∧ items[before]? = some item
  brace : ∃ brace, items[index]? = some brace ∧ brace.kind = .leftBrace
  role : (outlineOf items last).role? index = some .block
  inLine : hasNewline (gapAt items last index) = false
  rule : violation.rule = .bracePlacement
  site : violation.site = reach items index + (gapAt items last index).length
  start : violation.start = reach items index + (trimEnd Byte.isBlank (gapAt items last index)).length
  stop : ∃ blanks rest, gapAt items last (index + 1) = blanks ++ rest ∧ blanks.all Byte.isBlank = true ∧
    violation.stop = reach items (index + 1) + blanks.length ∧
    (blanks = [] ∨ startsLineBreak rest = true ∨ rest = [] ∧ index + 1 = items.length)
  suggested : ∃ spaces, violation.suggested = spaces ++ [Byte.leftBrace] ∧ allSpaces spaces = true ∧
    hasNewline spaces = true

private theorem lineBreakAfter_spaces (text : Bytes) (offset : Nat) :
    allSpaces (Outline.lineBreakAfter text offset) = true ∧ hasNewline (Outline.lineBreakAfter text offset) = true := by
  unfold Outline.lineBreakAfter
  split
  · split <;> decide
  · decide

section Braces
variable {items : List Item} {last : Bytes} {index : Nat}

theorem Reads.hasNewline_gap (reads : Reads true items last) {previous : Nat} (earlier : previous < index)
    {item brace : Item} (found : items[previous]? = some item) (found' : items[index]? = some brace)
    (newline : hasNewline brace.gap = true) :
    hasNewline ((outlineOf items last).gap previous index) = true := by
  have stop : (item.token (reach items previous)).stop = reach items (previous + 1) := (reach_succ found).symm
  have between := slice_append_slice (woven items last) (reach_mono items (Nat.succ_le_of_lt earlier))
    (Nat.le_add_right (reach items index) brace.gap.length)
  rw [Outline.gap, reads.token, reads.token, found, found', Option.map_some, Option.map_some]
  simp only [stop]
  change hasNewline (slice (woven items last) _ (reach items index + brace.gap.length)) = true
  rw [← between, hasNewline_append, slice_gap found', newline, Bool.or_true]

theorem previousCode?_some {tokens : Array Token} {previous : Nat}
    (found : previousCode? tokens index = some previous) :
    previous < index ∧ ∃ token, tokens[previous]? = some token := by
  induction index with
  | zero => cases found
  | succ index ih =>
    rw [previousCode?] at found
    split at found
    · cases found
    next token present =>
      split at found
      · obtain ⟨earlier, rest⟩ := ih found
        exact ⟨Nat.lt_succ_of_lt earlier, rest⟩
      · obtain rfl := Option.some.inj found
        exact ⟨Nat.lt_succ_self _, token, present⟩

theorem Reads.misplacedBrace (reads : Reads true items last) {violation : Violation}
    (violates : (outlineOf items last).checkBrace? index = some violation) :
    MisplacedBrace items last index violation := by
  have same := violates
  unfold Outline.checkBrace? at violates
  split at violates
  next brace previous found precedes =>
    split at violates
    · cases violates
    next held =>
      simp only [Bool.or_eq_true, decide_eq_true_eq, not_or, ne_eq, Decidable.not_not, Bool.not_eq_true] at held
      obtain ⟨⟨⟨kind, role⟩, inLine⟩, -⟩ := held
      rw [reads.token, Option.map_eq_some_iff] at found
      obtain ⟨item, found, rfl⟩ := found
      obtain ⟨earlier, token, at_⟩ := previousCode?_some precedes
      rw [reads.token, Option.map_eq_some_iff] at at_
      obtain ⟨other, at_, -⟩ := at_
      have sameLine : hasNewline item.gap = false := by
        refine Bool.eq_false_iff.mpr fun newline => ?_
        rw [reads.hasNewline_gap earlier at_ found newline] at inLine
        cases inLine
      obtain ⟨before, rfl⟩ := Nat.exists_eq_succ_of_ne_zero (Nat.ne_of_gt (Nat.zero_lt_of_lt earlier))
      have below : before < items.length := Nat.lt_of_succ_lt (List.getElem?_eq_some_iff.mp found).1
      have behind := (List.getElem?_eq_some_iff.mp found).1
      obtain ⟨d, ends, solid⟩ := reads.getLast?_before (List.getElem?_eq_getElem below) found sameLine
      obtain ⟨tail, after, ending⟩ := reads.drop_eq_gapAt (Nat.succ_le_of_lt behind)
      obtain rfl := Option.some.inj violates
      have gap := @gapAt_eq items last _ _ found
      have broken := lineBreakAfter_spaces (woven items last) (item.token (reach items (before + 1))).start
      refine ⟨same, ⟨before, _, rfl, List.getElem?_eq_getElem below⟩, ⟨item, found, kind⟩, role, by rwa [gap], rfl,
        by rw [gap]; rfl, ?_, ?_, ⟨_, rfl, ?_, ?_⟩⟩
      · change (trimEnd Byte.isBlank ((woven items last).take (reach items (before + 1) + item.gap.length))).length = _
        rw [take_start found, trimEnd_append ends (isBlank_of_isSpace_eq_false solid).2, List.length_append, gap]
        rfl
      · have stop : (item.token (reach items (before + 1))).stop = reach items (before + 1 + 1) :=
          (reach_succ found).symm
        have rest := (drop_reach items last (before + 1 + 1)).trans after
        obtain ⟨blanks, rest, split, blank, absorbed, reason⟩ := absorbBlanks_gap rest (ending.imp And.left id)
        refine ⟨blanks, rest, split, blank, ?_, reason.imp id (Or.imp id fun ⟨empty, finished⟩ => ⟨empty, ?_⟩)⟩
        · simp only [stop]
          exact absorbed
        · rcases ending with ⟨-, ended⟩ | ⟨c, more, follows, -⟩
          · exact ended
          · rw [finished] at follows
            cases follows
      · rw [allSpaces, List.all_append]
        refine Bool.and_eq_true_iff.mpr ⟨broken.1, ?_⟩
        exact allSpaces_of_blanks List.all_takeWhile
      · rw [hasNewline_append, Bool.or_eq_true]
        exact .inl broken.2
  next => cases violates

theorem MisplacedBrace.item {violation : Violation} (brace : MisplacedBrace items last index violation)
    (reads : Reads true items last) : items[index]? = some ⟨gapAt items last index, .leftBrace, [Byte.leftBrace]⟩ := by
  obtain ⟨item, found, kind⟩ := brace.brace
  exact reads.punctuator_item found kind (by decide) (by decide)

/-- Every brace of a block that follows a token in its line is at fault. -/
theorem Reads.checkBrace?_isSome (reads : Reads true items last) {item brace : Item} (found : items[index]? = some item)
    (found' : items[index + 1]? = some brace) (kind : brace.kind = .leftBrace)
    (role : (outlineOf items last).role? (index + 1) = some .block)
    (inLine : hasNewline brace.gap = false) :
    ((outlineOf items last).checkBrace? (index + 1)).isSome = true := by
  have first := reads.startsLine_eq_false found found' inLine
  have token := reads.token (index + 1)
  rw [found', Option.map_some] at token
  have start : (brace.token (reach items (index + 1))).start = reach items (index + 1) + brace.gap.length := rfl
  have braced : (brace.token (reach items (index + 1))).kind = .leftBrace := kind
  have whole : (outlineOf items last).text = woven items last := rfl
  simp only [Outline.checkBrace?, token, reads.previousCode?_eq found found' inLine, braced, role,
    reads.gap_eq found found', gapAt_eq found', inLine, start, whole, first]
  simp

end Braces

/-- The run of `count + 1` stars from `first` on belongs to a declarator. -/
structure PointerStars (items : List Item) (last : Bytes) (first count : Nat) : Prop where
  member : List.range' first (count + 1) ∈ (outlineOf items last).starRuns
  run : (outlineOf items last).IsRun first count
  previous : ∃ before item, first = before + 1 ∧ items[before]? = some item ∧ Outline.leadsStars item.kind = true
  next : ∃ next, items[first + count + 1]? = some next ∧ Outline.endsStars next.kind = true
  declarator : (outlineOf items last).isDeclarator (first - 1) (first + count + 1) = true

/-- The violation `violation` lies at such a run: only spaces surround the stars, and
they do not stand as they should. -/
structure MisplacedStars (items : List Item) (last : Bytes) (first count : Nat) (violation : Violation) : Prop
    extends PointerStars items last first count where
  violates : (outlineOf items last).checkStars? (List.range' first (count + 1)) = some violation
  before : allSpaces (gapAt items last first) = true
  after : allSpaces (gapAt items last (first + count + 1)) = true
  differs : slice (woven items last) violation.start violation.stop ≠ violation.suggested
  rule : violation.rule = .pointerSpacing
  site : violation.site = reach items first + (gapAt items last first).length
  start : violation.start = reach items first
  stop : violation.stop = reach items (first + count + 1) + (gapAt items last (first + count + 1)).length
  suggested : violation.suggested = (outlineOf items last).starLayout (first - 1)
    (gapAt items last first) (gapAt items last (first + count + 1)) (count + 1)

section Stars
variable {items : List Item} {last : Bytes} {first count : Nat}

theorem getLastD_range' (first count : Nat) : (List.range' (first + 1) count).getLastD first = first + count := by
  cases count with
  | zero => rfl
  | succ count =>
    rw [List.range'_concat, List.getLastD_concat]
    omega

theorem Outline.IsRun.item (run : (outlineOf items last).IsRun first count) (reads : Reads true items last)
    {index : Nat} (after : first ≤ index) (before : index ≤ first + count) :
    items[index]? = some ⟨gapAt items last index, .star, [Byte.star]⟩ := by
  obtain ⟨item, found, kind⟩ := (reads.is_iff index .star).mp (run.star index after before)
  exact reads.punctuator_item found kind (by decide) (by decide)

theorem Outline.IsRun.gap (run : (outlineOf items last).IsRun first count) (reads : Reads true items last)
    {index : Nat} (after : first < index) (before : index ≤ first + count) :
    allSpaces (gapAt items last index) = true ∧ hasNewline (gapAt items last index) = false := by
  obtain ⟨index, rfl⟩ := Nat.exists_eq_succ_of_ne_zero (Nat.ne_of_gt (Nat.zero_lt_of_lt after))
  have linked := run.linked index (Nat.le_of_lt_succ after) before
  rw [Outline.linkedStars, reads.gap_eq (run.item reads (Nat.le_of_lt_succ after) (Nat.le_of_succ_le before))
    (run.item reads (Nat.le_of_lt after) before)] at linked
  simpa [Bool.and_eq_true] using linked

theorem Reads.pointerStars (reads : Reads true items last)
    (member : List.range' (first + 1) (count + 1) ∈ (outlineOf items last).starRuns)
    (run : (outlineOf items last).IsRun (first + 1) count)
    (declarator : (outlineOf items last).isDeclarator first (first + 1 + count + 1) = true) :
    PointerStars items last (first + 1) count := by
  obtain ⟨_, _, found, found', leads, ends⟩ := Outline.neighbours_of_isDeclarator declarator (Outline.consistent_ofRegions _ _)
  rw [reads.token, Option.map_eq_some_iff] at found found'
  obtain ⟨_, found, rfl⟩ := found
  obtain ⟨_, found', rfl⟩ := found'
  exact ⟨member, run, ⟨first, _, rfl, found, leads⟩, ⟨_, found', ends⟩, declarator⟩

theorem Reads.misplacedStars (reads : Reads true items last) {run : List Nat} {violation : Violation}
    (member : run ∈ (outlineOf items last).starRuns)
    (violates : (outlineOf items last).checkStars? run = some violation) :
    ∃ first count, run = List.range' first (count + 1) ∧ MisplacedStars items last first count violation := by
  obtain ⟨first, count, rfl, isRun⟩ := Outline.exists_range_of_mem member
  refine ⟨first, count, rfl, ?_⟩
  have same := violates
  rw [List.range'_succ] at violates
  cases first with
  | zero => cases violates
  | succ previous =>
    simp only [Outline.checkStars?, getLastD_range', List.length_range'] at violates
    split at violates
    next left star right found found' found'' =>
      split at violates
      next held =>
        simp only [Bool.and_eq_true, decide_eq_true_eq] at held
        obtain ⟨⟨⟨declarator, before⟩, after⟩, differs⟩ := held
        rw [reads.token, Option.map_eq_some_iff] at found found' found''
        obtain ⟨_, found, rfl⟩ := found
        obtain ⟨_, found', rfl⟩ := found'
        obtain ⟨_, found'', rfl⟩ := found''
        have last_ := isRun.item reads (Nat.le_add_right (previous + 1) count) (Nat.le_refl _)
        have gap := reads.gap_eq found found'
        have gap' := reads.gap_eq last_ found''
        rw [gap] at before
        rw [gap'] at after
        rw [gap, gap'] at violates
        obtain rfl := Option.some.inj violates
        rw [gap, gap'] at differs
        refine ⟨reads.pointerStars member isRun declarator, same, before, after, differs, rfl, ?_, ?_, ?_, rfl⟩
        · rw [gapAt_eq found']
          rfl
        · exact (reach_succ found).symm
        · rw [gapAt_eq found'']
          rfl
      next => cases violates
    next => cases violates

end Stars

end Allman
