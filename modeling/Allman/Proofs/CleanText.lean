import Allman.Proofs.FixedTokens

/-! One pass leaves nothing to fix. The fixed text has the same words, so brackets,
roles and declarators are judged as before; what is left to compare are gaps. A
moved brace has a line break before it, stars that were moved stand as suggested,
and the gaps of all other stars and braces are as good as they were. -/

namespace Allman
open Region

/-- The gaps and stars from the gap before a star to the gap behind the last of `count` stars. -/
def starText (gap : Nat → Bytes) (first : Nat) : Nat → Bytes
  | 0 => gap first
  | count + 1 => gap first ++ Byte.star :: starText gap (first + 1) count

theorem starText_congr {gap gap' : Nat → Bytes} {first count : Nat}
    (same : ∀ index, first ≤ index → index ≤ first + count → gap index = gap' index) :
    starText gap first count = starText gap' first count := by
  induction count generalizing first with
  | zero => exact same first (Nat.le_refl _) (Nat.le_refl _)
  | succ count ih =>
    rw [starText, starText, same first (Nat.le_refl _) (Nat.le_add_right _ _),
      ih fun index after before => same index (by omega) (by omega)]

private theorem starText_closed {gap : Nat → Bytes} {first count : Nat}
    (closed : ∀ index, first < index → index ≤ first + count → gap index = []) :
    starText gap first (count + 1) = gap first ++ List.replicate (count + 1) Byte.star ++ gap (first + count + 1) := by
  induction count generalizing first with
  | zero => simp [starText]
  | succ count ih =>
    have rest := ih fun index (after : first + 1 < index) before => closed index (by omega) (by omega)
    rw [closed (first + 1) (Nat.lt_succ_self _) (by omega), List.nil_append] at rest
    rw [starText, rest, List.replicate_succ (n := count + 1)]
    have place : first + 1 + count + 1 = first + (count + 1) + 1 := by omega
    rw [place, List.append_assoc, List.cons_append]

section Layout
variable {items : List Item} {last : Bytes} {index first count : Nat} {item : Item}

theorem slice_stars (stars : ∀ index, first ≤ index → index < first + count →
      items[index]? = some ⟨gapAt items last index, .star, [Byte.star]⟩)
    (below : first + count < items.length) :
    slice (woven items last) (reach items first)
      (reach items (first + count) + (gapAt items last (first + count)).length) =
        starText (gapAt items last) first count := by
  induction count generalizing first with
  | zero =>
    rw [Nat.add_zero] at below ⊢
    have found := List.getElem?_eq_getElem below
    rw [starText, gapAt_eq found]
    exact slice_gap found
  | succ count ih =>
    have found := stars first (Nat.le_refl _) (by omega)
    have place : first + 1 + count = first + (count + 1) := by omega
    have rest := @ih (first + 1) (fun index after before => stars index (by omega) (by omega)) (by omega)
    have next := reach_succ found
    have ordered := reach_mono items (show first + 1 ≤ first + (count + 1) by omega)
    simp only [List.length_singleton] at next
    rw [place] at rest
    rw [← slice_append_slice (woven items last) (show reach items first ≤ reach items (first + 1) by omega) (by omega),
      rest, starText, slice_item found, List.append_assoc, List.singleton_append]

theorem PointerStars.slice_eq (stars : PointerStars items last first count) (reads : Reads true items last) :
    slice (woven items last) (reach items first)
      (reach items (first + count + 1) + (gapAt items last (first + count + 1)).length) =
        starText (gapAt items last) first (count + 1) :=
  @slice_stars items last first (count + 1)
    (fun _ after before => stars.run.item reads after (Nat.le_of_lt_succ before)) stars.below

/-- Stars of a declarator with only spaces around them that do not stand as they should are at fault. -/
theorem PointerStars.checkStars?_isSome (stars : PointerStars items last first count) (reads : Reads true items last)
    (before : allSpaces (gapAt items last first) = true)
    (after : allSpaces (gapAt items last (first + count + 1)) = true)
    (differs : starText (gapAt items last) first (count + 1) ≠ (outlineOf items last).starLayout (first - 1)
      (gapAt items last first) (gapAt items last (first + count + 1)) (count + 1)) :
    ((outlineOf items last).checkStars? (List.range' first (count + 1))).isSome = true := by
  obtain ⟨previous, word, rfl, found, -⟩ := stars.previous
  obtain ⟨next, found', -⟩ := stars.next
  have star := stars.run.item reads (Nat.le_refl _) (Nat.le_add_right _ _)
  have lastStar := stars.run.item reads (Nat.le_add_right (previous + 1) count) (Nat.le_refl _)
  have token := reads.token previous
  have token' := reads.token (previous + 1)
  have token'' := reads.token (previous + 1 + count + 1)
  have stop : (word.token (reach items previous)).stop = reach items (previous + 1) := (reach_succ found).symm
  have start : (next.token (reach items (previous + 1 + count + 1))).start =
      reach items (previous + 1 + count + 1) + (gapAt items last (previous + 1 + count + 1)).length := by
    rw [gapAt_eq found']
    rfl
  have whole : (outlineOf items last).text = woven items last := rfl
  rw [found, Option.map_some] at token
  rw [star, Option.map_some] at token'
  rw [found', Option.map_some] at token''
  rw [List.range'_succ]
  simp only [Outline.checkStars?, getLastD_range', List.length_range', token, token', token'', reads.gap_eq found star,
    reads.gap_eq lastStar found', stop, start, whole, stars.slice_eq reads]
  have declarator := stars.declarator
  rw [Nat.add_sub_cancel] at declarator differs
  simp [declarator, before, after, differs]

end Layout

section Fixed
variable {items : List Item} {last : Bytes} {index first count : Nat} {chosen : Rule → Bool}

abbrev retouchedOutline (chosen : Rule → Bool) (items : List Item) (last : Bytes) : Outline :=
  outlineOf (retouchedItems chosen items last) (retouchedLast chosen items last)

theorem Reads.retouched (reads : Reads true items last) (chosen : Rule → Bool) :
    Reads true (retouchedItems chosen items last) (retouchedLast chosen items last) :=
  ((reads.respaced chosen).reads reads).1

/-- The outline of a fixed text differs from that of the text in offsets and gaps only. -/
theorem Reads.agrees (reads : Reads true items last) (chosen : Rule → Bool) :
    (retouchedOutline chosen items last).Agrees (outlineOf items last) :=
  .of_words (reads.scan_retouched chosen)

theorem gapAt_retouched (below : index < items.length) :
    gapAt (retouchedItems chosen items last) (retouchedLast chosen items last) index =
      (outlineOf items last).retouch chosen index (gapAt items last index) := by
  have found := List.getElem?_eq_getElem below
  rw [gapAt_eq (getElem?_retouchedItems found), gapAt_eq found]

theorem Regap.hasNewline {previous : Option TokenKind} {next gap gap' : Bytes} (regap : Regap previous next gap gap')
    (newline : hasNewline gap = true) : hasNewline gap' = true := by
  cases regap with
  | same => exact newline
  | spread inLine =>
    rw [newline] at inLine
    cases inLine
  | trail _ _ ends => exact hasNewline_of_startsLineBreak ends

private theorem Reads.checkBrace?_retouched (reads : Reads true items last) (moved : chosen .bracePlacement = true)
    (index : Nat) : (retouchedOutline chosen items last).checkBrace? index = none := by
  cases found : (retouchedOutline chosen items last).checkBrace? index with
  | none => rfl
  | some violation =>
    have brace := (reads.retouched chosen).misplacedBrace found
    have below := brace.below
    rw [length_retouchedItems] at below
    have inLine := brace.inLine
    rw [gapAt_retouched below] at inLine
    obtain ⟨before, -, rfl, -⟩ := brace.previous
    have item := List.getElem?_eq_getElem below
    have gap := @gapAt_eq items last _ _ item
    cases newline : hasNewline (gapAt items last (before + 1)) with
    | true =>
      rw [gap] at newline inLine
      rw [(reads.regap item).hasNewline newline] at inLine
      cases inLine
    | false =>
      have kind : items[before + 1].kind = .leftBrace := by
        obtain ⟨other, found', kind⟩ := brace.brace
        rw [getElem?_retouchedItems item] at found'
        obtain rfl := Option.some.inj found'
        exact kind
      have role := brace.role
      rw [(reads.agrees chosen).role?] at role
      rw [gap] at newline
      have fault := reads.checkBrace?_isSome (List.getElem?_eq_getElem (Nat.lt_of_succ_lt below)) item kind role newline
      obtain ⟨old, violates⟩ := Option.isSome_iff_exists.mp fault
      have misplaced := reads.misplacedBrace violates
      obtain ⟨spaces, suggested, -, broken⟩ := misplaced.suggested
      have still : (outlineOf items last).movedBrace? chosen (before + 1) = some old := by
        rw [Outline.movedBrace?, violates, Option.filter_some, misplaced.rule, if_pos moved]
      rw [Outline.retouch, still] at inLine
      simp only [suggested, List.dropLast_concat, hasNewline_append, broken, Bool.or_true] at inLine
      cases inLine

theorem retouch_eq_self (here : (outlineOf items last).movedBrace? chosen index = none)
    (before : (outlineOf items last).movedBrace? chosen (index - 1) = none)
    (unmoved : (outlineOf items last).movesStars chosen index = false) (gap : Bytes) :
    (outlineOf items last).retouch chosen index gap = gap := by
  simp only [Outline.retouch, here, unmoved, Outline.absorbed, before, Bool.false_and, Bool.false_eq_true, if_false,
    List.drop_zero]

private theorem Reads.linkedStars_retouched (reads : Reads true items last) {a b : Nat}
    (star : (outlineOf items last).is a .star = true) (star' : (outlineOf items last).is b .star = true) :
    (retouchedOutline chosen items last).linkedStars a b = (outlineOf items last).linkedStars a b := by
  by_cases next : b = a + 1
  case neg => simp only [Outline.linkedStars, beq_eq_false_iff_ne.mpr next, Bool.false_and]
  subst next
  obtain ⟨item, found, kind⟩ := (reads.is_iff _ _).mp star
  obtain ⟨item', found', kind'⟩ := (reads.is_iff _ _).mp star'
  have below := (List.getElem?_eq_some_iff.mp found').1
  rw [Outline.linkedStars, Outline.linkedStars, reads.gap_eq found found',
    (reads.retouched chosen).gap_eq (getElem?_retouchedItems found) (getElem?_retouchedItems found'),
    gapAt_retouched below]
  cases moves : (outlineOf items last).movesStars chosen (a + 1) with
  | false =>
    rw [retouch_eq_self _ _ moves]
    · refine reads.movedBrace?_eq_none fun other same => ?_
      obtain rfl := Option.some.inj (found'.symm.trans same)
      rw [kind']
      decide
    · refine reads.movedBrace?_eq_none fun other same => ?_
      obtain rfl := Option.some.inj (found.symm.trans same)
      rw [kind]
      decide
  | true =>
    obtain ⟨first, count, violation, stars, allowed, after, before⟩ := reads.movesStars_iff.mp moves
    -- Both tokens are stars, so the gap is neither the one before the run nor the one behind it.
    have later : first < a + 1 := by
      refine Nat.lt_of_le_of_ne after fun same => ?_
      obtain ⟨previous, word, rfl, at_, leads⟩ := stars.previous
      obtain rfl := Nat.succ.inj same
      obtain rfl := Option.some.inj (at_.symm.trans found)
      rw [kind] at leads
      cases leads
    have earlier : a + 1 ≤ first + count := by
      refine Nat.le_of_lt_succ (Nat.lt_of_le_of_ne before fun same => ?_)
      rw [same] at found'
      exact absurd kind' (stars.next_ne found').2
    obtain ⟨blank, inLine⟩ := stars.run.gap reads later earlier
    rw [stars.retouch_eq reads allowed after before, blank, inLine, Nat.add_sub_cancel, star]
    rfl

theorem Reads.starRuns_retouched (reads : Reads true items last) (chosen : Rule → Bool) :
    (retouchedOutline chosen items last).starRuns = (outlineOf items last).starRuns := by
  have agrees := reads.agrees chosen
  refine agrees.starRuns fun a b star star' => ?_
  rw [agrees.is] at star star'
  exact reads.linkedStars_retouched star star'

/-- The gaps of stars that are not at fault stay as they are. -/
theorem PointerStars.retouch_eq_self (stars : PointerStars items last first count) (reads : Reads true items last)
    (faultless : (outlineOf items last).checkStars? (List.range' first (count + 1)) = none) (after : first ≤ index)
    (before : index ≤ first + count + 1) (gap : Bytes) :
    (outlineOf items last).retouch chosen index gap = gap := by
  have positive : 0 < first := by
    obtain ⟨previous, -, rfl, -⟩ := stars.previous
    omega
  refine Allman.retouch_eq_self ?_ ?_ ?_ gap
  · exact reads.movedBrace?_eq_none fun item found => stars.kind_ne_brace reads (by omega) before found
  · exact reads.movedBrace?_eq_none fun item found => stars.kind_ne_brace reads (by omega) (by omega) found
  · refine Bool.eq_false_iff.mpr fun moves => ?_
    obtain ⟨first', count', violation, stars', -, after', before'⟩ := reads.movesStars_iff.mp moves
    -- Any other run at the gap would have a star in common with this one.
    have common : ∀ star, first ≤ star → star ≤ first + count → first' ≤ star → star ≤ first' + count' → False := by
      intro star low high low' high'
      have same := Outline.run_unique stars.member stars'.member (show star ∈ _ by rw [List.mem_range'_1]; omega)
        (by rw [List.mem_range'_1]; omega)
      rw [same, stars'.violates] at faultless
      cases faultless
    rcases Nat.eq_or_lt_of_le before with rfl | within
    · rcases Nat.eq_or_lt_of_le before' with same | within'
      · exact common (first + count) (by omega) (by omega) (by omega) (by omega)
      · have star := stars'.run.item reads after' (Nat.le_of_lt_succ within')
        exact absurd rfl (stars.next_ne star).2
    · rcases Nat.eq_or_lt_of_le before' with same | within'
      · have star := stars.run.item reads after (Nat.le_of_lt_succ within)
        rw [same] at star
        exact absurd rfl (stars'.next_ne star).2
      · exact common index after (Nat.le_of_lt_succ within) after' (Nat.le_of_lt_succ within')

theorem range'_inj {first' count' : Nat} (same : List.range' first (count + 1) = List.range' first' (count' + 1)) :
    first = first' ∧ count = count' := by
  have length := congrArg List.length same
  rw [List.range'_succ, List.range'_succ] at same
  exact ⟨(List.cons.inj same).1, by simpa using length⟩

theorem Outline.Agrees.starLayout {outline other : Outline} (agrees : outline.Agrees other) (previous : Nat)
    (before after : Bytes) (count : Nat) :
    outline.starLayout previous before after count = other.starLayout previous before after count := by
  rw [Outline.starLayout, Outline.starLayout, agrees.is]

/-- Stars that have been moved stand as they should. -/
theorem MisplacedStars.starText_retouched {violation : Violation}
    (stars : MisplacedStars items last first count violation) (reads : Reads true items last)
    (allowed : chosen violation.rule = true) :
    let gap := fun index => (outlineOf items last).retouch chosen index (gapAt items last index)
    starText gap first (count + 1) =
      (outlineOf items last).starLayout (first - 1) (gap first) (gap (first + count + 1)) (count + 1) := by
  intro gap
  have closed : ∀ index, first < index → index ≤ first + count → gap index = [] := by
    intro index after before
    have inside := stars.run.gap reads after before
    have star := stars.run.star (index - 1) (by omega) (by omega)
    change (outlineOf items last).retouch chosen index _ = []
    rw [stars.retouch_eq reads allowed (Nat.le_of_lt after) (Nat.le_succ_of_le before), inside.2, star]
    rfl
  have noStar := stars.previous_ne_star reads
  have lastStar : (outlineOf items last).is (first + count + 1 - 1) .star = true :=
    stars.run.star _ (by omega) (by omega)
  have head : gap first = if hasNewline (gap first) then gap first
      else if (outlineOf items last).is (first - 1) .leftParen then [] else [Byte.space] := by
    have retouched : gap first = _ := stars.retouch_eq reads allowed (Nat.le_refl _) (by omega) _
    rw [noStar, Bool.false_or] at retouched
    rw [retouched]
    cases newline : hasNewline (gapAt items last first) with
    | true => simp only [if_true, newline]
    | false => cases (outlineOf items last).is (first - 1) .leftParen <;> rfl
  have tail : gap (first + count + 1) =
      if hasNewline (gap (first + count + 1)) then gap (first + count + 1) else [] := by
    have retouched : gap (first + count + 1) = _ := stars.retouch_eq reads allowed (by omega) (Nat.le_refl _) _
    rw [lastStar, Bool.true_or] at retouched
    rw [retouched]
    cases newline : hasNewline (gapAt items last (first + count + 1)) with
    | true => simp only [if_true, newline]
    | false => rfl
  rw [starText_closed closed, Outline.starLayout, ← head, ← tail]

/-- A run of stars belongs to a declarator in every text with the same words and runs. -/
theorem PointerStars.transfer {items' : List Item} {last' : Bytes} (stars : PointerStars items last first count)
    (reads' : Reads true items' last') (agrees : (outlineOf items last).Agrees (outlineOf items' last'))
    (runs : (outlineOf items last).starRuns = (outlineOf items' last').starRuns) :
    PointerStars items' last' first count := by
  have member := stars.member
  have declarator := stars.declarator
  rw [runs] at member
  rw [agrees.isDeclarator] at declarator
  obtain ⟨_, _, same, run⟩ := Outline.exists_range_of_mem member
  obtain ⟨rfl, rfl⟩ := range'_inj same
  obtain ⟨previous, -, rfl, -⟩ := stars.previous
  exact reads'.pointerStars member run declarator

theorem PointerStars.unretouched (reads : Reads true items last)
    (stars : PointerStars (retouchedItems chosen items last) (retouchedLast chosen items last) first count) :
    PointerStars items last first count :=
  stars.transfer reads (reads.agrees chosen) (reads.starRuns_retouched chosen)

/-- After stars have been moved, none are at fault. -/
theorem Reads.checkStars?_retouched (reads : Reads true items last) (moved : chosen .pointerSpacing = true)
    {run : List Nat} (member : run ∈ (retouchedOutline chosen items last).starRuns) :
    (retouchedOutline chosen items last).checkStars? run = none := by
  have agrees := reads.agrees chosen
  cases found : (retouchedOutline chosen items last).checkStars? run with
  | none => rfl
  | some violation =>
    obtain ⟨first, count, rfl, stars'⟩ := (reads.retouched chosen).misplacedStars member found
    have below := stars'.below
    rw [length_retouchedItems] at below
    have gaps : ∀ index, first ≤ index → index ≤ first + (count + 1) →
        gapAt (retouchedItems chosen items last) (retouchedLast chosen items last) index =
          (outlineOf items last).retouch chosen index (gapAt items last index) :=
      fun index _ before => gapAt_retouched (by omega)
    have differs := stars'.differs
    rw [stars'.start, stars'.stop, stars'.slice_eq (reads.retouched chosen), stars'.suggested, agrees.starLayout,
      starText_congr gaps, gaps first (Nat.le_refl _) (by omega),
      gaps (first + count + 1) (by omega) (by omega)] at differs
    rw [reads.starRuns_retouched] at member
    cases old : (outlineOf items last).checkStars? (List.range' first (count + 1)) with
    | some fault =>
      obtain ⟨_, _, same, stars⟩ := reads.misplacedStars member old
      obtain ⟨rfl, rfl⟩ := range'_inj same
      exact absurd (stars.starText_retouched reads (by rw [stars.rule, moved])) differs
    | none =>
      have stars := stars'.unretouched reads
      have same : ∀ index, first ≤ index → index ≤ first + (count + 1) →
          (outlineOf items last).retouch chosen index (gapAt items last index) = gapAt items last index :=
        fun index after before => stars.retouch_eq_self reads old after before _
      have head := same first (Nat.le_refl _) (by omega)
      have tail := same (first + count + 1) (by omega) (by omega)
      rw [starText_congr same, head, tail] at differs
      have before := stars'.before
      have after := stars'.after
      rw [gaps first (Nat.le_refl _) (by omega), head] at before
      rw [gaps (first + count + 1) (by omega) (by omega), tail] at after
      have fault := stars.checkStars?_isSome reads before after differs
      rw [old] at fault
      cases fault

private theorem Reads.scan_retouched_eq_nil (reads : Reads true items last) :
    (scan (woven (retouchedItems (fun _ => true) items last)
      (retouchedLast (fun _ => true) items last))).violations = [] := by
  have noStars : (retouchedOutline (fun _ => true) items last).pointerViolations = [] :=
    List.filterMap_eq_nil_iff.mpr fun run member => reads.checkStars?_retouched rfl member
  have noBraces : (retouchedOutline (fun _ => true) items last).braceViolations = [] :=
    List.filterMap_eq_nil_iff.mpr fun index _ => reads.checkBrace?_retouched rfl index
  simp only [scan, noStars, noBraces, List.append_nil, List.mergeSort_nil]

end Fixed

theorem scan_fix (text : Bytes) : (scan (fix text).text).violations = [] := by
  obtain ⟨items, last, rfl, reads⟩ := exists_reads true text
  rw [fix_text reads]
  exact reads.scan_retouched_eq_nil

theorem fix_of_scan_eq_nil {text : Bytes} (clean : (scan text).violations = []) : (fix text).text = text := by
  rw [fix, applyFixes, clean]
  rfl

/-- Fixing a text once leaves nothing to fix, so fixing it again changes nothing. -/
theorem fix_clean (text : Bytes) :
    (scan (fix text).text).violations = [] ∧ (fix (fix text).text).text = (fix text).text :=
  ⟨scan_fix text, fix_of_scan_eq_nil (scan_fix text)⟩

end Allman
