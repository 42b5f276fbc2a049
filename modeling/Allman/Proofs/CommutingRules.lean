import Allman.Proofs.MovedBraces

/-! The two rules do not get in each other's way. Moving stars changes gaps inside
lines behind other tokens, so it changes neither the end of a line nor a margin, and
it never touches the gaps around a brace. Moving braces leaves the gaps of stars
alone. So the rules can be applied one after the other, in either order, and give
the text that fixing gives. -/

namespace Allman
open Region

def starsOnly (rule : Rule) : Bool := rule == .pointerSpacing

def bracesOnly (rule : Rule) : Bool := rule == .bracePlacement

section Choice
variable {items : List Item} {last : Bytes} {index first count : Nat} {chosen chosen' : Rule → Bool}

private theorem Reads.movedBrace?_choice (reads : Reads true items last) (chosen : Rule → Bool) (index : Nat) :
    (outlineOf items last).movedBrace? chosen index =
      if chosen .bracePlacement then (outlineOf items last).checkBrace? index else none := by
  rw [Outline.movedBrace?]
  cases violates : (outlineOf items last).checkBrace? index with
  | none => exact (ite_self _).symm
  | some violation => rw [Option.filter_some, (reads.misplacedBrace violates).rule]

private theorem Reads.movedBrace?_congr (reads : Reads true items last)
    (same : chosen .bracePlacement = chosen' .bracePlacement) (index : Nat) :
    (outlineOf items last).movedBrace? chosen index = (outlineOf items last).movedBrace? chosen' index := by
  rw [reads.movedBrace?_choice, reads.movedBrace?_choice, same]

theorem Reads.movedBrace?_eq (reads : Reads true items last) (allowed : chosen .bracePlacement = true) (index : Nat) :
    (outlineOf items last).movedBrace? chosen index = (outlineOf items last).checkBrace? index := by
  rw [reads.movedBrace?_choice, if_pos allowed]

private theorem Reads.movedBrace?_starsOnly (reads : Reads true items last) (index : Nat) :
    (outlineOf items last).movedBrace? starsOnly index = none :=
  reads.movedBrace?_choice starsOnly index

private theorem Reads.movesStars_congr (reads : Reads true items last)
    (same : chosen .pointerSpacing = chosen' .pointerSpacing) (index : Nat) :
    (outlineOf items last).movesStars chosen index = (outlineOf items last).movesStars chosen' index := by
  rw [Bool.eq_iff_iff, reads.movesStars_iff, reads.movesStars_iff]
  constructor
  · rintro ⟨first, count, violation, stars, allowed, bounds⟩
    rw [stars.rule, same, ← stars.rule] at allowed
    exact ⟨first, count, violation, stars, allowed, bounds⟩
  · rintro ⟨first, count, violation, stars, allowed, bounds⟩
    rw [stars.rule, ← same, ← stars.rule] at allowed
    exact ⟨first, count, violation, stars, allowed, bounds⟩

private theorem Reads.movesStars_bracesOnly (reads : Reads true items last) (index : Nat) :
    (outlineOf items last).movesStars bracesOnly index = false := by
  rw [Bool.eq_false_iff]
  intro moves
  obtain ⟨first, count, violation, stars, allowed, -⟩ := reads.movesStars_iff.mp moves
  rw [stars.rule] at allowed
  cases allowed

/-- Next to a brace no stars are moved. -/
theorem Reads.movesStars_brace (reads : Reads true items last)
    (brace : (outlineOf items last).is index .leftBrace = true) {place : Nat}
    (near : place = index ∨ place = index + 1) :
    (outlineOf items last).movesStars chosen place = false := by
  rw [Bool.eq_false_iff]
  intro moves
  obtain ⟨first, count, violation, stars, -, after, before⟩ := reads.movesStars_iff.mp moves
  obtain ⟨item, found, kind⟩ := (reads.is_iff _ _).mp brace
  exact stars.kind_ne_brace reads (by omega) (by omega) found kind

/-- On either side of a gap of stars there is no brace to move. -/
theorem PointerStars.movedBrace?_eq_none (stars : PointerStars items last first count) (reads : Reads true items last)
    (after : first ≤ index) (before : index ≤ first + count + 1) :
    (outlineOf items last).movedBrace? chosen index = none ∧
      (outlineOf items last).movedBrace? chosen (index - 1) = none := by
  obtain ⟨previous, -, rfl, -⟩ := stars.previous
  constructor
  · apply reads.movedBrace?_eq_none
    intro item found
    exact stars.kind_ne_brace reads (by omega) before found
  · apply reads.movedBrace?_eq_none
    intro item found
    exact stars.kind_ne_brace reads (by omega) (by omega) found

private theorem Reads.movedBrace?_of_movesStars (reads : Reads true items last)
    (moves : (outlineOf items last).movesStars chosen index = true) (chosen' : Rule → Bool) :
    (outlineOf items last).movedBrace? chosen' index = none ∧
      (outlineOf items last).movedBrace? chosen' (index - 1) = none := by
  obtain ⟨first, count, violation, stars, -, after, before⟩ := reads.movesStars_iff.mp moves
  exact stars.toPointerStars.movedBrace?_eq_none reads after before

theorem Reads.retouch_starsOnly (reads : Reads true items last) (index : Nat) (gap : Bytes) :
    (outlineOf items last).retouch starsOnly index gap =
      if (outlineOf items last).movesStars starsOnly index && !hasNewline gap then
        if (outlineOf items last).is (index - 1) .star || (outlineOf items last).is (index - 1) .leftParen then []
        else [Byte.space]
      else gap := by
  simp only [Outline.retouch, Outline.absorbed, reads.movedBrace?_starsOnly, List.drop_zero]

theorem gapAt_retouched_le (within : index ≤ items.length) :
    gapAt (retouchedItems chosen items last) (retouchedLast chosen items last) index =
      (outlineOf items last).retouch chosen index (gapAt items last index) := by
  rcases Nat.lt_or_eq_of_le within with below | rfl
  · exact gapAt_retouched below
  · rw [gapAt, gapAt, List.getElem?_eq_none (by rw [length_retouchedItems]),
      List.getElem?_eq_none (Nat.le_refl _)]
    rfl

end Choice

section Lists
variable {items : List Item} {last : Bytes} {violation : Violation}

theorem Reads.braceViolations_eq (reads : Reads true items last) :
    (outlineOf items last).braceViolations = (outlineOf items last).violations bracesOnly := by
  rw [Outline.braceViolations, Outline.violations]
  apply List.filterMap_congr
  intro index _
  cases violates : (outlineOf items last).checkBrace? index with
  | some violation =>
    have brace := reads.misplacedBrace violates
    exact (brace.violationAt?_eq (by rw [brace.rule]; rfl)).symm
  | none =>
    cases other : (outlineOf items last).violationAt? bracesOnly index with
    | none => rfl
    | some violation =>
      obtain ⟨allowed, brace | ⟨count, stars⟩⟩ := reads.violationAt?_cases other
      · rw [brace.violates] at violates
        cases violates
      · rw [stars.rule] at allowed
        cases allowed

private theorem Reads.mem_violations_starsOnly (reads : Reads true items last) :
    violation ∈ (outlineOf items last).violations starsOnly ↔ violation ∈ (outlineOf items last).pointerViolations := by
  rw [Outline.violations, Outline.pointerViolations, List.mem_filterMap, List.mem_filterMap]
  constructor
  · rintro ⟨index, -, violates⟩
    obtain ⟨allowed, brace | ⟨count, stars⟩⟩ := reads.violationAt?_cases violates
    · rw [brace.rule] at allowed
      cases allowed
    · exact ⟨_, stars.member, stars.violates⟩
  · rintro ⟨run, member, violates⟩
    obtain ⟨first, count, rfl, stars⟩ := reads.misplacedStars member violates
    refine ⟨first, ?_, stars.violationAt?_eq reads (by rw [stars.rule]; rfl)⟩
    have below := stars.below
    rw [List.mem_range, reads.size_eq]
    omega

theorem Reads.pointerViolations_eq (reads : Reads true items last) :
    (outlineOf items last).pointerViolations = (outlineOf items last).violations starsOnly := by
  have found : (outlineOf items last).pointerViolations.Pairwise fun a b => a.start < b.start := by
    refine List.pairwise_filterMap.mpr ((Outline.pairwise_starRuns _).imp_of_mem ?_)
    intro run run' member member' earlier violation violates other violates'
    obtain ⟨first, count, rfl, stars⟩ := reads.misplacedStars member violates
    obtain ⟨first', count', rfl, stars'⟩ := reads.misplacedStars member' violates'
    have after := earlier (first + count) (by simp [List.mem_range'_1]) first' (by simp [List.mem_range'_1])
    have apart := stars.before_stars reads stars' after
    have covers := stars.start_lt_stop reads
    omega
  have listed : ((outlineOf items last).violations starsOnly).Pairwise fun a b => a.start < b.start := by
    refine List.pairwise_filterMap.mpr (List.pairwise_lt_range.imp ?_)
    intro index index' earlier violation violates other violates'
    have apart := reads.stop_le_start earlier violates violates'
    have covers := reads.start_lt_stop violates
    omega
  have distinct : ∀ {violations : List Violation}, violations.Pairwise (fun a b => a.start < b.start) →
      violations.Nodup := by
    intro violations sorted
    apply sorted.imp
    rintro a _ earlier rfl
    omega
  have perm := (List.perm_ext_iff_of_nodup (distinct found) (distinct listed)).mpr fun _ =>
    reads.mem_violations_starsOnly.symm
  -- Both lists are in order of their starts, so they cannot differ in order alone.
  refine List.Perm.eq_of_pairwise ?_ found listed perm
  intro a b _ _ before after
  omega

end Lists

section StarsFirst
variable {items : List Item} {last : Bytes} {index : Nat} {item : Item}

/-- A gap that moving stars changes stands inside a line, behind another token. -/
theorem Reads.retouch_starsOnly_cases (reads : Reads true items last) (index : Nat) (gap : Bytes) :
    (outlineOf items last).retouch starsOnly index gap = gap ∨
      0 < index ∧ hasNewline gap = false ∧
        hasNewline ((outlineOf items last).retouch starsOnly index gap) = false := by
  rw [reads.retouch_starsOnly]
  split
  next moved =>
    rw [Bool.and_eq_true, Bool.not_eq_true'] at moved
    obtain ⟨first, count, violation, stars, -, after, -⟩ := reads.movesStars_iff.mp moved.1
    obtain ⟨before, -, rfl, -⟩ := stars.previous
    refine .inr ⟨by omega, moved.2, ?_⟩
    split <;> rfl
  next => exact .inl rfl

theorem Reads.retouchedLast_starsOnly (reads : Reads true items last) : retouchedLast starsOnly items last = last := by
  rw [reads.retouchedLast_eq, Outline.absorbed, reads.movedBrace?_starsOnly]
  rfl

/-- Moving stars changes no line end. -/
theorem Reads.sameLineEnd (reads : Reads true items last) (within : index ≤ items.length) :
    SameLineEnd (woven ((retouchedItems starsOnly items last).drop index) (retouchedLast starsOnly items last))
      (woven (items.drop index) last) := by
  induction left : items.length - index generalizing index with
  | zero =>
    obtain rfl : index = items.length := by omega
    rw [List.drop_eq_nil_of_le (by rw [length_retouchedItems]), List.drop_length, reads.retouchedLast_starsOnly]
    exact ⟨rfl, Iff.rfl⟩
  | succ left ih =>
    have below : index < items.length := by omega
    have found := List.getElem?_eq_getElem below
    obtain ⟨-, stands⟩ := reads.at found
    obtain ⟨c, more, bytes, solid⟩ := stands.solid
    have rest := (@ih (index + 1) (by omega) (by omega)).append items[index].bytes
    rw [woven_drop (getElem?_retouchedItems found), woven_drop found]
    dsimp only
    rcases reads.retouch_starsOnly_cases index items[index].gap with same | ⟨-, inLine, inLine'⟩
    · rw [same]
      exact rest.append _
    · apply rest.regap inLine' inLine
      have ahead := (isBlank_of_isSpace_eq_false solid).1
      simpa [bytes] using ahead

private theorem woven_take_succ (found : items[index]? = some item) :
    woven (items.take (index + 1)) [] = woven (items.take index) [] ++ item.gap ++ item.bytes := by
  rw [List.take_add_one, found, woven_append]
  simp [woven]

private theorem Reads.margin_gap (reads : Reads true items last) (below : index < items.length)
    (same : Margin.after {} (woven ((retouchedItems starsOnly items last).take index) []) =
      Margin.after {} (woven (items.take index) [])) :
    Margin.after {} (woven ((retouchedItems starsOnly items last).take index) [] ++
        (outlineOf items last).retouch starsOnly index items[index].gap) =
      Margin.after {} (woven (items.take index) [] ++ items[index].gap) := by
  rw [Margin.after_append, same, ← Margin.after_append]
  rcases reads.retouch_starsOnly_cases index items[index].gap with kept | ⟨positive, inLine, inLine'⟩
  · rw [kept]
  · obtain ⟨before, rfl⟩ := Nat.exists_eq_succ_of_ne_zero (Nat.ne_of_gt positive)
    have found := List.getElem?_eq_getElem (Nat.lt_of_succ_lt below)
    obtain ⟨c, ends, solid⟩ := reads.getLast?_before found (List.getElem?_eq_getElem below) inLine
    exact Margin.after_gap {} ends solid inLine' inLine

/-- Moving stars changes no margin. -/
theorem Reads.margin_starsOnly (reads : Reads true items last) (within : index ≤ items.length) :
    Margin.after {} (woven ((retouchedItems starsOnly items last).take index) []) =
      Margin.after {} (woven (items.take index) []) := by
  induction index with
  | zero => rfl
  | succ index ih =>
    have found := List.getElem?_eq_getElem (Nat.lt_of_succ_le within)
    have gap := reads.margin_gap (Nat.lt_of_succ_le within) (ih (Nat.le_of_succ_le within))
    have append := fun front => Margin.after_append {} front items[index].bytes
    rw [woven_take_succ found, woven_take_succ (getElem?_retouchedItems found), append, append]
    exact congrArg (·.after items[index].bytes) gap

private theorem Reads.indentAt_starsOnly (reads : Reads true items last) (below : index < items.length) :
    indentAt (retouchedItems starsOnly items last) (retouchedLast starsOnly items last) index =
      indentAt items last index := by
  have found := List.getElem?_eq_getElem below
  rw [indentAt, indentAt, gapAt_eq found, gapAt_retouched below, gapAt_eq found, indentOf, indentOf,
    reads.margin_gap below (reads.margin_starsOnly (Nat.le_of_lt below))]

private theorem Reads.checkBrace?_starsOnly (reads : Reads true items last) (index : Nat) :
    ((retouchedOutline starsOnly items last).checkBrace? index).isSome =
      ((outlineOf items last).checkBrace? index).isSome := by
  have agrees := reads.agrees starsOnly
  rw [Bool.eq_iff_iff, (reads.retouched starsOnly).checkBrace?_isSome_iff, reads.checkBrace?_isSome_iff, agrees.is,
    agrees.role?]
  apply and_congr_right
  intro _
  apply and_congr_right
  intro brace
  obtain ⟨item, found, -⟩ := (reads.is_iff _ _).mp brace
  rw [gapAt_retouched (List.getElem?_eq_some_iff.mp found).1, reads.retouch_starsOnly,
    reads.movesStars_brace brace (.inl rfl)]
  rfl

/-- A brace that is moved after the stars is moved as before them. -/
theorem Reads.movedBrace_starsOnly (reads : Reads true items last) {violation violation' : Violation}
    (brace : MisplacedBrace items last index violation)
    (brace' : MisplacedBrace (retouchedItems starsOnly items last) (retouchedLast starsOnly items last) index
      violation') :
    violation'.suggested = violation.suggested ∧
      violation'.stop - (violation'.site + 1) = violation.stop - (violation.site + 1) := by
  have retouched := reads.retouched starsOnly
  have item := brace.item reads
  have below := (List.getElem?_eq_some_iff.mp item).1
  obtain ⟨braced, found, -⟩ := Outline.checkBrace?_eq_some brace.violates
  obtain ⟨token, owned, -⟩ := Outline.owningLine_eq found
  constructor
  · have inside : (outlineOf items last).owner index < items.length := by
      rw [reads.token, Option.map_eq_some_iff] at owned
      obtain ⟨_, owned, -⟩ := owned
      exact (List.getElem?_eq_some_iff.mp owned).1
    have ending := ((reads.sameLineEnd (Nat.succ_le_of_lt below)).cons Byte.leftBrace).ending
    rw [brace.suggested_eq reads, brace'.suggested_eq retouched, (reads.agrees starsOnly).owner,
      reads.indentAt_starsOnly inside, ending]
  · have is := (reads.is_iff index .leftBrace).mpr brace.brace
    rw [brace.absorbed_eq reads, brace'.absorbed_eq retouched, length_retouchedItems,
      gapAt_retouched_le (Nat.succ_le_of_lt below), reads.retouch_starsOnly, reads.movesStars_brace is (.inr rfl)]
    rfl

private theorem Reads.absorbed_starsOnly (reads : Reads true items last) (index : Nat) :
    (retouchedOutline starsOnly items last).absorbed bracesOnly index =
      (outlineOf items last).absorbed (fun _ => true) index := by
  have retouched := reads.retouched starsOnly
  have present := reads.checkBrace?_starsOnly (index - 1)
  rw [Outline.absorbed, Outline.absorbed, reads.movedBrace?_eq rfl, retouched.movedBrace?_eq rfl]
  cases before : (outlineOf items last).checkBrace? (index - 1) with
  | none =>
    rw [before, Option.isSome_none, Option.isSome_eq_false_iff, Option.isNone_iff_eq_none] at present
    rw [present]
  | some violation =>
    rw [before, Option.isSome_some, Option.isSome_iff_exists] at present
    obtain ⟨violation', after⟩ := present
    rw [after]
    exact (reads.movedBrace_starsOnly (reads.misplacedBrace before) (retouched.misplacedBrace after)).2

/-- Braces moved after the stars leave every gap as moving both at once does. -/
theorem Reads.retouch_stars_braces (reads : Reads true items last) (index : Nat) (gap : Bytes) :
    (retouchedOutline starsOnly items last).retouch bracesOnly index
        ((outlineOf items last).retouch starsOnly index gap) =
      (outlineOf items last).retouch (fun _ => true) index gap := by
  have retouched := reads.retouched starsOnly
  have stars := @Reads.movesStars_congr items last (fun _ => true) starsOnly reads rfl index
  have present := reads.checkBrace?_starsOnly index
  rw [Outline.retouch, Outline.retouch.eq_def _ (fun _ => true), reads.movedBrace?_eq rfl,
    retouched.movedBrace?_eq rfl, retouched.movesStars_bracesOnly, stars, reads.absorbed_starsOnly]
  cases before : (outlineOf items last).checkBrace? index with
  | some violation =>
    -- The gap before a moved brace is replaced as a whole, by the same text in both.
    rw [before, Option.isSome_some, Option.isSome_iff_exists] at present
    obtain ⟨violation', after⟩ := present
    have brace := reads.misplacedBrace before
    have is := (reads.is_iff index .leftBrace).mpr brace.brace
    have same := (reads.movedBrace_starsOnly brace (retouched.misplacedBrace after)).1
    rw [after, reads.retouch_starsOnly, reads.movesStars_brace is (.inl rfl)]
    simp only [same, Bool.false_and, Bool.false_eq_true, if_false]
  | none =>
    rw [before, Option.isSome_none, Option.isSome_eq_false_iff, Option.isNone_iff_eq_none] at present
    rw [present, reads.retouch_starsOnly]
    simp only [Bool.false_and, Bool.false_eq_true, if_false]
    split
    next moved =>
      -- Stars are not moved right behind a moved brace, so nothing is taken away here.
      rw [Bool.and_eq_true] at moved
      have kept : (outlineOf items last).absorbed (fun _ => true) index = 0 := by
        rw [Outline.absorbed, (reads.movedBrace?_of_movesStars moved.1 _).2]
      rw [kept, List.drop_zero]
    next => rfl

end StarsFirst

section BracesFirst
variable {items : List Item} {last : Bytes} {index first count : Nat} {chosen : Rule → Bool}

theorem PointerStars.retouched (stars : PointerStars items last first count) (reads : Reads true items last)
    (chosen : Rule → Bool) :
    PointerStars (retouchedItems chosen items last) (retouchedLast chosen items last) first count :=
  stars.transfer (reads.retouched chosen) (reads.agrees chosen).symm (reads.starRuns_retouched chosen).symm

/-- Whether stars of a declarator are at fault is told from their gaps. -/
theorem PointerStars.misplaced_iff (stars : PointerStars items last first count) (reads : Reads true items last) :
    (∃ violation, MisplacedStars items last first count violation) ↔
      allSpaces (gapAt items last first) = true ∧ allSpaces (gapAt items last (first + count + 1)) = true ∧
        starText (gapAt items last) first (count + 1) ≠ (outlineOf items last).starLayout (first - 1)
          (gapAt items last first) (gapAt items last (first + count + 1)) (count + 1) := by
  constructor
  · rintro ⟨violation, misplaced⟩
    have differs := misplaced.differs
    rw [misplaced.start, misplaced.stop, stars.slice_eq reads, misplaced.suggested] at differs
    exact ⟨misplaced.before, misplaced.after, differs⟩
  · rintro ⟨before, after, differs⟩
    have fault := stars.checkStars?_isSome reads before after differs
    obtain ⟨violation, violates⟩ := Option.isSome_iff_exists.mp fault
    obtain ⟨_, _, same, misplaced⟩ := reads.misplacedStars stars.member violates
    obtain ⟨rfl, rfl⟩ := range'_inj same
    exact ⟨violation, misplaced⟩

/-- Moving braces leaves the gaps of stars alone. -/
theorem PointerStars.gapAt_bracesOnly (stars : PointerStars items last first count) (reads : Reads true items last)
    (after : first ≤ index) (before : index ≤ first + count + 1) :
    gapAt (retouchedItems bracesOnly items last) (retouchedLast bracesOnly items last) index =
      gapAt items last index := by
  have below := stars.below
  obtain ⟨here, earlier⟩ := stars.movedBrace?_eq_none reads after before
  rw [gapAt_retouched (by omega), Allman.retouch_eq_self here earlier (reads.movesStars_bracesOnly index)]

private theorem PointerStars.misplaced_bracesOnly (stars : PointerStars items last first count)
    (reads : Reads true items last) :
    (∃ violation, MisplacedStars (retouchedItems bracesOnly items last) (retouchedLast bracesOnly items last)
        first count violation) ↔ ∃ violation, MisplacedStars items last first count violation := by
  have gaps : ∀ place, first ≤ place → place ≤ first + (count + 1) →
      gapAt (retouchedItems bracesOnly items last) (retouchedLast bracesOnly items last) place =
        gapAt items last place :=
    fun place after before => stars.gapAt_bracesOnly reads after before
  rw [(stars.retouched reads bracesOnly).misplaced_iff (reads.retouched bracesOnly), stars.misplaced_iff reads,
    starText_congr gaps, gaps first (Nat.le_refl _) (by omega), gaps (first + count + 1) (by omega) (by omega),
    (reads.agrees bracesOnly).starLayout]

private theorem Reads.movesStars_bracesFirst (reads : Reads true items last) (index : Nat) :
    (retouchedOutline bracesOnly items last).movesStars starsOnly index =
      (outlineOf items last).movesStars starsOnly index := by
  rw [Bool.eq_iff_iff, (reads.retouched bracesOnly).movesStars_iff, reads.movesStars_iff]
  constructor
  · rintro ⟨first, count, violation, stars, allowed, bounds⟩
    have pointer := stars.toPointerStars.unretouched reads
    obtain ⟨violation', stars'⟩ := (pointer.misplaced_bracesOnly reads).mp ⟨violation, stars⟩
    exact ⟨first, count, violation', stars', by rw [stars'.rule]; rfl, bounds⟩
  · rintro ⟨first, count, violation, stars, allowed, bounds⟩
    obtain ⟨violation', stars'⟩ := (stars.toPointerStars.misplaced_bracesOnly reads).mpr ⟨violation, stars⟩
    exact ⟨first, count, violation', stars', by rw [stars'.rule]; rfl, bounds⟩

/-- Stars moved after the braces leave every gap as moving both at once does. -/
theorem Reads.retouch_braces_stars (reads : Reads true items last) (index : Nat) (gap : Bytes) :
    (retouchedOutline bracesOnly items last).retouch starsOnly index
        ((outlineOf items last).retouch bracesOnly index gap) =
      (outlineOf items last).retouch (fun _ => true) index gap := by
  have agrees := reads.agrees bracesOnly
  have all := @Reads.movesStars_congr items last (fun _ => true) starsOnly reads rfl index
  have still := reads.movesStars_bracesOnly index
  rw [(reads.retouched bracesOnly).retouch_starsOnly, reads.movesStars_bracesFirst, agrees.is, agrees.is]
  cases moves : (outlineOf items last).movesStars starsOnly index with
  | true =>
    rw [moves] at all
    obtain ⟨here, before⟩ := reads.movedBrace?_of_movesStars moves bracesOnly
    obtain ⟨here', before'⟩ := reads.movedBrace?_of_movesStars moves fun _ => true
    rw [retouch_eq_self here before still]
    simp only [Outline.retouch, Outline.absorbed, here', before', all, List.drop_zero]
  | false =>
    have braces := @Reads.movedBrace?_congr items last bracesOnly (fun _ => true) reads rfl
    rw [moves] at all
    simp only [Outline.retouch, Outline.absorbed, braces, still, all, Bool.false_and, Bool.false_eq_true, if_false]

end BracesFirst

section Assembly
variable {items : List Item} {last : Bytes}

/-- Two passes that retouch every gap as one pass does give the same text. -/
theorem retouched_twice {first second both : Rule → Bool}
    (gaps : ∀ index ≤ items.length, (retouchedOutline first items last).retouch second index
      ((outlineOf items last).retouch first index (gapAt items last index)) =
        (outlineOf items last).retouch both index (gapAt items last index)) :
    woven (retouchedItems second (retouchedItems first items last) (retouchedLast first items last))
        (retouchedLast second (retouchedItems first items last) (retouchedLast first items last)) =
      woven (retouchedItems both items last) (retouchedLast both items last) := by
  congr 1
  · apply List.ext_getElem?
    intro index
    cases found : items[index]? with
    | none =>
      have ended := List.getElem?_eq_none_iff.mp found
      rw [List.getElem?_eq_none, List.getElem?_eq_none]
      all_goals simpa only [length_retouchedItems] using ended
    | some item =>
      have below := (List.getElem?_eq_some_iff.mp found).1
      have here := gaps index (Nat.le_of_lt below)
      rw [gapAt_eq found] at here
      rw [getElem?_retouchedItems (getElem?_retouchedItems found), getElem?_retouchedItems found, here]
  · have here := gaps items.length (Nat.le_refl _)
    rw [gapAt, List.getElem?_eq_none (Nat.le_refl _)] at here
    rw [retouchedLast, length_retouchedItems]
    exact here

end Assembly

def fixStars (text : Bytes) : Bytes :=
  (applyEdits text ((Outline.ofText text).pointerViolations.map Violation.toEdit)).text

def fixBraces (text : Bytes) : Bytes :=
  (applyEdits text ((Outline.ofText text).braceViolations.map Violation.toEdit)).text

section Passes
variable {items : List Item} {last : Bytes}

theorem Reads.fixStars_eq (reads : Reads true items last) : fixStars (woven items last) =
    woven (retouchedItems starsOnly items last) (retouchedLast starsOnly items last) := by
  rw [fixStars, reads.pointerViolations_eq]
  exact reads.applyEdits_eq starsOnly

theorem Reads.fixBraces_eq (reads : Reads true items last) : fixBraces (woven items last) =
    woven (retouchedItems bracesOnly items last) (retouchedLast bracesOnly items last) := by
  rw [fixBraces, reads.braceViolations_eq]
  exact reads.applyEdits_eq bracesOnly

end Passes

/-- The two rules can be applied one after the other, in either order. -/
theorem fix_by_rule (text : Bytes) :
    fixBraces (fixStars text) = (fix text).text ∧ fixStars (fixBraces text) = (fix text).text := by
  obtain ⟨items, last, rfl, reads⟩ := exists_reads true text
  rw [fix_text reads]
  constructor
  · rw [reads.fixStars_eq, (reads.retouched starsOnly).fixBraces_eq]
    apply retouched_twice
    intro index _
    exact reads.retouch_stars_braces index _
  · rw [reads.fixBraces_eq, (reads.retouched bracesOnly).fixStars_eq]
    apply retouched_twice
    intro index _
    exact reads.retouch_braces_stars index _

end Allman
