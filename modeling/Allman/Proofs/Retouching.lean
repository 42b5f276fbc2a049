import Allman.Proofs.WellFormedReport

/-! Fixing a text changes gaps of its layout and nothing else. A gap is covered by at
most one violation, so what becomes of it can be said gap by gap: the gap before a
moved brace gets a line break and the indentation, the gap behind it loses the
blanks that ended its line, and the gaps of misplaced stars are closed or get their
one space. The text that the edits give is the text of the layout with these gaps. -/

namespace Allman
open Region

namespace Outline

def movedBrace? (outline : Outline) (chosen : Rule → Bool) (index : Nat) : Option Violation :=
  (outline.checkBrace? index).filter (chosen ·.rule)

/-- The gap before a token stands before, between or behind stars that are to be moved. -/
def movesStars (outline : Outline) (chosen : Rule → Bool) (index : Nat) : Bool :=
  outline.starRuns.any fun run =>
    (run.contains index || run.contains (index - 1)) && (outline.checkStars? run).any (chosen ·.rule)

/-- How many bytes a moved brace takes from the gap behind it, where that is the gap before `index`. -/
def absorbed (outline : Outline) (chosen : Rule → Bool) (index : Nat) : Nat :=
  match outline.movedBrace? chosen (index - 1) with
  | some violation => violation.stop - (violation.site + 1)
  | none => 0

/-- What becomes of the gap before a token when the violations of the chosen rules are fixed. -/
def retouch (outline : Outline) (chosen : Rule → Bool) (index : Nat) (gap : Bytes) : Bytes :=
  match outline.movedBrace? chosen index with
  | some violation => trimEnd Byte.isBlank gap ++ violation.suggested.dropLast
  | none =>
    if outline.movesStars chosen index && !hasNewline gap then
      if outline.is (index - 1) .star || outline.is (index - 1) .leftParen then [] else [Byte.space]
    else gap.drop (outline.absorbed chosen index)

end Outline

def retouchedItems (chosen : Rule → Bool) (items : List Item) (last : Bytes) : List Item :=
  items.mapIdx fun index item =>
    { item with gap := (outlineOf items last).retouch chosen index item.gap }

def retouchedLast (chosen : Rule → Bool) (items : List Item) (last : Bytes) : Bytes :=
  (outlineOf items last).retouch chosen items.length last

section Moves
variable {items : List Item} {last : Bytes} {index first count : Nat} {item : Item} {violation : Violation}
  {chosen : Rule → Bool}

theorem Reads.movedBrace?_some (reads : Reads true items last)
    (moved : (outlineOf items last).movedBrace? chosen index = some violation) :
    MisplacedBrace items last index violation := by
  rw [Outline.movedBrace?, Option.filter_eq_some_iff] at moved
  exact reads.misplacedBrace moved.1

theorem Reads.movedBrace?_eq_none (reads : Reads true items last)
    (other : ∀ item, items[index]? = some item → item.kind ≠ .leftBrace) :
    (outlineOf items last).movedBrace? chosen index = none := by
  cases moved : (outlineOf items last).movedBrace? chosen index with
  | none => rfl
  | some violation =>
    obtain ⟨item, found, kind⟩ := (reads.movedBrace?_some moved).brace
    exact absurd kind (other item found)

theorem Reads.movesStars_iff (reads : Reads true items last) :
    (outlineOf items last).movesStars chosen index = true ↔
      ∃ first count violation, MisplacedStars items last first count violation ∧ chosen violation.rule = true ∧
        first ≤ index ∧ index ≤ first + count + 1 := by
  simp only [Outline.movesStars, List.any_eq_true, Bool.and_eq_true, Bool.or_eq_true, List.contains_iff_mem,
    Option.any_eq_true]
  constructor
  · rintro ⟨run, member, touches, violation, violates, allowed⟩
    obtain ⟨first, count, rfl, stars⟩ := reads.misplacedStars member violates
    obtain ⟨before, -, rfl, -, -⟩ := stars.previous
    refine ⟨_, count, violation, stars, allowed, ?_⟩
    simp only [List.mem_range'_1] at touches
    omega
  · rintro ⟨first, count, violation, stars, allowed, after, before⟩
    refine ⟨_, stars.member, ?_, violation, stars.violates, allowed⟩
    obtain ⟨before, -, rfl, -, -⟩ := stars.previous
    simp only [List.mem_range'_1]
    omega

theorem PointerStars.kind_ne_brace (stars : PointerStars items last first count)
    (reads : Reads true items last) (after : first ≤ index + 1) (before : index ≤ first + count + 1)
    (found : items[index]? = some item) : item.kind ≠ .leftBrace := by
  rcases Nat.lt_or_ge index first with earlier | within
  · obtain ⟨previous, word, rfl, found', leads⟩ := stars.previous
    obtain rfl : previous = index := by omega
    obtain rfl := Option.some.inj (found'.symm.trans found)
    rintro kind
    rw [kind] at leads
    cases leads
  · rcases Nat.eq_or_lt_of_le before with rfl | before
    · exact (stars.next_ne found).1
    · obtain rfl := Option.some.inj ((stars.run.item reads within (Nat.le_of_lt_succ before)).symm.trans found)
      exact nofun

theorem PointerStars.previous_ne_star (stars : PointerStars items last first count) (reads : Reads true items last) :
    (outlineOf items last).is (first - 1) .star = false := by
  obtain ⟨before, word, rfl, found, leads⟩ := stars.previous
  refine Bool.eq_false_iff.mpr fun star => ?_
  obtain ⟨other, found', kind⟩ := (reads.is_iff _ _).mp star
  obtain rfl := Option.some.inj (found.symm.trans found')
  rw [kind] at leads
  cases leads

/-- A gap of misplaced stars is closed or gets one space, unless a line break is in it. -/
theorem MisplacedStars.retouch_eq (stars : MisplacedStars items last first count violation)
    (reads : Reads true items last) (allowed : chosen violation.rule = true) (after : first ≤ index)
    (before : index ≤ first + count + 1) (gap : Bytes) :
    (outlineOf items last).retouch chosen index gap =
      if hasNewline gap then gap
      else if (outlineOf items last).is (index - 1) .star ||
        (outlineOf items last).is (index - 1) .leftParen then [] else [Byte.space] := by
  have here := @reads.movedBrace?_eq_none _ _ index chosen fun item found =>
    stars.kind_ne_brace reads (Nat.le_succ_of_le after) before found
  obtain ⟨previous, -, rfl, -, -⟩ := stars.previous
  have previously := @reads.movedBrace?_eq_none _ _ (index - 1) chosen fun item found =>
    stars.kind_ne_brace reads (by omega) (by omega) found
  have absorbed : (outlineOf items last).absorbed chosen index = 0 := by rw [Outline.absorbed, previously]
  have moves := reads.movesStars_iff.mpr ⟨_, count, violation, stars, allowed, after, before⟩
  simp only [Outline.retouch, here, absorbed, moves, Bool.true_and, List.drop_zero]
  cases hasNewline gap <;> rfl

theorem Reads.absorbed_succ (reads : Reads true items last)
    (moved : (outlineOf items last).movedBrace? chosen index = some violation) :
    reach items (index + 1) + (outlineOf items last).absorbed chosen (index + 1) = violation.stop := by
  have brace := reads.movedBrace?_some moved
  have next := reach_succ (brace.item reads)
  obtain ⟨blanks, rest, -, -, stop, -⟩ := brace.stop
  simp only [List.length_singleton] at next
  simp only [Outline.absorbed, Nat.add_sub_cancel, moved, stop, brace.site]
  omega

private theorem absorbed_eq_zero (still : (outlineOf items last).movedBrace? chosen index = none) :
    (outlineOf items last).absorbed chosen (index + 1) = 0 := by
  simp only [Outline.absorbed, Nat.add_sub_cancel, still]

private theorem Reads.absorbed_le (reads : Reads true items last) (index : Nat) :
    (outlineOf items last).absorbed chosen index ≤ (gapAt items last index).length := by
  cases moved : (outlineOf items last).movedBrace? chosen (index - 1) with
  | none => simp only [Outline.absorbed, moved, Nat.zero_le]
  | some violation =>
    have brace := reads.movedBrace?_some moved
    obtain ⟨before, -, same, -⟩ := brace.previous
    obtain ⟨index, rfl⟩ : ∃ before, index = before + 1 := ⟨index - 1, by omega⟩
    have stop := brace.stop_le
    rw [← reads.absorbed_succ moved] at stop
    simpa using stop

private theorem Reads.absorbed_inLine (reads : Reads true items last) (below : index < items.length)
    (inLine : hasNewline (gapAt items last index) = false) : (outlineOf items last).absorbed chosen index = 0 := by
  cases moved : (outlineOf items last).movedBrace? chosen (index - 1) with
  | none => simp only [Outline.absorbed, moved]
  | some violation =>
    have brace := reads.movedBrace?_some moved
    obtain ⟨before, -, same, -⟩ := brace.previous
    obtain ⟨index, rfl⟩ : ∃ before, index = before + 1 := ⟨index - 1, by omega⟩
    have stop := brace.stop_eq below inLine
    have whole := reads.absorbed_succ moved
    simp only [Nat.add_sub_cancel] at stop whole
    omega

end Moves

def laterEdits (chosen : Rule → Bool) (items : List Item) (last : Bytes) (index : Nat) : List Edit :=
  ((List.range' index (items.length - index)).filterMap ((outlineOf items last).violationAt? chosen)).map
    Violation.toEdit

section Splice
variable {items : List Item} {last : Bytes} {index : Nat} {item : Item} {violation : Violation} {chosen : Rule → Bool}

private theorem laterEdits_cons (below : index < items.length) :
    laterEdits chosen items last index =
      (((outlineOf items last).violationAt? chosen index).map Violation.toEdit).toList ++
        laterEdits chosen items last (index + 1) := by
  have step : items.length - index = items.length - (index + 1) + 1 := by omega
  rw [laterEdits, step, List.range'_succ, List.filterMap_cons]
  cases (outlineOf items last).violationAt? chosen index <;> rfl

private theorem laterEdits_skip {index' : Nat} (ordered : index ≤ index') (within : index' ≤ items.length)
    (quiet : ∀ between, index ≤ between → between < index' →
      (outlineOf items last).violationAt? chosen between = none) :
    laterEdits chosen items last index = laterEdits chosen items last index' := by
  induction ordered with
  | refl => rfl
  | @step index' ordered ih =>
    rw [ih (Nat.le_of_succ_le within) fun between after before => quiet between after (Nat.lt_succ_of_lt before),
      laterEdits_cons within, quiet index' ordered (Nat.lt_succ_self _)]
    rfl

theorem Reads.reach_le_start (reads : Reads true items last) {edit : Edit}
    (member : edit ∈ laterEdits chosen items last index) : reach items index ≤ edit.start := by
  obtain ⟨violation, listed, rfl⟩ := List.mem_map.mp member
  obtain ⟨later, within, violates⟩ := List.mem_filterMap.mp listed
  refine Nat.le_trans (reach_mono items (List.mem_range'_1.mp within).1) ?_
  obtain ⟨-, brace | ⟨count, stars⟩⟩ := reads.violationAt?_cases violates
  · exact brace.reach_le_start
  · exact Nat.le_of_eq stars.start.symm

/-- What stands from the gap before a token to the end of the token is copied up to the next edit. -/
theorem Reads.splice_copy (reads : Reads true items last) (found : items[index]? = some item) {taken : Nat}
    (inside : taken ≤ item.gap.length) :
    Edit.splice (woven items last) (reach items index + taken) (laterEdits chosen items last (index + 1)) =
      item.gap.drop taken ++ (item.bytes ++
        Edit.splice (woven items last) (reach items (index + 1)) (laterEdits chosen items last (index + 1))) := by
  have next := reach_succ found
  rw [Edit.splice_eq_slice_append (show reach items index + taken ≤ reach items (index + 1) by omega)
    fun edit member => reads.reach_le_start member, ← List.append_assoc]
  congr 1
  have length : reach items (index + 1) - (reach items index + taken) =
      item.gap.length - taken + item.bytes.length := by omega
  rw [slice, length, ← List.drop_drop, drop_reach, woven_drop found, List.drop_append_of_le_length inside,
    ← List.append_assoc, List.take_left' (by simp)]

theorem getElem?_retouchedItems (found : items[index]? = some item) :
    (retouchedItems chosen items last)[index]? =
      some { item with gap := (outlineOf items last).retouch chosen index item.gap } := by
  rw [retouchedItems, List.getElem?_mapIdx, found]
  rfl

theorem length_retouchedItems (chosen : Rule → Bool) (items : List Item) (last : Bytes) :
    (retouchedItems chosen items last).length = items.length := by
  rw [retouchedItems, List.length_mapIdx]

def retouchedFrom (chosen : Rule → Bool) (items : List Item) (last : Bytes) (index : Nat) : Bytes :=
  woven ((retouchedItems chosen items last).drop index) (retouchedLast chosen items last)

private theorem retouchedFrom_eq (found : items[index]? = some item) :
    retouchedFrom chosen items last index = (outlineOf items last).retouch chosen index item.gap ++
      (item.bytes ++ retouchedFrom chosen items last (index + 1)) :=
  woven_drop (getElem?_retouchedItems found)

/-- No stars that are to be moved stand right before the gap. -/
def Clear (chosen : Rule → Bool) (items : List Item) (last : Bytes) (index : Nat) : Prop :=
  ∀ first count violation, MisplacedStars items last first count violation → chosen violation.rule = true →
    first < index → first + count + 1 < index

theorem Reads.quiet (reads : Reads true items last) (clear : Clear chosen items last index)
    (still : (outlineOf items last).violationAt? chosen index = none) :
    (outlineOf items last).movedBrace? chosen index = none ∧ (outlineOf items last).movesStars chosen index = false ∧
      Clear chosen items last (index + 1) := by
  have noStars : ∀ count violation, MisplacedStars items last index count violation → chosen violation.rule ≠ true := by
    intro count violation stars allowed
    rw [stars.violationAt?_eq reads allowed] at still
    cases still
  refine ⟨?_, ?_, ?_⟩
  · cases moved : (outlineOf items last).movedBrace? chosen index with
    | none => rfl
    | some violation =>
      rw [Outline.violationAt?, Option.filter_eq_none_iff] at still
      rw [Outline.movedBrace?, Option.filter_eq_some_iff] at moved
      exact absurd moved.2 (still violation (by simp [moved.1]))
  · refine Bool.eq_false_iff.mpr fun moves => ?_
    obtain ⟨first, count, violation, stars, allowed, after, before⟩ := reads.movesStars_iff.mp moves
    rcases Nat.eq_or_lt_of_le after with rfl | earlier
    · exact noStars count violation stars allowed
    · have := clear first count violation stars allowed earlier
      omega
  · intro first count violation stars allowed earlier
    rcases Nat.eq_or_lt_of_le (Nat.le_of_lt_succ earlier) with rfl | earlier
    · exact absurd allowed (noStars count violation stars)
    · exact Nat.lt_succ_of_lt (clear first count violation stars allowed earlier)

private theorem MisplacedStars.retouchedFrom_run {first count : Nat}
    (stars : MisplacedStars items last first count violation)
    (reads : Reads true items last) (allowed : chosen violation.rule = true) (step : Nat) (within : step ≤ count) :
    retouchedFrom chosen items last (first + (count - step) + 1) =
      List.replicate step Byte.star ++ retouchedFrom chosen items last (first + count + 1) := by
  induction step with
  | zero => rfl
  | succ step ih =>
    have here : first + (count - (step + 1)) + 1 = first + (count - step) := by omega
    have inside := stars.run.gap reads (show first < first + (count - step) by omega) (by omega)
    have previous := stars.run.star (first + (count - step) - 1) (by omega) (by omega)
    rw [here, retouchedFrom_eq (stars.run.item reads (Nat.le_add_right _ _) (by omega)),
      stars.retouch_eq reads allowed (Nat.le_add_right _ _) (by omega), inside.2, previous,
      ih (Nat.le_of_succ_le within)]
    rfl

/-- The text of the stars to be moved and of the gaps around them is the text suggested for them. -/
theorem MisplacedStars.retouchedFrom_eq {count : Nat} (stars : MisplacedStars items last index count violation)
    (reads : Reads true items last) (allowed : chosen violation.rule = true)
    (next : items[index + count + 1]? = some item) :
    retouchedFrom chosen items last index =
      violation.suggested ++ (item.bytes ++ retouchedFrom chosen items last (index + count + 2)) := by
  have noStar := stars.previous_ne_star reads
  have lastStar : (outlineOf items last).is (index + count + 1 - 1) .star = true :=
    stars.run.star _ (by omega) (by omega)
  have inner := stars.retouchedFrom_run reads allowed count (Nat.le_refl _)
  rw [Nat.sub_self, Nat.add_zero] at inner
  rw [Allman.retouchedFrom_eq (stars.run.item reads (Nat.le_refl _) (Nat.le_add_right _ _)), inner,
    Allman.retouchedFrom_eq next, stars.retouch_eq reads allowed (Nat.le_refl _) (by omega),
    stars.retouch_eq reads allowed (by omega) (Nat.le_refl _), noStar, lastStar, stars.suggested, Outline.starLayout,
    gapAt_eq next, List.replicate_succ]
  simp only [Bool.false_or, Bool.true_or, if_true, List.nil_append, List.append_assoc, List.cons_append]

theorem slice_self (text : Bytes) (offset : Nat) : slice text offset offset = [] := by
  rw [slice, Nat.sub_self, List.take_zero]

theorem Reads.retouchedLast_eq (reads : Reads true items last) :
    retouchedLast chosen items last = last.drop ((outlineOf items last).absorbed chosen items.length) := by
  have still := @reads.movedBrace?_eq_none _ _ items.length chosen fun item found => by simp at found
  have unmoved : (outlineOf items last).movesStars chosen items.length = false := by
    refine Bool.eq_false_iff.mpr fun moves => ?_
    obtain ⟨first, count, violation, stars, -, -, before⟩ := reads.movesStars_iff.mp moves
    have := stars.below
    omega
  simp only [retouchedLast, Outline.retouch, still, unmoved, Bool.false_and, Bool.false_eq_true, if_false]

private theorem Reads.splice_end (reads : Reads true items last) :
    Edit.splice (woven items last) (reach items items.length + (outlineOf items last).absorbed chosen items.length)
      (laterEdits chosen items last items.length) = retouchedFrom chosen items last items.length := by
  have finished : (retouchedItems chosen items last).drop items.length = [] :=
    List.drop_eq_nil_of_le (Nat.le_of_eq (length_retouchedItems chosen items last))
  rw [laterEdits, Nat.sub_self, List.range'_zero, retouchedFrom, finished, reads.retouchedLast_eq]
  simp only [List.filterMap_nil, List.map_nil, Edit.splice, woven]
  rw [← List.drop_drop, drop_reach, List.drop_length, woven]

theorem MisplacedBrace.clear (brace : MisplacedBrace items last index violation) (reads : Reads true items last) :
    Clear chosen items last (index + 1) := by
  intro first count other stars _ earlier
  refine Nat.lt_of_not_le fun inside => ?_
  have star := stars.run.item reads (Nat.le_of_lt_succ earlier) (Nat.le_of_succ_le_succ inside)
  cases (brace.item reads).symm.trans star

theorem MisplacedBrace.slice_start (brace : MisplacedBrace items last index violation) :
    slice (woven items last) (reach items index) violation.start = trimEnd Byte.isBlank (gapAt items last index) := by
  obtain ⟨item, found, -⟩ := brace.brace
  rw [slice, brace.start, Nat.add_sub_cancel_left, drop_reach, woven_drop found, gapAt_eq found,
    List.take_append_of_le_length (length_trimEnd_le _ _)]
  obtain ⟨old, split, -⟩ := exists_trimEnd Byte.isBlank item.gap
  generalize trimEnd Byte.isBlank item.gap = kept at split ⊢
  rw [split, List.take_left]

section Stars
variable {count : Nat}

theorem MisplacedStars.clear (stars : MisplacedStars items last index count violation) (reads : Reads true items last) :
    Clear chosen items last (index + count + 2) := by
  intro first count' other stars' _ earlier
  refine Nat.lt_of_not_le fun inside => ?_
  have star := stars'.run.item reads (Nat.le_of_lt_succ earlier) (Nat.le_of_succ_le_succ inside)
  exact absurd rfl (stars.next_ne star).2

theorem MisplacedStars.absorbed_eq (stars : MisplacedStars items last index count violation)
    (reads : Reads true items last) : (outlineOf items last).absorbed chosen index = 0 := by
  obtain ⟨before, word, rfl, found, leads⟩ := stars.previous
  refine absorbed_eq_zero (reads.movedBrace?_eq_none fun item found => ?_)
  exact stars.kind_ne_brace reads (Nat.le_refl _) (by omega) found

/-- Inside misplaced stars, and right behind them, no other violation starts. -/
theorem MisplacedStars.quiet (stars : MisplacedStars items last index count violation) (reads : Reads true items last)
    {between : Nat} (after : index < between) (before : between ≤ index + count + 1) :
    (outlineOf items last).violationAt? chosen between = none := by
  cases violates : (outlineOf items last).violationAt? chosen between with
  | none => rfl
  | some other =>
    obtain ⟨-, brace | ⟨count', stars'⟩⟩ := reads.violationAt?_cases violates
    · exact absurd rfl (stars.kind_ne_brace reads (by omega) before (brace.item reads))
    · have outside := stars.outside stars' after
      obtain rfl : between = index + count + 1 := by omega
      have star := stars'.run.item reads (Nat.le_refl _) (Nat.le_add_right _ _)
      exact absurd rfl (stars.next_ne star).2

end Stars

/-- The edits from a token on turn the text into that of the retouched layout. The
gap before the token may already have lost its first bytes to a brace, but no stars
reach into it from the left. -/
theorem Reads.splice_later (reads : Reads true items last) (within : index ≤ items.length)
    (clear : Clear chosen items last index) :
    Edit.splice (woven items last) (reach items index + (outlineOf items last).absorbed chosen index)
      (laterEdits chosen items last index) = retouchedFrom chosen items last index := by
  induction left : items.length - index using Nat.strongRecOn generalizing index with
  | ind left ih =>
  subst left
  rcases Nat.eq_or_lt_of_le within with rfl | below
  · exact reads.splice_end
  have found := List.getElem?_eq_getElem below
  have fits := @reads.absorbed_le _ _ chosen index
  rw [gapAt_eq found] at fits
  rw [laterEdits_cons below]
  cases violates : (outlineOf items last).violationAt? chosen index with
  | none =>
    obtain ⟨still, unmoved, clear'⟩ := reads.quiet clear violates
    have rest := ih _ (by omega) (Nat.succ_le_of_lt below) clear' rfl
    rw [absorbed_eq_zero still, Nat.add_zero] at rest
    simp only [Option.map_none, Option.toList_none, List.nil_append]
    rw [reads.splice_copy found fits, rest, retouchedFrom_eq found]
    simp only [Outline.retouch, still, unmoved, Bool.false_and, Bool.false_eq_true, if_false]
  | some violation =>
    simp only [Option.map_some, Option.toList_some, List.singleton_append, Edit.splice, Violation.toEdit]
    obtain ⟨allowed, brace | ⟨count, stars⟩⟩ := reads.violationAt?_cases violates
    · have moved : (outlineOf items last).movedBrace? chosen index = some violation := by
        rw [Outline.movedBrace?, brace.violates, Option.filter_some, if_pos allowed]
      have rest := ih _ (by omega) (Nat.succ_le_of_lt below) (brace.clear reads) rfl
      rw [reads.absorbed_succ moved] at rest
      rw [rest, reads.absorbed_inLine below brace.inLine, Nat.add_zero, brace.slice_start,
        retouchedFrom_eq (brace.item reads)]
      obtain ⟨spaces, suggested, -, -⟩ := brace.suggested
      simp only [Outline.retouch, moved, suggested, List.dropLast_concat, List.append_assoc]
    · obtain ⟨next, behind, -⟩ := stars.next
      have rest := ih _ (by have := stars.below; omega) stars.below (stars.clear reads) rfl
      have still := @reads.movedBrace?_eq_none _ _ (index + count + 1) chosen fun item found =>
        stars.kind_ne_brace reads (by omega) (Nat.le_refl _) found
      rw [absorbed_eq_zero still, Nat.add_zero] at rest
      rw [stars.absorbed_eq reads, Nat.add_zero, stars.start, slice_self, List.nil_append,
        laterEdits_skip (show index + 1 ≤ index + count + 2 by omega) stars.below
          fun between after before => stars.quiet reads (by omega) (by omega),
        stars.stop, gapAt_eq behind, reads.splice_copy behind (Nat.le_refl _), List.drop_length, List.nil_append, rest,
        stars.retouchedFrom_eq reads allowed behind]

/-- The edits of the chosen rules turn the text of a layout into that of the retouched layout. -/
theorem Reads.applyEdits_eq (reads : Reads true items last) (chosen : Rule → Bool) :
    (applyEdits (woven items last) (((outlineOf items last).violations chosen).map Violation.toEdit)).text =
      woven (retouchedItems chosen items last) (retouchedLast chosen items last) := by
  have clear : Clear chosen items last 0 := fun _ _ _ _ _ before => absurd before (Nat.not_lt_zero _)
  have whole := reads.splice_later (Nat.zero_le _) clear
  have none : (outlineOf items last).absorbed chosen 0 = 0 := by
    cases moved : (outlineOf items last).movedBrace? chosen 0 with
    | none => rw [Outline.absorbed, moved]
    | some violation =>
      obtain ⟨before, -, same, -⟩ := (reads.movedBrace?_some moved).previous
      cases same
  rw [(applyEdits_of_ordered (reads.ordered chosen)).1, Outline.violations, reads.size_eq, List.range_eq_range']
  rw [none] at whole
  exact whole

end Splice

end Allman
