import Allman.Proofs.CommutingRules
import Allman.Proofs.ReportedBraces

/-! Which stars are reported. Stars that follow one another on a line form one run,
and the rule compares what stands around and between the stars of a run, as one text,
with the text that should stand there. A text of gaps and stars can be read in one way
only as long as no gap holds a star, so this one comparison says the same as looking
at every gap by itself. -/

namespace Allman
open Region

/-- The part before the first star tells where a text is cut. -/
theorem append_star_inj {before before' rest rest' : Bytes} (plain : Byte.star ∉ before)
    (plain' : Byte.star ∉ before') :
    before ++ Byte.star :: rest = before' ++ Byte.star :: rest' ↔ before = before' ∧ rest = rest' := by
  constructor
  · intro same
    rcases List.append_eq_append_iff.mp same with ⟨more, longer, shorter⟩ | ⟨more, longer, shorter⟩
    all_goals
      cases more with
      | nil => simp_all
      | cons c more =>
        obtain rfl : Byte.star = c := (List.cons.inj shorter).1
        simp [longer] at plain plain'
  · rintro ⟨rfl, rfl⟩
    rfl

/-- Gaps without stars can be read off the text of a run. -/
theorem starText_eq_iff {gap : Nat → Bytes} {first count : Nat} {before behind : Bytes}
    (plain : ∀ index, first ≤ index → index ≤ first + count → Byte.star ∉ gap index) (plain' : Byte.star ∉ before) :
    starText gap first (count + 1) = before ++ List.replicate (count + 1) Byte.star ++ behind ↔
      gap first = before ∧ (∀ index, first < index → index ≤ first + count → gap index = []) ∧
        gap (first + count + 1) = behind := by
  induction count generalizing first before with
  | zero =>
    have cut := @append_star_inj (gap first) before (gap (first + 1)) behind (plain first (by omega) (by omega)) plain'
    have inner : ∀ index, first < index → index ≤ first + 0 → gap index = [] := fun index after within => by omega
    rw [and_iff_right inner]
    simpa [starText] using cut
  | succ count ih =>
    have later := @ih (first + 1) [] (fun index after within => plain index (by omega) (by omega)) (by simp)
    rw [List.nil_append] at later
    rw [starText, List.replicate_succ (n := count + 1), List.append_assoc, List.cons_append,
      append_star_inj (plain first (Nat.le_refl _) (by omega)) plain', later]
    have place : first + 1 + count + 1 = first + (count + 1) + 1 := by omega
    rw [place]
    apply and_congr_right
    intro _
    constructor
    · rintro ⟨next, inner, ends⟩
      refine ⟨fun index after within => ?_, ends⟩
      rcases Nat.eq_or_lt_of_le (Nat.succ_le_of_lt after) with rfl | further
      · exact next
      · exact inner index further (by omega)
    · rintro ⟨inner, ends⟩
      refine ⟨inner (first + 1) (by omega) (by omega), ?_, ends⟩
      intro index after within
      exact inner index (by omega) (by omega)

namespace Outline

/-- The stars from `first` to `last` stand as they should: against one another, with one
space before them, or none after a parenthesis, and with nothing behind them. A newline
before or behind them excuses its gap. -/
def tidyStars (outline : Outline) (first last : Nat) : Bool :=
  (List.range' first (last - first)).all (fun index => outline.gap index (index + 1) == []) &&
  (hasNewline (outline.gap (first - 1) first) ||
    outline.gap (first - 1) first == if outline.is (first - 1) .leftParen then [] else [Byte.space]) &&
  (hasNewline (outline.gap last (last + 1)) || outline.gap last (last + 1) == [])

/-- The run of stars belongs to a declarator and has only spaces around it, but the
stars do not stand as they should. -/
def missetStars (outline : Outline) : List Nat → Bool
  | [] => false
  | 0 :: _ => false
  | (previous + 1) :: others =>
    let last := others.getLastD (previous + 1)
    outline.isDeclarator previous (last + 1) && allSpaces (outline.gap previous (previous + 1)) &&
      allSpaces (outline.gap last (last + 1)) && !outline.tidyStars (previous + 1) last

/-- What should stand before a token that is one of a run of stars or follows one, where
`gap` stands there. -/
def tidyGap (outline : Outline) (index : Nat) (gap : Bytes) : Bytes :=
  if hasNewline gap then gap
  else if outline.is (index - 1) .star || outline.is (index - 1) .leftParen then [] else [Byte.space]

end Outline

private theorem star_notMem_of_allSpaces {gap : Bytes} (blank : allSpaces gap = true) : Byte.star ∉ gap := by
  intro member
  have space := List.all_eq_true.mp blank _ member
  revert space
  decide

section Gaps
variable {items : List Item} {last : Bytes} {first count index : Nat}

/-- The gaps of a run of stars with only spaces around it hold only spaces. -/
theorem PointerStars.allSpaces_gap (stars : PointerStars items last first count) (reads : Reads true items last)
    (before : allSpaces (gapAt items last first) = true)
    (behind : allSpaces (gapAt items last (first + count + 1)) = true) (after : first ≤ index)
    (within : index ≤ first + count + 1) : allSpaces (gapAt items last index) = true := by
  rcases Nat.eq_or_lt_of_le after with rfl | inside
  · exact before
  · rcases Nat.eq_or_lt_of_le within with rfl | within
    · exact behind
    · exact (stars.run.gap reads inside (Nat.le_of_lt_succ within)).1

theorem PointerStars.gap_eq (stars : PointerStars items last first count) (reads : Reads true items last)
    (within : index ≤ first + count) :
    (outlineOf items last).gap index (index + 1) = gapAt items last (index + 1) := by
  have below := stars.below
  have found := List.getElem?_eq_getElem (show index < items.length by omega)
  have found' := List.getElem?_eq_getElem (show index + 1 < items.length by omega)
  exact reads.gap_eq found found'

private theorem PointerStars.tidyGap_first (stars : PointerStars items last first count)
    (reads : Reads true items last)
    (gap : Bytes) : (outlineOf items last).tidyGap first gap =
      if hasNewline gap then gap
      else if (outlineOf items last).is (first - 1) .leftParen then [] else [Byte.space] := by
  rw [Outline.tidyGap, stars.previous_ne_star reads, Bool.false_or]

private theorem PointerStars.tidyGap_later (stars : PointerStars items last first count) (after : first < index)
    (within : index ≤ first + count + 1) (gap : Bytes) :
    (outlineOf items last).tidyGap index gap = if hasNewline gap then gap else [] := by
  rw [Outline.tidyGap, stars.run.star (index - 1) (by omega) (by omega)]
  rfl

/-- A run of stars has three kinds of gaps: the first one, those between its stars, and the last one. -/
theorem PointerStars.tidy_iff (stars : PointerStars items last first count) (reads : Reads true items last) :
    (∀ index, first ≤ index → index ≤ first + count + 1 →
        gapAt items last index = (outlineOf items last).tidyGap index (gapAt items last index)) ↔
      gapAt items last first = (outlineOf items last).tidyGap first (gapAt items last first) ∧
        (∀ index, first < index → index ≤ first + count → gapAt items last index = []) ∧
        gapAt items last (first + count + 1) =
          (outlineOf items last).tidyGap (first + count + 1) (gapAt items last (first + count + 1)) := by
  have inner : ∀ index, first < index → index ≤ first + count →
      (outlineOf items last).tidyGap index (gapAt items last index) = [] := by
    intro index after within
    rw [stars.tidyGap_later after (Nat.le_succ_of_le within), (stars.run.gap reads after within).2]
    rfl
  constructor
  · intro tidy
    refine ⟨tidy first (Nat.le_refl _) (by omega), ?_, tidy (first + count + 1) (by omega) (Nat.le_refl _)⟩
    intro index after within
    rw [tidy index (Nat.le_of_lt after) (Nat.le_succ_of_le within), inner index after within]
  · rintro ⟨head, closed, tail⟩ index after within
    rcases Nat.eq_or_lt_of_le after with rfl | after
    · exact head
    · rcases Nat.eq_or_lt_of_le within with rfl | within
      · exact tail
      · rw [inner index after (Nat.le_of_lt_succ within)]
        exact closed index after (Nat.le_of_lt_succ within)

/-- The text of a run is as it should be exactly if each of its gaps is. -/
theorem PointerStars.starText_eq_iff (stars : PointerStars items last first count) (reads : Reads true items last)
    (before : allSpaces (gapAt items last first) = true)
    (behind : allSpaces (gapAt items last (first + count + 1)) = true) :
    starText (gapAt items last) first (count + 1) = (outlineOf items last).starLayout (first - 1)
        (gapAt items last first) (gapAt items last (first + count + 1)) (count + 1) ↔
      ∀ index, first ≤ index → index ≤ first + count + 1 →
        gapAt items last index = (outlineOf items last).tidyGap index (gapAt items last index) := by
  have plain : ∀ index, first ≤ index → index ≤ first + count → Byte.star ∉ gapAt items last index := by
    intro index after within
    apply star_notMem_of_allSpaces
    exact stars.allSpaces_gap reads before behind after (Nat.le_succ_of_le within)
  have plain' : Byte.star ∉ (outlineOf items last).tidyGap first (gapAt items last first) := by
    rw [Outline.tidyGap]
    split
    · exact star_notMem_of_allSpaces before
    · split <;> decide
  have layout : (outlineOf items last).starLayout (first - 1) (gapAt items last first)
      (gapAt items last (first + count + 1)) (count + 1) =
        (outlineOf items last).tidyGap first (gapAt items last first) ++ List.replicate (count + 1) Byte.star ++
          (outlineOf items last).tidyGap (first + count + 1) (gapAt items last (first + count + 1)) := by
    rw [stars.tidyGap_first reads, stars.tidyGap_later (by omega) (Nat.le_refl _), Outline.starLayout]
  rw [layout, Allman.starText_eq_iff plain plain', stars.tidy_iff reads]

private theorem eq_ite_self_iff {newline : Bool} {gap other : Bytes} :
    gap = (if newline then gap else other) ↔ newline = true ∨ gap = other := by
  cases newline <;> simp

/-- Whether the stars of a run stand as they should is told gap by gap. -/
theorem PointerStars.tidyStars_iff (stars : PointerStars items last first count) (reads : Reads true items last) :
    (outlineOf items last).tidyStars first (first + count) = true ↔
      ∀ index, first ≤ index → index ≤ first + count + 1 →
        gapAt items last index = (outlineOf items last).tidyGap index (gapAt items last index) := by
  have inner : (∀ index, first ≤ index ∧ index < first + count → (outlineOf items last).gap index (index + 1) = []) ↔
      ∀ index, first < index → index ≤ first + count → gapAt items last index = [] := by
    constructor
    · intro closed index after within
      obtain ⟨index, rfl⟩ := Nat.exists_eq_succ_of_ne_zero (Nat.ne_of_gt (Nat.zero_lt_of_lt after))
      rw [← stars.gap_eq reads (Nat.le_of_succ_le within)]
      exact closed index ⟨Nat.le_of_lt_succ after, within⟩
    · rintro closed index ⟨after, within⟩
      rw [stars.gap_eq reads (Nat.le_of_lt within)]
      exact closed (index + 1) (Nat.lt_succ_of_le after) within
  rw [stars.tidy_iff reads, stars.tidyGap_first reads, stars.tidyGap_later (by omega) (Nat.le_refl _),
    eq_ite_self_iff, eq_ite_self_iff]
  obtain ⟨previous, -, rfl, -⟩ := stars.previous
  have head := @stars.gap_eq _ _ _ _ previous reads (by omega)
  have tail := @stars.gap_eq _ _ _ _ (previous + 1 + count) reads (Nat.le_refl _)
  simp only [Outline.tidyStars, Bool.and_eq_true, List.all_eq_true, List.mem_range'_1, Bool.or_eq_true, beq_iff_eq,
    Nat.add_sub_cancel, Nat.add_sub_cancel_left, head, tail, inner]
  exact ⟨fun ⟨⟨closed, before⟩, behind⟩ => ⟨before, closed, behind⟩,
    fun ⟨before, closed, behind⟩ => ⟨⟨closed, before⟩, behind⟩⟩

/-- Stars of a declarator are at fault if only spaces stand around them and they do not stand as they should. -/
theorem PointerStars.misplaced_iff_untidy (stars : PointerStars items last first count)
    (reads : Reads true items last) :
    (∃ violation, MisplacedStars items last first count violation) ↔
      allSpaces (gapAt items last first) = true ∧ allSpaces (gapAt items last (first + count + 1)) = true ∧
        (outlineOf items last).tidyStars first (first + count) = false := by
  rw [stars.misplaced_iff reads]
  apply and_congr_right
  intro before
  apply and_congr_right
  intro behind
  rw [ne_eq, stars.starText_eq_iff reads before behind, ← stars.tidyStars_iff reads, Bool.not_eq_true]

end Gaps

section Runs
variable {items : List Item} {last : Bytes} {first second count : Nat} {run : List Nat}

private theorem Reads.isSome_checkStars?_iff (reads : Reads true items last)
    (member : List.range' first (count + 1) ∈ (outlineOf items last).starRuns) :
    ((outlineOf items last).checkStars? (List.range' first (count + 1))).isSome = true ↔
      ∃ violation, MisplacedStars items last first count violation := by
  rw [Option.isSome_iff_exists]
  constructor
  · rintro ⟨violation, violates⟩
    obtain ⟨_, _, same, stars⟩ := reads.misplacedStars member violates
    obtain ⟨rfl, rfl⟩ := range'_inj same
    exact ⟨violation, stars⟩
  · rintro ⟨violation, stars⟩
    exact ⟨violation, stars.violates⟩

/-- A run of stars is at fault exactly if it is misset. -/
theorem Reads.isSome_checkStars? (reads : Reads true items last) (member : run ∈ (outlineOf items last).starRuns) :
    ((outlineOf items last).checkStars? run).isSome = (outlineOf items last).missetStars run := by
  obtain ⟨first, count, rfl, isRun⟩ := Outline.exists_range_of_mem member
  rw [Bool.eq_iff_iff, reads.isSome_checkStars?_iff member]
  cases first with
  | zero =>
    have unled : (outlineOf items last).missetStars (List.range' 0 (count + 1)) = false := by
      rw [List.range'_succ]
      rfl
    rw [unled]
    refine iff_of_false ?_ Bool.false_ne_true
    rintro ⟨violation, stars⟩
    obtain ⟨previous, -, same, -⟩ := stars.previous
    cases same
  | succ previous =>
    rw [List.range'_succ]
    simp only [Outline.missetStars, getLastD_range', Bool.and_eq_true, Bool.not_eq_true', and_assoc]
    constructor
    · rintro ⟨violation, misplaced⟩
      have stars := misplaced.toPointerStars
      have untidy := (stars.misplaced_iff_untidy reads).mp ⟨violation, misplaced⟩
      rw [stars.gap_eq reads (show previous ≤ previous + 1 + count by omega), stars.gap_eq reads (Nat.le_refl _)]
      exact ⟨stars.declarator, untidy⟩
    · rintro ⟨declarator, untidy⟩
      have stars := reads.pointerStars member isRun declarator
      have before := stars.gap_eq reads (show previous ≤ previous + 1 + count by omega)
      rw [before, stars.gap_eq reads (Nat.le_refl _)] at untidy
      exact (stars.misplaced_iff_untidy reads).mpr untidy

theorem Reads.start_lt_reach (reads : Reads true items last) {item : Item} (found : items[first]? = some item)
    (earlier : first < second) : (item.token (reach items first)).start < reach items second := by
  obtain ⟨c, rest, bytes, -⟩ := (reads.at found).2.solid
  have next := reach_succ found
  have later : reach items (first + 1) ≤ reach items second := reach_mono items earlier
  rw [bytes, List.length_cons] at next
  simp only [Item.token]
  omega

/-- Where only spaces stand between two tokens, no token does. -/
theorem Reads.eq_succ_of_allSpaces (reads : Reads true items last) {item item' : Item}
    (found : items[first]? = some item) (found' : items[second]? = some item') (earlier : first < second)
    (blank : allSpaces ((outlineOf items last).gap first second) = true) : second = first + 1 := by
  by_contra further
  have below := (List.getElem?_eq_some_iff.mp found').1
  have between := List.getElem?_eq_getElem (show first + 1 < items.length by omega)
  obtain ⟨c, rest, bytes, solid⟩ := (reads.at between).2.solid
  have stop : (item.token (reach items first)).stop = reach items (first + 1) := (reach_succ found).symm
  rw [Outline.gap, reads.token, reads.token, found, found', Option.map_some, Option.map_some] at blank
  simp only [stop] at blank
  have ahead : reach items (first + 1 + 1) ≤ (item'.token (reach items second)).start :=
    Nat.le_trans (reach_mono items (by omega)) (Nat.le_add_right _ _)
  change allSpaces (slice (woven items last) _ _) = true at blank
  rw [← slice_append_slice _ (reach_mono items (Nat.le_succ (first + 1))) ahead, slice_item between, bytes] at blank
  simp only [allSpaces, List.all_append, List.all_cons, solid, Bool.false_and, Bool.and_false,
    Bool.false_eq_true] at blank

namespace Outline
variable {outline : Outline}

private theorem exists_run_of_star (star : outline.is first .star = true) :
    ∃ run ∈ outline.starRuns, first ∈ run := by
  apply List.mem_flatten.mp
  rw [flatten_starRuns, List.mem_filter, List.mem_range]
  refine ⟨?_, star⟩
  by_contra beyond
  rw [size, Nat.not_lt] at beyond
  rw [is, kind?, Array.getElem?_eq_none beyond] at star
  cases star

/-- A run ends where its last star is not linked to the next one. -/
theorem isChain_starRuns (outline : Outline) : outline.starRuns.IsChain fun run run' =>
    ∃ (nonempty : run ≠ []) (nonempty' : run' ≠ []),
      outline.linkedStars (run.getLast nonempty) (run'.head nonempty') = false :=
  List.isChain_getLast_head_splitBy _ _

/-- Stars that are linked to one another are in one run. -/
theorem exists_run_of_linked (star : outline.is first .star = true) (star' : outline.is (first + 1) .star = true)
    (linked : outline.linkedStars first (first + 1) = true) :
    ∃ run ∈ outline.starRuns, first ∈ run ∧ first + 1 ∈ run := by
  obtain ⟨run, member, inside⟩ := exists_run_of_star star
  obtain ⟨run', member', inside'⟩ := exists_run_of_star star'
  by_contra parted
  have differ : run ≠ run' := fun same => parted ⟨run, member, inside, same ▸ inside'⟩
  have ordered := List.pairwise_iff_getElem.mp outline.pairwise_starRuns
  obtain ⟨i, below, rfl⟩ := List.getElem_of_mem member
  obtain ⟨j, below', rfl⟩ := List.getElem_of_mem member'
  -- No run fits between the two, so the one ends where the other starts.
  have next : j = i + 1 := by
    rcases Nat.lt_trichotomy i j with before | rfl | after
    · by_contra further
      have between := show i + 1 < outline.starRuns.length by omega
      obtain ⟨middle, count, range, -⟩ := exists_range_of_mem (List.getElem_mem between)
      have listed : middle ∈ outline.starRuns[i + 1] := by simp [range, List.mem_range'_1]
      have low := ordered i (i + 1) below between (by omega) first inside middle listed
      have high := ordered (i + 1) j between below' (by omega) middle listed (first + 1) inside'
      omega
    · exact absurd rfl differ
    · have earlier := ordered j i below' below after (first + 1) inside' first inside
      omega
  subst next
  obtain ⟨start, count, range, -⟩ := exists_range_of_mem member
  obtain ⟨start', count', range', -⟩ := exists_range_of_mem member'
  have apart := ordered i (i + 1) below below' (Nat.lt_succ_self i) (start + count) (by simp [range, List.mem_range'_1])
    start' (by simp [range', List.mem_range'_1])
  rw [range, List.mem_range'_1] at inside
  rw [range', List.mem_range'_1] at inside'
  have ends : ∀ nonempty : outline.starRuns[i] ≠ [], outline.starRuns[i].getLast nonempty = first := by
    rw [range]
    intro nonempty
    rw [List.getLast_range']
    omega
  have starts : ∀ nonempty : outline.starRuns[i + 1] ≠ [], outline.starRuns[i + 1].head nonempty = first + 1 := by
    rw [range']
    intro nonempty
    rw [List.head_range']
    omega
  obtain ⟨_, _, broken⟩ := List.isChain_iff_getElem.mp outline.isChain_starRuns i below'
  rw [ends, starts, linked] at broken
  cases broken

end Outline

/-- Neighbouring stars share a run exactly if only spaces of one line stand between them. -/
theorem Reads.share_run_iff (reads : Reads true items last) (earlier : first < second)
    (star : (outlineOf items last).is first .star = true) (star' : (outlineOf items last).is second .star = true)
    (neighbours : ∀ between, first < between → between < second → (outlineOf items last).is between .star = false) :
    (∃ run ∈ (outlineOf items last).starRuns, first ∈ run ∧ second ∈ run) ↔
      allSpaces ((outlineOf items last).gap first second) = true ∧
        hasNewline ((outlineOf items last).gap first second) = false := by
  constructor
  · rintro ⟨run, member, inside, inside'⟩
    obtain ⟨start, count, rfl, isRun⟩ := Outline.exists_range_of_mem member
    rw [List.mem_range'_1] at inside inside'
    have next : second = first + 1 := by
      by_contra further
      have between := neighbours (first + 1) (Nat.lt_succ_self _) (by omega)
      rw [isRun.star (first + 1) (by omega) (by omega)] at between
      cases between
    have linked := isRun.linked first inside.1 (by omega)
    rw [next]
    simpa [Outline.linkedStars] using linked
  · rintro ⟨blank, inLine⟩
    obtain ⟨item, found, -⟩ := (reads.is_iff _ _).mp star
    obtain ⟨item', found', -⟩ := (reads.is_iff _ _).mp star'
    obtain rfl := reads.eq_succ_of_allSpaces found found' earlier blank
    apply Outline.exists_run_of_linked star star'
    simp [Outline.linkedStars, blank, inLine]

theorem MisplacedStars.site_eq {violation : Violation} (stars : MisplacedStars items last first count violation)
    (reads : Reads true items last) :
    ((List.range' first (count + 1)).head?.bind ((outlineOf items last).tokens[·]?)).map Token.start =
      some violation.site := by
  rw [List.range'_succ, List.head?_cons, Option.bind_some, reads.token,
    stars.run.item reads (Nat.le_refl _) (Nat.le_add_right _ _), stars.site]
  rfl

end Runs

/-- The stars of a text are cut into runs, each star into one of them, and neighbouring
stars share a run exactly if only spaces of one line stand between them. The rule for
stars reports the runs that are misset, each once and in document order. -/
theorem pointerViolations_exact (text : Bytes) :
    let outline := Outline.ofText text
    outline.starRuns.flatten = (List.range outline.size).filter (outline.is · .star) ∧
    (∀ run ∈ outline.starRuns, ∃ first count, run = List.range' first (count + 1)) ∧
    (∀ index, outline.is index .star = true → ∃! run, run ∈ outline.starRuns ∧ index ∈ run) ∧
    (∀ first second, first < second → outline.is first .star = true → outline.is second .star = true →
      (∀ between, first < between → between < second → outline.is between .star = false) →
      ((∃ run ∈ outline.starRuns, first ∈ run ∧ second ∈ run) ↔
        allSpaces (outline.gap first second) = true ∧ hasNewline (outline.gap first second) = false)) ∧
    List.Forall₂ (fun violation run => violation.rule = .pointerSpacing ∧
        (run.head?.bind (outline.tokens[·]?)).map Token.start = some violation.site)
      outline.pointerViolations (outline.starRuns.filter outline.missetStars) ∧
    outline.pointerViolations.Pairwise (·.site < ·.site) := by
  obtain ⟨items, last, rfl, reads⟩ := exists_reads true text
  intro outline
  refine ⟨outline.flatten_starRuns, ?_, ?_, ?_, forall₂_filterMap ?_ ?_, ?_⟩
  · intro run member
    obtain ⟨first, count, range, -⟩ := Outline.exists_range_of_mem member
    exact ⟨first, count, range⟩
  · intro index star
    obtain ⟨run, member, inside⟩ := Outline.exists_run_of_star star
    exact ⟨run, ⟨member, inside⟩, fun run' ⟨member', inside'⟩ => Outline.run_unique member' member inside' inside⟩
  · intro first second earlier star star' neighbours
    exact reads.share_run_iff earlier star star' neighbours
  · intro run member misset
    rw [← reads.isSome_checkStars? member, Option.isSome_iff_exists] at misset
    obtain ⟨violation, violates⟩ := misset
    obtain ⟨first, count, rfl, stars⟩ := reads.misplacedStars member violates
    exact ⟨violation, violates, stars.rule, stars.site_eq reads⟩
  · intro run member passes
    rw [← Option.isNone_iff_eq_none, ← Option.isSome_eq_false_iff, reads.isSome_checkStars? member, passes]
  · refine List.pairwise_filterMap.mpr (outline.pairwise_starRuns.imp_of_mem ?_)
    intro run run' member member' earlier violation violates other violates'
    obtain ⟨first, count, rfl, stars⟩ := reads.misplacedStars member violates
    obtain ⟨first', count', rfl, stars'⟩ := reads.misplacedStars member' violates'
    have after := earlier (first + count) (by simp [List.mem_range'_1]) first' (by simp [List.mem_range'_1])
    have apart := stars.before_stars reads stars' after
    have covers := stars.start_lt_stop reads
    have covers' := stars'.start_lt_stop reads
    omega

/-- Two stars apart are one run, reported at the first of them. -/
theorem pointerViolations_two_stars :
    let outline := Outline.ofText (ascii "char * * q;")
    (∃ run ∈ outline.starRuns, 1 ∈ run ∧ 2 ∈ run) ∧ ∃ violation ∈ outline.pointerViolations, violation.site = 5 := by
  intro outline
  obtain ⟨-, -, -, shared, reported, -⟩ := pointerViolations_exact (ascii "char * * q;")
  have runs : outline.starRuns.filter outline.missetStars = [[1, 2]] := by decide +kernel
  have star : (([1, 2] : List Nat).head?.bind (outline.tokens[·]?)).map Token.start = some 5 := by decide +kernel
  constructor
  · apply (shared 1 2 (by decide) (by decide +kernel) (by decide +kernel) ?_).mpr
    · constructor <;> decide +kernel
    · intro between after before
      omega
  · rw [runs] at reported
    obtain ⟨violation, others, ⟨-, site⟩, -, listed⟩ := List.forall₂_cons_right_iff.mp reported
    rw [star] at site
    exact ⟨violation, by rw [listed]; exact List.mem_cons_self, (Option.some.inj site).symm⟩

end Allman
