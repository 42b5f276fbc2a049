import Allman.Proofs.ReportedStars

/-! The spacing of stars in a declarator is free. Where only spaces stand around a run
of stars, its gaps say nothing about the text but where they end a line: the words
stay the same if the spaces of such a gap are replaced by other spaces of the same
line, and the rule for stars puts the same gap in place of either. So all texts that
differ in such gaps only are fixed to one and the same text. -/

namespace Allman
open Region

namespace Outline

/-- The `count + 1` stars from `first` on are a run that belongs to a declarator, and only
spaces stand around them. -/
structure LooseStars (outline : Outline) (first count : Nat) : Prop where
  member : List.range' first (count + 1) ∈ outline.starRuns
  led : 0 < first
  declarator : outline.isDeclarator (first - 1) (first + count + 1) = true
  before : allSpaces (outline.gap (first - 1) first) = true
  behind : allSpaces (outline.gap (first + count) (first + count + 1)) = true

/-- The edit puts other spaces, or nothing, in place of a gap before, between or behind
loose stars, and neither of the two holds a newline. -/
structure RespacesStars (outline : Outline) (edit : Edit) : Prop where
  place : ∃ first count index, outline.LooseStars first count ∧ first ≤ index + 1 ∧ index ≤ first + count ∧
    outline.tokens[index]?.map Token.stop = some edit.start ∧
    outline.tokens[index + 1]?.map Token.start = some edit.stop ∧
    hasNewline (outline.gap index (index + 1)) = false
  blank : allSpaces edit.replacement = true
  inLine : hasNewline edit.replacement = false

end Outline

def spaced (gaps : Nat → Bytes) (items : List Item) : List Item :=
  items.mapIdx fun index item => { item with gap := gaps index }

def LooseGap (items : List Item) (last : Bytes) (index : Nat) : Prop :=
  ∃ first count, PointerStars items last first count ∧ allSpaces (gapAt items last first) = true ∧
    allSpaces (gapAt items last (first + count + 1)) = true ∧ first ≤ index ∧ index ≤ first + count + 1

/-- The gaps differ from those of the layout in the spaces around and between loose stars only. -/
def Spacing (items : List Item) (last : Bytes) (gaps : Nat → Bytes) : Prop :=
  ∀ index, gaps index = gapAt items last index ∨ LooseGap items last index ∧
    hasNewline (gapAt items last index) = false ∧ allSpaces (gaps index) = true ∧ hasNewline (gaps index) = false

section Spacing
variable {items : List Item} {last : Bytes} {gaps : Nat → Bytes} {index first count : Nat} {item : Item}

theorem LooseGap.allSpaces (loose : LooseGap items last index) (reads : Reads true items last) :
    allSpaces (gapAt items last index) = true := by
  obtain ⟨first, count, stars, before, behind, after, within⟩ := loose
  exact stars.allSpaces_gap reads before behind after within

private theorem MisplacedStars.looseGap {violation : Violation}
    (stars : MisplacedStars items last first count violation)
    (after : first ≤ index) (within : index ≤ first + count + 1) : LooseGap items last index :=
  ⟨first, count, stars.toPointerStars, stars.before, stars.after, after, within⟩

/-- The gap of a loose star may become empty: what stands before it ends there in any case. -/
theorem PointerStars.lone (stars : PointerStars items last first count) (reads : Reads true items last)
    (after : first ≤ index) (within : index ≤ first + count + 1) (found : items[index]? = some item) :
    ∃ kind, kindBefore none items index = some kind ∧ Lone item.bytes kind := by
  have heads := stars.heads reads after within found
  rcases Nat.eq_or_lt_of_le after with rfl | later
  · obtain ⟨before, word, rfl, found', leads⟩ := stars.previous
    refine ⟨word.kind, by rw [kindBefore, found']; rfl, ?_⟩
    have star := stars.run.item reads (Nat.le_refl _) (Nat.le_add_right _ _)
    obtain rfl := Option.some.inj (star.symm.trans found)
    generalize word.kind = kind at leads
    cases kind with
    | identifier => exact .word rfl
    | leftParen => exact .parenthesis
    | comma => exact .comma
    | _ => cases leads
  · obtain ⟨before, rfl⟩ := Nat.exists_eq_succ_of_ne_zero (Nat.ne_of_gt (Nat.zero_lt_of_lt later))
    have star := stars.run.item reads (Nat.le_of_lt_succ later) (Nat.le_of_succ_le_succ within)
    exact ⟨.star, by rw [kindBefore, star]; rfl, .star heads.1⟩

theorem Spacing.regap (spacing : Spacing items last gaps) (reads : Reads true items last)
    (found : items[index]? = some item) :
    Regap (kindBefore none items index) item.bytes item.gap (gaps index) := by
  rcases spacing index with same | ⟨loose, inLine, blank, -⟩
  · rw [same, gapAt_eq found]
    exact .same
  · have old := loose.allSpaces reads
    obtain ⟨first, count, stars, -, -, after, within⟩ := loose
    rw [gapAt_eq found] at inLine old
    have heads := stars.heads reads after within found
    exact @Regap.spread _ _ [] item.gap (gaps index) inLine old blank heads.2 fun _ =>
      stars.lone reads after within found

theorem Spacing.reads (spacing : Spacing items last gaps) (reads : Reads true items last) :
    Reads true (spaced gaps items) last := by
  have respaced := @Respaced.of_regap none items last last (fun index _ => gaps index)
    (fun index item found => spacing.regap reads found) (.inl rfl)
  exact (respaced.reads reads).1

private theorem words_spaced (gaps : Nat → Bytes) (items : List Item) :
    (spaced gaps items).map Item.word = items.map Item.word := by
  apply List.ext_getElem?
  intro index
  simp only [spaced, List.getElem?_map, List.getElem?_mapIdx, Option.map_map]
  rfl

theorem Spacing.agrees (spacing : Spacing items last gaps) (reads : Reads true items last) :
    (outlineOf (spaced gaps items) last).Agrees (outlineOf items last) := by
  apply Outline.Agrees.of_words
  rw [reads.scan_eq, (spacing.reads reads).scan_eq, words_placed, words_placed, words_spaced]

private theorem getElem?_spaced (found : items[index]? = some item) :
    (spaced gaps items)[index]? = some { item with gap := gaps index } := by
  rw [spaced, List.getElem?_mapIdx, found]
  rfl

private theorem length_spaced (gaps : Nat → Bytes) (items : List Item) :
    (spaced gaps items).length = items.length :=
  List.length_mapIdx

private theorem gapAt_spaced (below : index < items.length) : gapAt (spaced gaps items) last index = gaps index :=
  gapAt_eq (getElem?_spaced (List.getElem?_eq_getElem below))

/-- A gap keeps what the rules ask of it: whether it holds spaces only, and whether it ends a line. -/
theorem Spacing.gap_alike (spacing : Spacing items last gaps) (reads : Reads true items last) (index : Nat) :
    allSpaces (gaps index) = allSpaces (gapAt items last index) ∧
      hasNewline (gaps index) = hasNewline (gapAt items last index) := by
  rcases spacing index with same | ⟨loose, inLine, blank, inLine'⟩
  · rw [same]
    exact ⟨rfl, rfl⟩
  · rw [blank, inLine, inLine', loose.allSpaces reads]
    exact ⟨rfl, rfl⟩

theorem Spacing.starRuns (spacing : Spacing items last gaps) (reads : Reads true items last) :
    (outlineOf (spaced gaps items) last).starRuns = (outlineOf items last).starRuns := by
  have agrees := spacing.agrees reads
  apply agrees.starRuns
  intro a b star star'
  by_cases next : b = a + 1
  case neg => simp only [Outline.linkedStars, beq_eq_false_iff_ne.mpr next, Bool.false_and]
  subst next
  rw [agrees.is] at star star'
  obtain ⟨item, found, -⟩ := (reads.is_iff _ _).mp star
  obtain ⟨item', found', -⟩ := (reads.is_iff _ _).mp star'
  obtain ⟨blank, inLine⟩ := spacing.gap_alike reads (a + 1)
  rw [Outline.linkedStars, Outline.linkedStars, reads.gap_eq found found',
    (spacing.reads reads).gap_eq (getElem?_spaced found) (getElem?_spaced found'),
    gapAt_spaced (List.getElem?_eq_some_iff.mp found').1, blank, inLine]

private theorem Spacing.looseGap_iff (spacing : Spacing items last gaps) (reads : Reads true items last) :
    LooseGap (spaced gaps items) last index ↔ LooseGap items last index := by
  have agrees := spacing.agrees reads
  have runs := spacing.starRuns reads
  have blank : ∀ index < items.length,
      Allman.allSpaces (gapAt (spaced gaps items) last index) = Allman.allSpaces (gapAt items last index) := by
    intro index below
    rw [gapAt_spaced below]
    exact (spacing.gap_alike reads index).1
  constructor
  · rintro ⟨first, count, stars, before, behind, bounds⟩
    have stars := stars.transfer reads agrees runs
    have below := stars.below
    rw [blank _ (by omega)] at before behind
    exact ⟨first, count, stars, before, behind, bounds⟩
  · rintro ⟨first, count, stars, before, behind, bounds⟩
    have below := stars.below
    rw [← blank _ (by omega)] at before behind
    exact ⟨first, count, stars.transfer (spacing.reads reads) agrees.symm runs.symm, before, behind, bounds⟩

/-- The rule for stars leaves a gap of loose stars tidy, whether it finds fault with them or not. -/
theorem LooseGap.retouch_eq (loose : LooseGap items last index) (reads : Reads true items last) :
    (outlineOf items last).retouch starsOnly index (gapAt items last index) =
      (outlineOf items last).tidyGap index (gapAt items last index) := by
  obtain ⟨first, count, stars, before, behind, after, within⟩ := loose
  cases fault : (outlineOf items last).checkStars? (List.range' first (count + 1)) with
  | some violation =>
    obtain ⟨_, _, same, misplaced⟩ := reads.misplacedStars stars.member fault
    obtain ⟨rfl, rfl⟩ := range'_inj same
    exact misplaced.retouch_eq reads (by rw [misplaced.rule]; rfl) after within _
  | none =>
    have tidy : (outlineOf items last).tidyStars first (first + count) = true := by
      by_contra untidy
      rw [Bool.not_eq_true] at untidy
      obtain ⟨violation, misplaced⟩ := (stars.misplaced_iff_untidy reads).mpr ⟨before, behind, untidy⟩
      rw [misplaced.violates] at fault
      cases fault
    rw [stars.retouch_eq_self reads fault after within]
    exact (stars.tidyStars_iff reads).mp tidy index after within

private theorem Reads.retouch_of_not_looseGap (reads : Reads true items last) (fixed : ¬ LooseGap items last index)
    (gap : Bytes) : (outlineOf items last).retouch starsOnly index gap = gap := by
  have unmoved : (outlineOf items last).movesStars starsOnly index = false := by
    rw [Bool.eq_false_iff]
    intro moves
    obtain ⟨first, count, violation, stars, -, after, within⟩ := reads.movesStars_iff.mp moves
    exact fixed (stars.looseGap after within)
  rw [reads.retouch_starsOnly, unmoved]
  rfl

/-- The rule for stars makes the same of either gap. -/
theorem Spacing.retouch_eq (spacing : Spacing items last gaps) (reads : Reads true items last)
    (below : index < items.length) :
    (outlineOf (spaced gaps items) last).retouch starsOnly index (gaps index) =
      (outlineOf items last).retouch starsOnly index (gapAt items last index) := by
  by_cases loose : LooseGap items last index
  · have loose' := (spacing.looseGap_iff reads).mpr loose
    have tidied := loose'.retouch_eq (spacing.reads reads)
    rw [gapAt_spaced below] at tidied
    have agrees := spacing.agrees reads
    rw [tidied, loose.retouch_eq reads, Outline.tidyGap, Outline.tidyGap, agrees.is, agrees.is]
    rcases spacing index with same | ⟨-, inLine, -, inLine'⟩
    · rw [same]
    · rw [inLine, inLine']
      rfl
  · have fixed : ¬ LooseGap (spaced gaps items) last index := by rwa [spacing.looseGap_iff reads]
    rcases spacing index with same | ⟨loose', -⟩
    · rw [(spacing.reads reads).retouch_of_not_looseGap fixed, reads.retouch_of_not_looseGap loose, same]
    · exact absurd loose' loose

/-- Other spaces around stars are no other text once the stars have been moved. -/
theorem Spacing.fixStars_eq (spacing : Spacing items last gaps) (reads : Reads true items last) :
    fixStars (woven (spaced gaps items) last) = fixStars (woven items last) := by
  have reads' := spacing.reads reads
  rw [reads'.fixStars_eq, reads.fixStars_eq, reads'.retouchedLast_starsOnly, reads.retouchedLast_starsOnly]
  congr 1
  apply List.ext_getElem?
  intro index
  cases found : items[index]? with
  | none =>
    have ended := List.getElem?_eq_none_iff.mp found
    rw [List.getElem?_eq_none, List.getElem?_eq_none]
    all_goals simpa only [length_retouchedItems, length_spaced] using ended
  | some item =>
    have same := spacing.retouch_eq reads (List.getElem?_eq_some_iff.mp found).1
    rw [gapAt_eq found] at same
    rw [getElem?_retouchedItems (getElem?_spaced found), getElem?_retouchedItems found, same]

end Spacing

/-- Fixing is moving the stars and then the braces. -/
theorem fixBraces_fixStars (text : Bytes) : fixBraces (fixStars text) = (fix text).text := by
  obtain ⟨items, last, rfl, reads⟩ := exists_reads true text
  rw [fix_text reads, reads.fixStars_eq, (reads.retouched starsOnly).fixBraces_eq]
  apply retouched_twice
  intro index _
  exact reads.retouch_stars_braces index _

def editedGap (edits : List Edit) (items : List Item) (last : Bytes) (index : Nat) : Bytes :=
  ((edits.find? (·.start == reach items index)).map Edit.replacement).getD (gapAt items last index)

structure CoversGap (items : List Item) (last : Bytes) (edit : Edit) (index : Nat) : Prop where
  below : index < items.length
  start : edit.start = reach items index
  stop : edit.stop = reach items index + (gapAt items last index).length

section Edits
variable {items : List Item} {last : Bytes} {edits : List Edit} {edit : Edit} {gaps : Nat → Bytes} {index : Nat}

private theorem Reads.reach_lt_reach (reads : Reads true items last) {second : Nat} (earlier : index < second)
    (below : index < items.length) : reach items index < reach items second :=
  Nat.lt_of_le_of_lt (Nat.le_add_right _ _) (reads.start_lt_reach (List.getElem?_eq_getElem below) earlier)

private theorem editedGap_of_later (later : ∀ edit ∈ edits, reach items index < edit.start) :
    editedGap edits items last index = gapAt items last index := by
  have none : edits.find? (·.start == reach items index) = none := by
    rw [List.find?_eq_none]
    intro edit member same
    have after := later edit member
    rw [beq_iff_eq] at same
    omega
  rw [editedGap, none]
  rfl

private theorem editedGap_cons_self (start : edit.start = reach items index) :
    editedGap (edit :: edits) items last index = edit.replacement := by
  rw [editedGap, List.find?_cons_of_pos (by simpa using start)]
  rfl

private theorem editedGap_cons_of_ne (other : edit.start ≠ reach items index) :
    editedGap (edit :: edits) items last index = editedGap edits items last index := by
  rw [editedGap, List.find?_cons_of_neg (by simpa using other), editedGap]

private theorem slice_bytes {item : Item} (found : items[index]? = some item) :
    slice (woven items last) (reach items index + item.gap.length) (reach items (index + 1)) = item.bytes := by
  have next := reach_succ found
  have whole := @slice_append_slice (woven items last) (reach items index) (reach items index + item.gap.length)
    (reach items (index + 1)) (Nat.le_add_right _ _) (by omega)
  rw [slice_gap found, slice_item found] at whole
  exact List.append_cancel_left whole

private theorem CoversGap.place_eq {place : Nat} (covered : CoversGap items last edit place)
    (reads : Reads true items last)
    (start : edit.start = reach items index) : place = index := by
  have same := covered.start.symm.trans start
  rcases Nat.lt_trichotomy place index with before | here | after
  · exact absurd same (Nat.ne_of_lt (reads.reach_lt_reach before covered.below))
  · exact here
  · exact absurd same (Nat.ne_of_gt (reads.reach_lt_reach after (Nat.lt_trans after covered.below)))

theorem CoversGap.stop_le_reach (covered : CoversGap items last edit index) :
    edit.start ≤ edit.stop ∧ edit.stop ≤ reach items (index + 1) := by
  have found := List.getElem?_eq_getElem covered.below
  rw [covered.start, covered.stop, reach_succ found, gapAt_eq found]
  exact ⟨Nat.le_add_right _ _, Nat.le_add_right _ _⟩

private theorem reach_le_of_covers
    (covers : ∀ edit ∈ edits, ∃ place, index ≤ place ∧ CoversGap items last edit place) :
    ∀ edit ∈ edits, reach items index ≤ edit.start := by
  intro edit member
  obtain ⟨place, after, covered⟩ := covers edit member
  rw [covered.start]
  exact reach_mono items after

/-- Edits that start behind a gap cover later gaps. -/
theorem covers_later (covers : ∀ edit ∈ edits, ∃ place, index ≤ place ∧ CoversGap items last edit place)
    (behind : ∀ edit ∈ edits, reach items index < edit.start) :
    ∀ edit ∈ edits, ∃ place, index + 1 ≤ place ∧ CoversGap items last edit place := by
  intro edit member
  obtain ⟨place, after, covered⟩ := covers edit member
  refine ⟨place, Nat.lt_of_le_of_ne after ?_, covered⟩
  rintro rfl
  exact Nat.ne_of_gt (behind edit member) covered.start

/-- The next edit covers the gap at hand, or all edits lie behind it. -/
theorem next_edit (ordered : edits.Pairwise (·.start < ·.start))
    (covers : ∀ edit ∈ edits, ∃ place, index ≤ place ∧ CoversGap items last edit place) :
    (∀ edit ∈ edits, reach items index < edit.start) ∨
      ∃ edit rest, edits = edit :: rest ∧ edit.start = reach items index := by
  cases edits with
  | nil => exact .inl nofun
  | cons edit rest =>
    rcases Nat.eq_or_lt_of_le (reach_le_of_covers covers edit List.mem_cons_self) with here | behind
    · exact .inr ⟨edit, rest, rfl, here.symm⟩
    · left
      intro other member
      rcases List.mem_cons.mp member with rfl | member
      · exact behind
      · exact Nat.lt_trans behind ((List.pairwise_cons.mp ordered).1 other member)

/-- Edits that cover gaps from a token on, in order, give the text of the layout with the edited gaps. -/
theorem Reads.splice_gaps (reads : Reads true items last) (within : index ≤ items.length)
    (ordered : edits.Pairwise (·.start < ·.start))
    (covers : ∀ edit ∈ edits, ∃ place, index ≤ place ∧ CoversGap items last edit place)
    (edited : ∀ place, index ≤ place → gaps place = editedGap edits items last place) :
    Edit.splice (woven items last) (reach items index) edits = woven ((spaced gaps items).drop index) last := by
  induction left : items.length - index generalizing index edits with
  | zero =>
    obtain rfl : index = items.length := by omega
    obtain rfl : edits = [] := by
      apply List.eq_nil_iff_forall_not_mem.mpr
      intro edit member
      obtain ⟨place, after, covered⟩ := covers edit member
      exact absurd covered.below (Nat.not_lt.mpr after)
    rw [Edit.splice, drop_reach, List.drop_length, List.drop_eq_nil_of_le (Nat.le_of_eq (length_spaced gaps items))]
  | succ left ih =>
    have below : index < items.length := by omega
    have found := List.getElem?_eq_getElem below
    have here := edited index (Nat.le_refl _)
    rw [woven_drop (getElem?_spaced found), here]
    rcases next_edit ordered covers with behind | ⟨edit, rest, rfl, start⟩
    · have moved := covers_later covers behind
      have rest := ih below ordered moved (fun place after => edited place (Nat.le_of_succ_le after)) (by omega)
      rw [Edit.splice_eq_slice_append (reach_mono items (Nat.le_succ index)) (reach_le_of_covers moved),
        slice_item found, rest, editedGap_of_later behind, gapAt_eq found, List.append_assoc]
    · obtain ⟨before, ordered⟩ := List.pairwise_cons.mp ordered
      obtain ⟨place, -, covered⟩ := covers edit List.mem_cons_self
      obtain rfl := covered.place_eq reads start
      rw [start] at before
      have moved := covers_later (fun other member => covers other (List.mem_cons_of_mem _ member)) before
      have rest := ih below ordered moved (fun other after => ?_) (by omega)
      · rw [Edit.splice, start, slice_self, List.nil_append,
          Edit.splice_eq_slice_append covered.stop_le_reach.2 (reach_le_of_covers moved), rest, covered.stop,
          gapAt_eq found, slice_bytes found, editedGap_cons_self start]
      · rw [edited other (Nat.le_of_succ_le after), editedGap_cons_of_ne]
        rw [start]
        exact Nat.ne_of_lt (reads.reach_lt_reach after below)

/-- Edits that cover gaps, in order, are all made. -/
theorem Reads.applyEdits_gaps (reads : Reads true items last) (ordered : edits.Pairwise (·.start < ·.start))
    (covers : ∀ edit ∈ edits, ∃ place, CoversGap items last edit place) :
    (applyEdits (woven items last) edits).text = woven (spaced (editedGap edits items last) items) last ∧
      (applyEdits (woven items last) edits).rejected = [] := by
  have inOrder : Edit.Ordered (woven items last).length 0 edits := by
    apply Edit.ordered_of_pairwise
    · intro edit member
      obtain ⟨place, covered⟩ := covers edit member
      obtain ⟨forward, inside⟩ := covered.stop_le_reach
      exact ⟨forward, Nat.le_trans inside (reach_le_length items last (place + 1)), Nat.zero_le _⟩
    · apply ordered.imp_of_mem
      intro edit other member member' before
      obtain ⟨place, covered⟩ := covers edit member
      obtain ⟨place', covered'⟩ := covers other member'
      rw [covered.start, covered'.start] at before
      have earlier : place < place' := by
        by_contra later
        exact absurd before (Nat.not_lt_of_le (reach_mono items (Nat.le_of_not_lt later)))
      rw [covered'.start]
      exact Nat.le_trans covered.stop_le_reach.2 (reach_mono items earlier)
  obtain ⟨spliced, made⟩ := applyEdits_of_ordered inOrder
  refine ⟨?_, made⟩
  rw [spliced]
  apply reads.splice_gaps (Nat.zero_le _) ordered
  · intro edit member
    obtain ⟨place, covered⟩ := covers edit member
    exact ⟨place, Nat.zero_le _, covered⟩
  · intro place _
    rfl

/-- What an edit of the spacing of stars does to the layout. -/
theorem Reads.respacesStars (reads : Reads true items last) (respaces : (outlineOf items last).RespacesStars edit) :
    ∃ place, CoversGap items last edit place ∧ LooseGap items last place ∧
      hasNewline (gapAt items last place) = false := by
  obtain ⟨⟨first, count, index, loose, after, within, start, stop, inLine⟩, -, -⟩ := respaces
  obtain ⟨previous, rfl⟩ : ∃ previous, first = previous + 1 := ⟨first - 1, by have := loose.led; omega⟩
  obtain ⟨_, _, same, isRun⟩ := Outline.exists_range_of_mem loose.member
  obtain ⟨rfl, rfl⟩ := range'_inj same
  have stars := reads.pointerStars loose.member isRun loose.declarator
  have before := loose.before
  have behind := loose.behind
  rw [Nat.add_sub_cancel, stars.gap_eq reads (by omega)] at before
  rw [stars.gap_eq reads (Nat.le_refl _)] at behind
  rw [stars.gap_eq reads within] at inLine
  rw [reads.token, Option.map_map, Option.map_eq_some_iff] at start stop
  obtain ⟨item, found, start⟩ := start
  obtain ⟨item', found', stop⟩ := stop
  refine ⟨index + 1, ⟨(List.getElem?_eq_some_iff.mp found').1, ?_, ?_⟩, ?_, inLine⟩
  · exact start.symm.trans (reach_succ found).symm
  · rw [gapAt_eq found']
    exact stop.symm
  · exact ⟨_, count, stars, before, behind, after, Nat.succ_le_succ within⟩

theorem Reads.spacing (reads : Reads true items last)
    (respaces : ∀ edit ∈ edits, (outlineOf items last).RespacesStars edit) :
    Spacing items last (editedGap edits items last) := by
  intro index
  rw [editedGap]
  cases found : edits.find? (·.start == reach items index) with
  | none => exact .inl rfl
  | some edit =>
    have respaced := respaces edit (List.mem_of_find?_eq_some found)
    obtain ⟨place, covered, loose, inLine⟩ := reads.respacesStars respaced
    obtain rfl := covered.place_eq reads (by simpa using List.find?_some found)
    exact .inr ⟨loose, inLine, respaced.blank, respaced.inLine⟩

end Edits

/-- Other spaces in the gaps of stars do not change what a text is fixed to: the edits are all
made, and the text that they give is fixed to the same text. -/
theorem fix_ignores_star_spacing {text : Bytes} {edits : List Edit} (ordered : edits.Pairwise (·.start < ·.start))
    (respaces : ∀ edit ∈ edits, (Outline.ofText text).RespacesStars edit) :
    (applyEdits text edits).rejected = [] ∧ (fix (applyEdits text edits).text).text = (fix text).text := by
  obtain ⟨items, last, rfl, reads⟩ := exists_reads true text
  have covers : ∀ edit ∈ edits, ∃ place, CoversGap items last edit place := by
    intro edit member
    obtain ⟨place, covered, -⟩ := reads.respacesStars (respaces edit member)
    exact ⟨place, covered⟩
  obtain ⟨edited, made⟩ := reads.applyEdits_gaps ordered covers
  refine ⟨made, ?_⟩
  rw [edited, ← fixBraces_fixStars, (reads.spacing respaces).fixStars_eq reads, fixBraces_fixStars]

/-- Two stars against the word before them are fixed to the same text as two stars apart. -/
theorem fix_ignores_star_spacing_sample :
    let text := ascii "void f(char * * q)"
    let edits : List Edit := [⟨11, 12, []⟩, ⟨13, 14, ascii "\t "⟩, ⟨15, 16, []⟩]
    (applyEdits text edits).text = ascii "void f(char*\t *q)" ∧
      (fix (ascii "void f(char*\t *q)")).text = (fix text).text := by
  intro text edits
  have edited : (applyEdits text edits).text = ascii "void f(char*\t *q)" := by decide +kernel
  have loose : (Outline.ofText text).LooseStars 4 1 :=
    ⟨by decide +kernel, by decide, by decide +kernel, by decide +kernel, by decide +kernel⟩
  have respaces : ∀ edit ∈ edits, (Outline.ofText text).RespacesStars edit := by
    intro edit member
    simp only [edits, List.mem_cons, List.not_mem_nil, or_false] at member
    rcases member with rfl | rfl | rfl
    · exact ⟨⟨4, 1, 3, loose, by decide +kernel⟩, rfl, rfl⟩
    · exact ⟨⟨4, 1, 4, loose, by decide +kernel⟩, by decide, by decide⟩
    · exact ⟨⟨4, 1, 5, loose, by decide +kernel⟩, rfl, rfl⟩
  have fixed := (@fix_ignores_star_spacing text edits (by decide) respaces).2
  rw [edited] at fixed
  exact ⟨edited, fixed⟩

end Allman
