import Allman.Proofs.Violations

/-! The order of a report. Each violation belongs to the first token it covers, the
brace or the first star of its run, and no gap is covered by two of them. So the
violations in the order of their tokens are apart from one another, and sorting
gives exactly that order. -/

namespace Allman
open Region

section Apart
variable {items : List Item} {last : Bytes} {index index' first first' count count' : Nat} {violation other : Violation}

theorem reach_gap_le (below : index < items.length) :
    reach items index + (gapAt items last index).length ≤ reach items (index + 1) := by
  have found := List.getElem?_eq_getElem below
  rw [reach_succ found, gapAt_eq found]
  exact Nat.le_add_right _ _

theorem length_trimEnd_le (p : UInt8 → Bool) (bytes : Bytes) : (trimEnd p bytes).length ≤ bytes.length := by
  obtain ⟨trimmed, split, -⟩ := exists_trimEnd p bytes
  have length := congrArg List.length split
  rw [List.length_append] at length
  omega

theorem MisplacedBrace.reach_le_start (brace : MisplacedBrace items last index violation) :
    reach items index ≤ violation.start := by
  rw [brace.start]
  exact Nat.le_add_right _ _

theorem MisplacedBrace.below (brace : MisplacedBrace items last index violation) : index < items.length := by
  obtain ⟨item, found, -⟩ := brace.brace
  exact (List.getElem?_eq_some_iff.mp found).1

theorem MisplacedBrace.stop_le (brace : MisplacedBrace items last index violation) :
    violation.stop ≤ reach items (index + 1) + (gapAt items last (index + 1)).length := by
  obtain ⟨blanks, rest, split, -, stop, -⟩ := brace.stop
  rw [stop, split, List.length_append]
  omega

theorem MisplacedBrace.stop_eq (brace : MisplacedBrace items last index violation)
    (below : index + 1 < items.length) (inLine : hasNewline (gapAt items last (index + 1)) = false) :
    violation.stop = reach items (index + 1) := by
  obtain ⟨blanks, rest, split, -, stop, rfl | starts | ⟨-, ended⟩⟩ := brace.stop
  · exact stop
  · rw [split, hasNewline_append, hasNewline_of_startsLineBreak starts, Bool.or_true] at inLine
    cases inLine
  · omega

theorem PointerStars.below (stars : PointerStars items last first count) :
    first + count + 1 < items.length := by
  obtain ⟨item, found, -⟩ := stars.next
  exact (List.getElem?_eq_some_iff.mp found).1

theorem MisplacedBrace.before_brace (brace : MisplacedBrace items last index violation)
    (brace' : MisplacedBrace items last index' other) (earlier : index < index') : violation.stop ≤ other.start := by
  have below := brace'.below
  rcases Nat.eq_or_lt_of_le (Nat.succ_le_of_lt earlier) with rfl | further
  · rw [brace.stop_eq below brace'.inLine]
    exact brace'.reach_le_start
  · calc violation.stop ≤ reach items (index + 1) + (gapAt items last (index + 1)).length := brace.stop_le
      _ ≤ reach items (index + 2) := reach_gap_le (Nat.lt_trans further below)
      _ ≤ reach items index' := reach_mono items further
      _ ≤ other.start := brace'.reach_le_start

theorem MisplacedBrace.before_stars (brace : MisplacedBrace items last index violation)
    (stars : MisplacedStars items last first count other) (earlier : index < first) : violation.stop ≤ other.start := by
  have below := stars.below
  rcases Nat.eq_or_lt_of_le (Nat.succ_le_of_lt earlier) with rfl | further
  · obtain ⟨before, item, same, found, leads⟩ := stars.previous
    obtain rfl := Nat.succ.inj same
    obtain ⟨item', found', kind⟩ := brace.brace
    obtain rfl : item' = item := Option.some.inj (found'.symm.trans found)
    rw [kind] at leads
    cases leads
  · calc violation.stop ≤ reach items (index + 1) + (gapAt items last (index + 1)).length := brace.stop_le
      _ ≤ reach items (index + 2) := reach_gap_le (by omega)
      _ ≤ reach items first := reach_mono items further
      _ = other.start := stars.start.symm

theorem PointerStars.next_ne (stars : PointerStars items last first count) {item : Item}
    (found : items[first + count + 1]? = some item) : item.kind ≠ .leftBrace ∧ item.kind ≠ .star := by
  obtain ⟨next, found', ends⟩ := stars.next
  obtain rfl : next = item := Option.some.inj (found'.symm.trans found)
  constructor
  all_goals
    intro kind
    rw [kind] at ends
    cases ends

theorem MisplacedStars.stop_le_reach (stars : MisplacedStars items last first count violation)
    (earlier : first + count + 1 < index) : violation.stop ≤ reach items index := by
  rw [stars.stop]
  exact Nat.le_trans (reach_gap_le stars.below) (reach_mono items earlier)

/-- A run that started inside another one would be the same run. -/
theorem MisplacedStars.outside (stars : MisplacedStars items last first count violation)
    (stars' : MisplacedStars items last first' count' other) (earlier : first < first') : first + count < first' := by
  refine Nat.lt_of_not_le fun inside => ?_
  have shared : first' ∈ List.range' first (count + 1) := by
    rw [List.mem_range'_1]
    omega
  have same := Outline.run_unique stars.member stars'.member shared (by simp [List.mem_range'_1])
  rw [List.range'_succ, List.range'_succ] at same
  exact absurd (List.cons.inj same).1 (Nat.ne_of_lt earlier)

theorem MisplacedStars.before_stars (reads : Reads true items last)
    (stars : MisplacedStars items last first count violation)
    (stars' : MisplacedStars items last first' count' other) (earlier : first + count < first') :
    violation.stop ≤ other.start := by
  rcases Nat.eq_or_lt_of_le (Nat.succ_le_of_lt earlier) with rfl | further
  · have star := stars'.run.item reads (Nat.le_refl _) (Nat.le_add_right _ _)
    exact absurd rfl (stars.next_ne star).2
  · rw [stars'.start]
    exact stars.stop_le_reach further

theorem MisplacedStars.before_brace (reads : Reads true items last)
    (stars : MisplacedStars items last first count violation)
    (brace : MisplacedBrace items last index other) (earlier : first < index) :
    violation.stop ≤ other.start := by
  obtain ⟨item, found, kind⟩ := brace.brace
  rcases Nat.lt_or_ge (first + count + 1) index with further | inside
  · exact Nat.le_trans (stars.stop_le_reach further) brace.reach_le_start
  · rcases Nat.eq_or_lt_of_le inside with rfl | inside
    · exact absurd kind (stars.next_ne found).1
    · have star := stars.run.item reads (Nat.le_of_lt earlier) (Nat.le_of_lt_succ inside)
      obtain rfl := Option.some.inj (found.symm.trans star)
      cases kind

theorem MisplacedBrace.start_lt_stop (brace : MisplacedBrace items last index violation)
    (reads : Reads true items last) :
    violation.start ≤ violation.site ∧ violation.site < violation.stop := by
  obtain ⟨item, found, -⟩ := brace.brace
  obtain ⟨blanks, rest, -, -, stop, -⟩ := brace.stop
  obtain ⟨c, bytes, first, -⟩ := (reads.at found).2.solid
  have trimmed := length_trimEnd_le Byte.isBlank (gapAt items last index)
  have length := @gapAt_eq items last _ _ found
  rw [brace.start, brace.site, stop, reach_succ found, first, List.length_cons, ← length]
  omega

theorem MisplacedStars.start_lt_stop (stars : MisplacedStars items last first count violation)
    (reads : Reads true items last) : violation.start ≤ violation.site ∧ violation.site < violation.stop := by
  have next := reach_succ (stars.run.item reads (Nat.le_refl _) (Nat.le_add_right _ _))
  have later := reach_mono items (show first + 1 ≤ first + count + 1 by omega)
  simp only [List.length_singleton] at next
  rw [stars.start, stars.site, stars.stop]
  omega

end Apart

namespace Outline

def runAt? (outline : Outline) (index : Nat) : Option (List Nat) :=
  outline.starRuns.find? (·.head? == some index)

/-- The violation of one of the chosen rules that belongs to a token. -/
def violationAt? (outline : Outline) (chosen : Rule → Bool) (index : Nat) : Option Violation :=
  ((outline.checkBrace? index).or ((outline.runAt? index).bind outline.checkStars?)).filter (chosen ·.rule)

/-- The violations of the chosen rules in the order of the tokens they belong to. -/
def violations (outline : Outline) (chosen : Rule → Bool) : List Violation :=
  (List.range outline.size).filterMap (outline.violationAt? chosen)

private theorem runAt?_eq_some {outline : Outline} {first : Nat} {run : List Nat} :
    outline.runAt? first = some run ↔ run ∈ outline.starRuns ∧ run.head? = some first := by
  have found : ∀ {run}, outline.runAt? first = some run → run ∈ outline.starRuns ∧ run.head? = some first :=
    fun found => ⟨List.mem_of_find?_eq_some found, by simpa using List.find?_some found⟩
  refine ⟨found, fun ⟨member, head⟩ => ?_⟩
  cases search : outline.runAt? first with
  | none => exact absurd (by simpa using head) (List.find?_eq_none.mp search run member)
  | some run' =>
    obtain ⟨member', head'⟩ := found search
    rw [run_unique member member' (List.mem_of_mem_head? head) (List.mem_of_mem_head? head')]

end Outline

section Order
variable {items : List Item} {last : Bytes} {index : Nat} {violation : Violation} {chosen : Rule → Bool}

theorem Reads.violationAt?_cases (reads : Reads true items last)
    (violates : (outlineOf items last).violationAt? chosen index = some violation) :
    chosen violation.rule = true ∧
    (MisplacedBrace items last index violation ∨ ∃ count, MisplacedStars items last index count violation) := by
  rw [Outline.violationAt?, Option.filter_eq_some_iff, Option.or_eq_some_iff] at violates
  obtain ⟨brace | ⟨-, stars⟩, allowed⟩ := violates
  · exact ⟨allowed, .inl (reads.misplacedBrace brace)⟩
  · obtain ⟨run, found, violates⟩ := Option.bind_eq_some_iff.mp stars
    obtain ⟨member, head⟩ := Outline.runAt?_eq_some.mp found
    obtain ⟨first, count, rfl, misplaced⟩ := reads.misplacedStars member violates
    obtain rfl : first = index := by
      rw [List.range'_succ] at head
      exact Option.some.inj head
    exact ⟨allowed, .inr ⟨count, misplaced⟩⟩

theorem MisplacedBrace.violationAt?_eq (brace : MisplacedBrace items last index violation)
    (allowed : chosen violation.rule = true) : (outlineOf items last).violationAt? chosen index = some violation := by
  rw [Outline.violationAt?, brace.violates, Option.some_or, Option.filter_some, if_pos allowed]

theorem MisplacedStars.violationAt?_eq {count : Nat} (stars : MisplacedStars items last index count violation)
    (reads : Reads true items last) (allowed : chosen violation.rule = true) :
    (outlineOf items last).violationAt? chosen index = some violation := by
  have head : (List.range' index (count + 1)).head? = some index := by
    rw [List.range'_succ]
    rfl
  have noBrace : (outlineOf items last).checkBrace? index = none := by
    cases found : (outlineOf items last).checkBrace? index with
    | none => rfl
    | some other =>
      have star := stars.run.item reads (Nat.le_refl _) (Nat.le_add_right _ _)
      cases ((reads.misplacedBrace found).item reads).symm.trans star
  rw [Outline.violationAt?, noBrace, Option.none_or, Outline.runAt?_eq_some.mpr ⟨stars.member, head⟩, Option.bind_some,
    stars.violates, Option.filter_some, if_pos allowed]

theorem Reads.start_lt_stop (reads : Reads true items last)
    (violates : (outlineOf items last).violationAt? chosen index = some violation) :
    violation.start ≤ violation.site ∧ violation.site < violation.stop := by
  obtain ⟨-, brace | ⟨count, stars⟩⟩ := reads.violationAt?_cases violates
  · exact brace.start_lt_stop reads
  · exact stars.start_lt_stop reads

/-- Of two violations, the one that belongs to the earlier token ends before the other starts. -/
theorem Reads.stop_le_start (reads : Reads true items last) {index' : Nat} {other : Violation}
    (earlier : index < index')
    (violates : (outlineOf items last).violationAt? chosen index = some violation)
    (violates' : (outlineOf items last).violationAt? chosen index' = some other) :
    violation.stop ≤ other.start := by
  obtain ⟨-, brace | ⟨count, stars⟩⟩ := reads.violationAt?_cases violates
  all_goals obtain ⟨-, brace' | ⟨count', stars'⟩⟩ := reads.violationAt?_cases violates'
  · exact brace.before_brace brace' earlier
  · exact brace.before_stars stars' earlier
  · exact stars.before_brace reads brace' earlier
  · exact stars.before_stars reads stars' (stars.outside stars' earlier)

theorem Reads.pairwise_violations (reads : Reads true items last) (chosen : Rule → Bool) :
    ((outlineOf items last).violations chosen).Pairwise (·.stop ≤ ·.start) := by
  refine List.pairwise_filterMap.mpr (List.pairwise_lt_range.imp ?_)
  intro index index' earlier violation violates other violates'
  exact reads.stop_le_start earlier violates violates'

private theorem Reads.mem_violations (reads : Reads true items last) :
    violation ∈ (outlineOf items last).violations (fun _ => true) ↔
      violation ∈ (outlineOf items last).pointerViolations ++
        (outlineOf items last).braceViolations := by
  rw [List.mem_append, Outline.pointerViolations, Outline.braceViolations, Outline.violations]
  simp only [List.mem_filterMap, List.mem_range]
  constructor
  · rintro ⟨index, below, violates⟩
    obtain ⟨-, brace | ⟨count, stars⟩⟩ := reads.violationAt?_cases violates
    · exact .inr ⟨index, below, brace.violates⟩
    · exact .inl ⟨_, stars.member, stars.violates⟩
  · rintro (⟨run, member, found⟩ | ⟨index, below, found⟩)
    · obtain ⟨first, count, rfl, stars⟩ := reads.misplacedStars member found
      refine ⟨first, ?_, stars.violationAt?_eq reads rfl⟩
      rw [reads.size_eq]
      have := stars.below
      omega
    · exact ⟨index, below, (reads.misplacedBrace found).violationAt?_eq rfl⟩

private theorem Reads.nodup_violations (reads : Reads true items last) (chosen : Rule → Bool) :
    ((outlineOf items last).violations chosen).Nodup := by
  refine List.pairwise_filterMap.mpr (List.pairwise_lt_range.imp ?_)
  rintro index index' earlier violation violates _ violates' rfl
  have apart := reads.stop_le_start earlier violates violates'
  have covers := reads.start_lt_stop violates
  omega

/-- Neither rule reports anything twice, and no violation comes from both. -/
theorem Reads.nodup_found (reads : Reads true items last) :
    ((outlineOf items last).pointerViolations ++
      (outlineOf items last).braceViolations).Nodup := by
  refine List.nodup_append.mpr ⟨?_, ?_, ?_⟩
  · refine List.pairwise_filterMap.mpr ((Outline.pairwise_starRuns _).imp_of_mem ?_)
    rintro run run' member member' earlier violation violates _ violates' rfl
    obtain ⟨first, count, rfl, stars⟩ := reads.misplacedStars member violates
    obtain ⟨first', count', rfl, stars'⟩ := reads.misplacedStars member' violates'
    have after := earlier (first + count) (by simp [List.mem_range'_1]) first' (by simp [List.mem_range'_1])
    have apart := stars.before_stars reads stars' after
    have covers := stars.start_lt_stop reads
    omega
  · refine List.pairwise_filterMap.mpr (List.pairwise_lt_range.imp ?_)
    rintro index index' earlier violation violates _ violates' rfl
    have apart := (reads.misplacedBrace violates).before_brace (reads.misplacedBrace violates') earlier
    have covers := (reads.misplacedBrace violates).start_lt_stop reads
    omega
  · rintro violation pointer _ brace rfl
    obtain ⟨run, member, found⟩ := List.mem_filterMap.mp pointer
    obtain ⟨index, -, found'⟩ := List.mem_filterMap.mp brace
    obtain ⟨first, count, -, stars⟩ := reads.misplacedStars member found
    have rule := (reads.misplacedBrace found').rule
    rw [stars.rule] at rule
    cases rule

private theorem Violation.not_precedes_iff (a b : Violation) :
    (!b.precedes a) = true ↔ a.start < b.start ∨ a.start = b.start ∧ a.stop ≤ b.stop := by
  unfold precedes
  split
  · simp only [Bool.not_eq_true', decide_eq_false_iff_not]
    omega
  · simp only [Bool.not_eq_true', decide_eq_false_iff_not]
    omega

/-- A report lists the violations in the order of their tokens. -/
theorem Reads.scan_violations (reads : Reads true items last) :
    (scan (woven items last)).violations = (outlineOf items last).violations fun _ => true := by
  have listed : ((outlineOf items last).pointerViolations ++
      (outlineOf items last).braceViolations).Perm
      ((outlineOf items last).violations fun _ => true) :=
    (List.perm_ext_iff_of_nodup reads.nodup_found (reads.nodup_violations _)).mpr fun _ => reads.mem_violations.symm
  have sorted := (List.mergeSort_perm ((outlineOf items last).pointerViolations ++
    (outlineOf items last).braceViolations) fun a b => !b.precedes a).trans listed
  refine List.Perm.eq_of_pairwise ?_ (List.pairwise_mergeSort ?_ ?_ _) ?_ sorted
  · intro a b member member' before after
    rw [Violation.not_precedes_iff] at before after
    obtain ⟨index, -, violates⟩ := List.mem_filterMap.mp (sorted.mem_iff.mp member)
    obtain ⟨index', -, violates'⟩ := List.mem_filterMap.mp member'
    have covers := reads.start_lt_stop violates
    have covers' := reads.start_lt_stop violates'
    rcases Nat.lt_trichotomy index index' with earlier | rfl | later
    · have := reads.stop_le_start earlier violates violates'
      omega
    · exact Option.some.inj (violates.symm.trans violates')
    · have := reads.stop_le_start later violates' violates
      omega
  · intro a b c
    simp only [Violation.not_precedes_iff]
    omega
  · intro a b
    rw [Bool.or_eq_true, Violation.not_precedes_iff, Violation.not_precedes_iff]
    omega
  · refine List.pairwise_filterMap.mpr (List.pairwise_lt_range.imp ?_)
    intro index index' earlier violation violates other violates'
    have apart := reads.stop_le_start earlier violates violates'
    have covers := reads.start_lt_stop violates
    rw [Violation.not_precedes_iff]
    omega

end Order

end Allman
