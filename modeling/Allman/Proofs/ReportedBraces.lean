import Mathlib.Data.List.Forall2
import Allman.Proofs.CoveredText
import Allman.Proofs.MovedBraces

/-! Which braces are reported. The rule looks back over blanks, then at the gap to
the token before the brace, and passes over directives on its way. All of this comes
to one question about the line: does a token that is no directive end in it before
the brace? A directive and an unclosed literal both end with their line, so neither
can hide such a token or be taken for one. -/

namespace Allman
open Region

/-- A check that fails exactly on the members singled out by a test reports these,
each once and in their order. -/
theorem forall₂_filterMap {α β : Type} {relates : β → α → Prop} {check : α → Option β} {test : α → Bool}
    {members : List α} (reported : ∀ a ∈ members, test a = true → ∃ b, check a = some b ∧ relates b a)
    (passed : ∀ a ∈ members, test a = false → check a = none) :
    List.Forall₂ relates (members.filterMap check) (members.filter test) := by
  induction members with
  | nil => exact .nil
  | cons a members ih =>
    have rest := ih (fun b member => reported b (.tail a member)) (fun b member => passed b (.tail a member))
    cases holds : test a with
    | false =>
      rw [List.filterMap_cons_none (passed a (.head _) holds), List.filter_cons_of_neg (by simp [holds])]
      exact rest
    | true =>
      obtain ⟨b, found, related⟩ := reported a (.head _) holds
      rw [List.filterMap_cons_some found, List.filter_cons_of_pos holds]
      exact .cons related rest

namespace Outline

/-- Code stands before a token on its line: some token that is no directive ends at or
before it, with no newline between the two. -/
def followsCode (outline : Outline) (token : Token) : Bool :=
  outline.tokens.any fun other =>
    other.kind ≠ .directive && other.stop ≤ token.start && !hasNewline (slice outline.text other.stop token.start)

/-- The token is the opening brace of a block, and code stands before it on its line. -/
def exposedBrace (outline : Outline) (index : Nat) : Bool :=
  outline.is index .leftBrace && outline.role? index == some .block && outline.tokens[index]?.any outline.followsCode

end Outline

section Layout
variable {items : List Item} {last : Bytes} {index other : Nat} {item before : Item}

/-- A newline in the gap of a token stands between the token and all that ends before it. -/
theorem Reads.hasNewline_between (reads : Reads true items last) (found : items[index]? = some item)
    (earlier : other < index) (found' : items[other]? = some before)
    (newline : hasNewline (gapAt items last index) = true) :
    hasNewline (slice (woven items last) (before.token (reach items other)).stop
      (item.token (reach items index)).start) = true := by
  rw [gapAt_eq found] at newline
  have between := reads.hasNewline_gap earlier found' found newline
  rwa [Outline.gap, reads.token, reads.token, found, found'] at between

/-- A token that starts before another one stands before it. -/
theorem lt_of_start_lt (found : items[index]? = some item) (found' : items[other]? = some before)
    (earlier : (before.token (reach items other)).start < (item.token (reach items index)).start) :
    other < index := by
  by_contra later
  have apart : reach items index + item.gap.length ≤ reach items other + before.gap.length := by
    rcases Nat.eq_or_lt_of_le (Nat.le_of_not_lt later) with rfl | further
    · obtain rfl := Option.some.inj (found.symm.trans found')
      exact Nat.le_refl _
    · have reached := reach_mono items (Nat.succ_le_of_lt further)
      rw [reach_succ found] at reached
      omega
  exact absurd earlier (Nat.not_lt_of_le apart)

/-- Code stands before a token on its line exactly if the gap before it has no newline. -/
theorem Reads.followsCode_iff (reads : Reads true items last) (found : items[index]? = some item) :
    (outlineOf items last).followsCode (item.token (reach items index)) = true ↔
      0 < index ∧ hasNewline (gapAt items last index) = false := by
  have tokens : (outlineOf items last).tokens = (placed 0 items).toArray := congrArg List.toArray reads.scan_eq
  have whole : (outlineOf items last).text = woven items last := rfl
  simp only [Outline.followsCode, tokens, whole, List.any_toArray, List.any_eq_true, Bool.and_eq_true,
    decide_eq_true_eq, Bool.not_eq_true']
  constructor
  · rintro ⟨_, member, ⟨-, ends⟩, inLine⟩
    obtain ⟨other, before, found', rfl⟩ := mem_placed member
    have covers := (reads.token_region found').1
    have earlier := lt_of_start_lt found found' (Nat.lt_of_lt_of_le covers ends)
    refine ⟨Nat.zero_lt_of_lt earlier, Bool.eq_false_iff.mpr fun newline => ?_⟩
    rw [reads.hasNewline_between found earlier found' newline] at inLine
    cases inLine
  · rintro ⟨positive, inLine⟩
    obtain ⟨other, rfl⟩ := Nat.exists_eq_succ_of_ne_zero (Nat.ne_of_gt positive)
    have below : other < items.length := Nat.lt_of_succ_lt (List.getElem?_eq_some_iff.mp found).1
    have found' := List.getElem?_eq_getElem below
    have stop : (items[other].token (reach items other)).stop = reach items (other + 1) := (reach_succ found').symm
    rw [gapAt_eq found] at inLine
    refine ⟨_, placed_mem found', ⟨reads.kind_ne_directive found' found inLine, ?_⟩, ?_⟩
    · rw [stop]
      exact Nat.le_add_right _ _
    · rw [stop]
      exact (congrArg hasNewline (slice_gap found)).trans inLine

/-- A brace is at fault exactly if it is exposed. -/
theorem Reads.isSome_checkBrace? (reads : Reads true items last) (index : Nat) :
    ((outlineOf items last).checkBrace? index).isSome = (outlineOf items last).exposedBrace index := by
  rw [Bool.eq_iff_iff, reads.checkBrace?_isSome_iff, Outline.exposedBrace, Bool.and_eq_true, Bool.and_eq_true,
    beq_iff_eq, and_assoc]
  cases found : items[index]? with
  | none =>
    have absent : ¬ (outlineOf items last).is index .leftBrace = true := by
      rw [reads.is_iff, found]
      simp
    exact iff_of_false (fun fault => absent fault.2.1) (fun exposed => absent exposed.1)
  | some item =>
    rw [reads.token, found, Option.map_some, Option.any_some, reads.followsCode_iff found]
    constructor
    · rintro ⟨positive, brace, role, inLine⟩
      exact ⟨brace, role, positive, inLine⟩
    · rintro ⟨brace, role, positive, inLine⟩
      exact ⟨positive, brace, role, inLine⟩

/-- Where no code stands before a token on its line, only spaces and comments do. -/
theorem Reads.idle_before (reads : Reads true items last) (found : items[index]? = some item)
    (first : (outlineOf items last).followsCode (item.token (reach items index)) = false) {offset : Nat}
    (before : offset < (item.token (reach items index)).start)
    (inLine : hasNewline (slice (woven items last) offset (item.token (reach items index)).start) = false) :
    Idle (woven items last) offset := by
  have inside : offset < (woven items last).length := by
    have start : (item.token (reach items index)).start ≤ reach items (index + 1) := by
      rw [reach_succ found]
      exact Nat.le_add_right _ _
    exact Nat.lt_of_lt_of_le before (Nat.le_trans start (reach_le_length items last _))
  rcases reads.idle_or_token inside with idle | ⟨other, earlier, found', holds⟩
  · exact idle
  -- The token that holds the offset would end in this line, before a gap without a newline.
  have ahead := lt_of_start_lt found found' (Nat.lt_of_le_of_lt holds.1 before)
  have stop : (earlier.token (reach items other)).stop = reach items (other + 1) := (reach_succ found').symm
  have ends : (earlier.token (reach items other)).stop ≤ (item.token (reach items index)).start := by
    rw [stop]
    exact Nat.le_trans (reach_mono items (Nat.succ_le_of_lt ahead)) (Nat.le_add_right _ _)
  rw [← slice_append_slice _ (Nat.le_of_lt holds.2) ends, hasNewline_append, Bool.or_eq_false_iff] at inLine
  have same : hasNewline (gapAt items last index) = false := by
    refine Bool.eq_false_iff.mpr fun newline => ?_
    rw [reads.hasNewline_between found ahead found' newline] at inLine
    cases inLine.2
  rw [(reads.followsCode_iff found).mpr ⟨Nat.zero_lt_of_lt ahead, same⟩] at first
  cases first

end Layout

/-- The rule for braces reports the exposed braces, each once and in document order. A
brace of a block that is not reported has nothing but spaces and comments before it on
its line. -/
theorem braceViolations_exact (text : Bytes) :
    let outline := Outline.ofText text
    List.Forall₂ (fun violation index => violation.rule = .bracePlacement ∧
        outline.tokens[index]?.map Token.start = some violation.site)
      outline.braceViolations ((List.range outline.size).filter outline.exposedBrace) ∧
    outline.braceViolations.Pairwise (·.site < ·.site) ∧
    ∀ index brace, outline.tokens[index]? = some brace → brace.kind = .leftBrace →
      outline.exposedBrace index = false → outline.role? index = some .block →
        ∀ offset < brace.start, hasNewline (slice text offset brace.start) = false → Idle text offset := by
  obtain ⟨items, last, rfl, reads⟩ := exists_reads true text
  intro outline
  refine ⟨forall₂_filterMap ?_ ?_, ?_, ?_⟩
  · intro index _ exposed
    rw [← reads.isSome_checkBrace?, Option.isSome_iff_exists] at exposed
    obtain ⟨violation, violates⟩ := exposed
    obtain ⟨brace, found, site, -⟩ := Outline.checkBrace?_eq_some violates
    refine ⟨violation, violates, (reads.misplacedBrace violates).rule, ?_⟩
    rw [found, site]
    rfl
  · intro index _ hidden
    rw [← Option.isNone_iff_eq_none, ← Option.isSome_eq_false_iff, reads.isSome_checkBrace?, hidden]
  · refine List.pairwise_filterMap.mpr (List.pairwise_lt_range.imp ?_)
    intro index index' earlier violation violates other violates'
    have apart := (reads.misplacedBrace violates).before_brace (reads.misplacedBrace violates') earlier
    have covers := (reads.misplacedBrace violates).start_lt_stop reads
    have covers' := (reads.misplacedBrace violates').start_lt_stop reads
    omega
  · intro index brace found kind hidden role offset before inLine
    have is : outline.is index .leftBrace = true := by simp [Outline.is, Outline.kind?, found, kind]
    have first : outline.followsCode brace = false := by simpa [Outline.exposedBrace, is, role, found] using hidden
    rw [reads.token, Option.map_eq_some_iff] at found
    obtain ⟨item, found, rfl⟩ := found
    exact reads.idle_before found first before inLine

/-- Of two braces the first one has code before it on its line, and the second one a comment. -/
theorem braceViolations_two_braces :
    let outline := Outline.ofText (ascii "f() \x7b\n/**/ \x7b")
    (∃ violation ∈ outline.braceViolations, violation.site = 4) ∧ Idle (ascii "f() \x7b\n/**/ \x7b") 8 := by
  intro outline
  obtain ⟨reported, -, spared⟩ := braceViolations_exact (ascii "f() \x7b\n/**/ \x7b")
  have exposed : (List.range outline.size).filter outline.exposedBrace = [3] := by decide +kernel
  have brace : outline.tokens[3]?.map Token.start = some 4 := by decide +kernel
  constructor
  · rw [exposed] at reported
    obtain ⟨violation, others, ⟨-, site⟩, -, listed⟩ := List.forall₂_cons_right_iff.mp reported
    rw [brace] at site
    exact ⟨violation, by rw [listed]; exact List.mem_cons_self, (Option.some.inj site).symm⟩
  · apply spared 4 ⟨.leftBrace, 11, 12, [Byte.leftBrace]⟩
    all_goals decide +kernel

end Allman
