import Allman.Proofs.LexicalGrammar
import Allman.Proofs.WellFormedReport

/-! Texts that differ only inside literals and comments. Spaces that reach up to code
are code themselves, because a literal or comment starts with a byte that is no
space, and ends with one unless its line ends there. So everything that reading a
text asks about spaces has the same answer in both texts, and their tokens cover
the same stretches. -/

namespace Allman
open Region

namespace Region

section Contiguous
variable {start stop offset : Nat} {regions : List Region} {region other : Region}

theorem Contiguous.inside (chain : Contiguous start stop regions) (member : region ∈ regions) :
    start ≤ region.start ∧ region.start < region.stop ∧ region.stop ≤ stop := by
  induction regions generalizing start with
  | nil => cases member
  | cons first rest ih =>
    obtain ⟨rfl, forward, later⟩ := chain
    rcases List.mem_cons.mp member with rfl | member
    · exact ⟨Nat.le_refl _, forward, later.le⟩
    · obtain ⟨after, inside, before⟩ := ih later member
      exact ⟨Nat.le_trans (Nat.le_of_lt forward) after, inside, before⟩

/-- Every offset lies in a region. -/
theorem Contiguous.exists_mem (chain : Contiguous start stop regions) (after : start ≤ offset)
    (before : offset < stop) :
    ∃ region ∈ regions, region.start ≤ offset ∧ offset < region.stop := by
  induction regions generalizing start with
  | nil =>
    obtain rfl : start = stop := chain
    omega
  | cons first rest ih =>
    obtain ⟨rfl, forward, later⟩ := chain
    by_cases within : offset < first.stop
    · exact ⟨first, by simp, after, within⟩
    · obtain ⟨region, member, here⟩ := ih later (Nat.le_of_not_lt within)
      exact ⟨region, by simp [member], here⟩

/-- Two regions are the same or do not overlap. -/
theorem Contiguous.apart (chain : Contiguous start stop regions) (member : region ∈ regions)
    (member' : other ∈ regions) :
    region = other ∨ region.stop ≤ other.start ∨ other.stop ≤ region.start := by
  induction regions generalizing start with
  | nil => cases member
  | cons first rest ih =>
    obtain ⟨rfl, forward, later⟩ := chain
    rcases List.mem_cons.mp member with same | later_ <;> rcases List.mem_cons.mp member' with same' | later'
    · exact .inl (same.trans same'.symm)
    · exact .inr (.inl (same ▸ (later.inside later').1))
    · exact .inr (.inr (same' ▸ (later.inside later_).1))
    · exact ih later later_ later'

end Contiguous

end Region

section Slices
variable {text other : Bytes} {start stop offset : Nat} {p : UInt8 → Bool}

theorem getElem?_slice (text : Bytes) {start stop index : Nat} (inside : index < stop - start) :
    (slice text start stop)[index]? = text[start + index]? := by
  rw [slice, List.getElem?_take_of_lt inside, List.getElem?_drop]

private theorem slice_congr (same : ∀ offset, start ≤ offset → offset < stop → text[offset]? = other[offset]?) :
    slice text start stop = slice other start stop := by
  apply List.ext_getElem?
  intro index
  by_cases inside : index < stop - start
  · rw [getElem?_slice text inside, getElem?_slice other inside]
    exact same _ (Nat.le_add_right _ _) (by omega)
  · have ended : ∀ bytes : Bytes, (slice bytes start stop)[index]? = none := by
      intro bytes
      have short := length_slice_le bytes start stop
      exact List.getElem?_eq_none (by omega)
    rw [ended, ended]

private theorem all_of_slice (holds : (slice text start stop).all p = true) (after : start ≤ offset)
    (before : offset < stop) :
    text[offset]?.all p = true := by
  have here := getElem?_slice text (show offset - start < stop - start by omega)
  rw [Nat.add_sub_cancel' after] at here
  rw [← here]
  cases found : (slice text start stop)[offset - start]? with
  | none => rfl
  | some c => exact List.all_eq_true.mp holds c (List.mem_of_getElem? found)

private theorem not_solidAt (space : text[offset]?.all Byte.isSpace = true) : ¬ solidAt text offset = true := by
  unfold solidAt
  cases found : text[offset]? with
  | none => simp
  | some c =>
    rw [found] at space
    simpa using space

private theorem all_isSpace (blank : text[offset]?.all Byte.isBlank = true) :
    text[offset]?.all Byte.isSpace = true := by
  cases found : text[offset]? with
  | none => rfl
  | some c =>
    rw [found] at blank
    have first : Byte.isBlank c = true := blank
    simp [Byte.isSpace, first]

private theorem isLineEnd_eq_false {c : UInt8} (blank : Byte.isBlank c = true) : Byte.isLineEnd c = false := by
  simp only [Byte.isBlank, Bool.or_eq_true, beq_iff_eq] at blank
  rcases blank with ((rfl | rfl) | rfl) | rfl <;> rfl

private theorem not_isLineEnd_of_isBlank (blank : text[offset]?.all Byte.isBlank = true) :
    ¬ text[offset]?.any Byte.isLineEnd = true := by
  cases found : text[offset]? with
  | none => simp
  | some c =>
    rw [found] at blank
    simpa using isLineEnd_eq_false blank

private theorem not_isLineEnd_of_solid (solid : solidAt text offset = true) :
    ¬ text[offset]?.any Byte.isLineEnd = true := by
  unfold solidAt at solid
  cases found : text[offset]? with
  | none => simp
  | some c =>
    rw [found] at solid
    simp_all [Byte.isSpace, Byte.isLineEnd]

end Slices

private theorem isLineEnd_of_startsLineBreak {bytes : Bytes} (starts : startsLineBreak bytes = true) :
    bytes.head?.any Byte.isLineEnd = true := by
  match bytes with
  | [c] => simp_all [startsLineBreak, startsCrLf, Byte.isLineEnd]
  | c :: d :: rest =>
    simp only [startsLineBreak, startsCrLf, Bool.or_eq_true, Bool.and_eq_true] at starts
    simp only [List.head?_cons, Option.any_some, Byte.isLineEnd, Bool.or_eq_true]
    exact starts.imp id And.left

private theorem cons_prefix_drop {c : UInt8} {rest text : Bytes} {offset : Nat} :
    c :: rest <+: text.drop offset ↔ text[offset]? = some c ∧ rest <+: text.drop (offset + 1) := by
  rw [← List.head?_drop, ← List.tail_drop]
  cases text.drop offset with
  | nil => simp
  | cons d more => simp [List.cons_prefix_cons, eq_comm]

section Passage
variable {text : Bytes} {region : Region}

/-- A literal or comment starts with a byte that is no space. -/
theorem solidAt_start (member : region ∈ classify text) (passage : region.kind ≠ .code) :
    solidAt text region.start = true := by
  have opens := opens_of_mem_classify member
  have inside := (classify_contiguous text).inside member
  match bytes : slice text region.start region.stop with
  | [] => simp [bytes, Opens] at opens
  | c :: rest =>
    have first := getElem?_slice text (show 0 < region.stop - region.start by omega)
    rw [bytes] at first opens
    have solid : Byte.isSpace c = false :=
      Bool.eq_false_iff.mpr fun space => passage (opens.eq_code (.of_isSpace space _))
    exact solidAt_of_getElem? first.symm solid

/-- Behind a literal or comment that does not end with such a byte its line ends. -/
theorem solidAt_stop (member : region ∈ classify text) (passage : region.kind ≠ .code)
    (more : region.stop < text.length) :
    solidAt text (region.stop - 1) = true ∨ text[region.stop]?.any Byte.isLineEnd = true := by
  have inside := (classify_contiguous text).inside member
  rcases (opens_of_mem_classify member).ending passage with finished | ⟨-, c, closing, solid⟩ | ⟨starts, -⟩
  · rw [List.drop_eq_nil_iff] at finished
    omega
  · left
    have length : (slice text region.start region.stop).length = region.stop - region.start := by
      rw [slice, List.length_take, List.length_drop]
      omega
    have last := getElem?_slice text (show region.stop - region.start - 1 < region.stop - region.start by omega)
    rw [List.getLast?_eq_getElem?, length, last] at closing
    have place : region.start + (region.stop - region.start - 1) = region.stop - 1 := by omega
    rw [place] at closing
    exact solidAt_of_getElem? closing solid
  · right
    rw [← List.head?_drop]
    exact isLineEnd_of_startsLineBreak starts

end Passage

/-- The same regions, and the same bytes but for those inside literals and comments
that are no newlines. -/
structure SameCode (text other : Bytes) : Prop where
  length : text.length = other.length
  regions : classify text = classify other
  code : ∀ region ∈ classify text, region.kind = .code → ∀ offset, region.start ≤ offset → offset < region.stop →
    text[offset]? = other[offset]?
  newline : ∀ offset : Nat, text[offset]? = some Byte.newline ↔ other[offset]? = some Byte.newline

/-- No literal or comment reaches over an offset. -/
def Seam (text : Bytes) (offset : Nat) : Prop :=
  ∀ region ∈ classify text, region.kind ≠ .code → region.start < offset → region.stop ≤ offset

def CodeAt (text : Bytes) (offset : Nat) : Prop :=
  solidAt text offset = true ∧
    ∃ region ∈ classify text, region.kind = .code ∧ region.start ≤ offset ∧ offset < region.stop

section Spaces
variable {text other : Bytes} {start stop : Nat}

theorem SameCode.symm (same : SameCode text other) : SameCode other text where
  length := same.length.symm
  regions := same.regions.symm
  code := by
    intro region member code offset after before
    rw [← same.regions] at member
    exact (same.code region member code offset after before).symm
  newline offset := (same.newline offset).symm

theorem SameCode.seam (same : SameCode text other) (seam : Seam text start) : Seam other start := by
  intro region member
  rw [← same.regions] at member
  exact seam region member

theorem SameCode.codeAt (same : SameCode text other) (code : CodeAt text start) : CodeAt other start := by
  obtain ⟨solid, region, member, kind, after, before⟩ := code
  refine ⟨?_, region, same.regions ▸ member, kind, after, before⟩
  rwa [solidAt, ← same.code region member kind start after before]

/-- A stretch is the same in both texts if no literal or comment holds a byte of it. -/
theorem SameCode.slice_eq (same : SameCode text other)
    (code : ∀ region ∈ classify text, region.kind ≠ .code →
      ∀ offset, start ≤ offset → offset < stop → region.start ≤ offset → ¬ offset < region.stop) :
    slice text start stop = slice other start stop := by
  apply slice_congr
  intro offset after before
  by_cases within : offset < text.length
  · obtain ⟨region, member, past, inside⟩ := (classify_contiguous text).exists_mem (Nat.zero_le offset) within
    by_cases kind : region.kind = .code
    · exact same.code region member kind offset past inside
    · exact absurd inside (code region member kind offset after before past)
  · rw [List.getElem?_eq_none (by omega), List.getElem?_eq_none (by rw [← same.length]; omega)]

/-- Spaces behind a seam are code. -/
theorem SameCode.slice_spaces (same : SameCode text other) (seam : Seam text start)
    (spaces : allSpaces (slice text start stop) = true) : slice text start stop = slice other start stop := by
  apply same.slice_eq
  intro region member passage offset after before past inside
  have ahead : start ≤ region.start := by
    apply Nat.le_of_not_lt
    intro earlier
    have ended := seam region member passage earlier
    omega
  have space := all_of_slice spaces ahead (show region.start < stop by omega)
  exact not_solidAt space (solidAt_start member passage)

/-- Blanks in front of code are code. -/
theorem SameCode.slice_blanks (same : SameCode text other) (here : CodeAt text stop)
    (blanks : (slice text start stop).all Byte.isBlank = true) : slice text start stop = slice other start stop := by
  obtain ⟨solid, code, listed, kind, early, late⟩ := here
  apply same.slice_eq
  intro region member passage offset after before past inside
  have bounds := (classify_contiguous text).inside listed
  have earlier : region.stop ≤ stop := by
    rcases (classify_contiguous text).apart member listed with rfl | apart | apart
    · exact absurd kind passage
    · omega
    · omega
  rcases solidAt_stop member passage (by omega) with closed | broken
  · have blank := all_of_slice blanks (show start ≤ region.stop - 1 by omega) (show region.stop - 1 < stop by omega)
    exact not_solidAt (all_isSpace blank) closed
  · -- A line break behind the passage is no blank, nor is it the byte of code itself.
    rcases Nat.lt_or_eq_of_le earlier with inside | rfl
    · have blank := all_of_slice blanks (show start ≤ region.stop by omega) inside
      exact not_isLineEnd_of_isBlank blank broken
    · exact not_isLineEnd_of_solid solid broken

end Spaces

private theorem length_trimEnd_append_le {p : UInt8 → Bool} {front back : Bytes} (trimmed : back.all p = true) :
    (trimEnd p (front ++ back)).length ≤ front.length := by
  have gone : ∀ c ∈ back.reverse, p c = true := by
    intro c member
    exact List.all_eq_true.mp trimmed c (List.mem_reverse.mp member)
  rw [trimEnd, List.reverse_append, List.dropWhile_append_of_pos gone, List.length_reverse]
  exact Nat.le_trans (List.dropWhile_sublist p).length_le (by simp)

theorem getElem?_trimEnd (p : UInt8 → Bool) (bytes : Bytes) {index : Nat} (inside : index < (trimEnd p bytes).length) :
    (trimEnd p bytes)[index]? = bytes[index]? := by
  obtain ⟨trimmed, split, -⟩ := exists_trimEnd p bytes
  rw [congrArg (·[index]?) split]
  exact (List.getElem?_append_left inside).symm

theorem startsLine_eq_getLast? (text : Bytes) (offset : Nat) :
    startsLine text offset = (trimEnd Byte.isBlank (text.take offset)).getLast?.all (· == Byte.newline) := by
  rw [startsLine, trimEnd, List.getLast?_reverse]
  cases (text.take offset).reverse.dropWhile Byte.isBlank <;> rfl

theorem take_append_slice (text : Bytes) {start stop : Nat} (ordered : start ≤ stop) :
    text.take start ++ slice text start stop = text.take stop := by
  rw [slice, ← List.take_add, Nat.add_sub_cancel' ordered]

/-- Behind a trimmed text stand the blanks that were trimmed. -/
theorem trimEnd_blanks (text : Bytes) (offset : Nat) :
    (trimEnd Byte.isBlank (text.take offset)).length ≤ offset ∧
      (slice text (trimEnd Byte.isBlank (text.take offset)).length offset).all Byte.isBlank = true := by
  obtain ⟨blanks, split, blank⟩ := exists_trimEnd Byte.isBlank (text.take offset)
  generalize trimEnd Byte.isBlank (text.take offset) = front at split ⊢
  constructor
  · have length := congrArg List.length split
    rw [List.length_take, List.length_append] at length
    omega
  · rwa [slice, ← List.drop_take, split, List.drop_left]

section Readings
variable {text other : Bytes} {start stop offset : Nat}

theorem SameCode.length_trimEnd_le (same : SameCode text other) (here : CodeAt text offset) :
    (trimEnd Byte.isBlank (other.take offset)).length ≤ (trimEnd Byte.isBlank (text.take offset)).length := by
  obtain ⟨within, blank⟩ := trimEnd_blanks text offset
  have again := same.slice_blanks here blank
  rw [← take_append_slice other within, ← again]
  exact Nat.le_trans (length_trimEnd_append_le blank) (List.length_take_le _ _)

/-- Both texts have as much before the blanks in front of a byte of code. -/
theorem SameCode.length_trimEnd (same : SameCode text other) (here : CodeAt text offset) :
    (trimEnd Byte.isBlank (text.take offset)).length = (trimEnd Byte.isBlank (other.take offset)).length :=
  Nat.le_antisymm (same.symm.length_trimEnd_le (same.codeAt here)) (same.length_trimEnd_le here)

private theorem SameCode.all_newline (same : SameCode text other) (offset : Nat) :
    text[offset]?.all (· == Byte.newline) = other[offset]?.all (· == Byte.newline) := by
  have newline := same.newline offset
  have absent : text[offset]? = none ↔ other[offset]? = none := by
    rw [List.getElem?_eq_none_iff, List.getElem?_eq_none_iff, same.length]
  cases first : text[offset]? with
  | none => rw [absent.mp first]
  | some c =>
    cases second : other[offset]? with
    | none =>
      rw [absent.mpr second] at first
      cases first
    | some d =>
      rw [first, second, Option.some_inj, Option.some_inj] at newline
      rw [Option.all_some, Option.all_some, Bool.eq_iff_iff, beq_iff_eq, beq_iff_eq, newline]

theorem SameCode.startsLine (same : SameCode text other) (here : CodeAt text offset) :
    startsLine text offset = startsLine other offset := by
  have length := same.length_trimEnd here
  rw [startsLine_eq_getLast?, startsLine_eq_getLast?, List.getLast?_eq_getElem?, List.getLast?_eq_getElem?, ← length]
  cases count : (trimEnd Byte.isBlank (text.take offset)).length with
  | zero =>
    rw [List.getElem?_eq_none (by omega), List.getElem?_eq_none (by omega)]
  | succ before =>
    have room := Allman.length_trimEnd_le Byte.isBlank (text.take offset)
    rw [List.length_take] at room
    rw [Nat.add_sub_cancel, getElem?_trimEnd _ _ (by omega), getElem?_trimEnd _ _ (by omega),
      List.getElem?_take_of_lt (by omega), List.getElem?_take_of_lt (by omega)]
    exact same.all_newline before

theorem Seam.advance (seam : Seam text start) (forward : start ≤ stop)
    (spaces : allSpaces (slice text start stop) = true) : Seam text stop := by
  intro region member passage earlier
  by_cases before : region.start < start
  · exact Nat.le_trans (seam region member passage before) forward
  · have space := all_of_slice spaces (Nat.le_of_not_lt before) earlier
    exact absurd (solidAt_start member passage) (not_solidAt space)

private theorem slice_takeWhile (p : UInt8 → Bool) (text : Bytes) (offset : Nat) :
    slice text offset (offset + ((text.drop offset).takeWhile p).length) = (text.drop offset).takeWhile p := by
  rw [slice, Nat.add_sub_cancel_left]
  exact (List.prefix_iff_eq_take.mp (List.takeWhile_prefix p)).symm

theorem dropWhile_drop (p : UInt8 → Bool) (text : Bytes) (offset : Nat) :
    (text.drop offset).dropWhile p = text.drop (offset + ((text.drop offset).takeWhile p).length) := by
  have split : (text.drop offset).takeWhile p ++ (text.drop offset).dropWhile p = text.drop offset :=
    List.takeWhile_append_dropWhile
  have rest := congrArg (List.drop ((text.drop offset).takeWhile p).length) split
  rwa [List.drop_left, List.drop_drop] at rest

private theorem allSpaces_blanks (text : Bytes) (offset : Nat) :
    allSpaces (slice text offset (offset + ((text.drop offset).takeWhile Byte.isBlank).length)) = true := by
  rw [slice_takeWhile]
  exact allSpaces_of_blanks List.all_takeWhile

private theorem SameCode.length_blanks_le (same : SameCode text other) (seam : Seam text offset) :
    ((text.drop offset).takeWhile Byte.isBlank).length ≤ ((other.drop offset).takeWhile Byte.isBlank).length := by
  have blanks := same.slice_spaces seam (allSpaces_blanks text offset)
  have blank : ∀ c ∈ (text.drop offset).takeWhile Byte.isBlank, Byte.isBlank c = true :=
    List.all_eq_true.mp List.all_takeWhile
  rw [slice_takeWhile] at blanks
  rw [← slice_append_drop other (Nat.le_add_right offset _), ← blanks, List.takeWhile_append_of_pos blank,
    List.length_append]
  exact Nat.le_add_right _ _

private theorem SameCode.startsLineBreak_of (same : SameCode text other) (seam : Seam text offset)
    (starts : startsLineBreak (text.drop offset) = true) : startsLineBreak (other.drop offset) = true := by
  simp only [startsLineBreak_iff, BreaksLine, cons_prefix_drop, List.nil_prefix, and_true] at starts ⊢
  rcases starts with single | ⟨first, second⟩
  · exact .inl ((same.newline offset).mp single)
  · have here : slice text offset (offset + 1) = [Byte.carriageReturn] := by
      rw [slice, Nat.add_sub_cancel_left, List.take_one, List.head?_drop, first]
      rfl
    have again := same.slice_spaces seam (show allSpaces (slice text offset (offset + 1)) = true by rw [here]; rfl)
    have kept := getElem?_slice other (show 0 < offset + 1 - offset by omega)
    rw [← again, here] at kept
    exact .inr ⟨kept.symm, (same.newline _).mp second⟩

theorem SameCode.absorbBlanks (same : SameCode text other) (seam : Seam text offset) :
    Outline.absorbBlanks text offset = Outline.absorbBlanks other offset := by
  have length : ((text.drop offset).takeWhile Byte.isBlank).length =
      ((other.drop offset).takeWhile Byte.isBlank).length :=
    Nat.le_antisymm (same.length_blanks_le seam) (same.symm.length_blanks_le (same.seam seam))
  have ahead := seam.advance (Nat.le_add_right _ _) (allSpaces_blanks text offset)
  have broken := Bool.eq_iff_iff.mpr ⟨same.startsLineBreak_of ahead, same.symm.startsLineBreak_of (same.seam ahead)⟩
  have ended : ∀ place, (text.drop place).isEmpty = (other.drop place).isEmpty := by
    intro place
    rw [Bool.eq_iff_iff, List.isEmpty_iff, List.isEmpty_iff, List.drop_eq_nil_iff, List.drop_eq_nil_iff, same.length]
  simp only [Outline.absorbBlanks, dropWhile_drop, ← length, broken, ended]

theorem absorbBlanks_spaces (text : Bytes) (offset : Nat) : offset ≤ Outline.absorbBlanks text offset ∧
    allSpaces (slice text offset (Outline.absorbBlanks text offset)) = true := by
  unfold Outline.absorbBlanks
  dsimp only
  split
  · exact ⟨Nat.le_add_right _ _, allSpaces_blanks text offset⟩
  · exact ⟨Nat.le_refl _, by simp [slice, allSpaces]⟩

private theorem SameCode.hasNewline_of (same : SameCode text other)
    (newline : hasNewline (slice text start stop) = true) : hasNewline (slice other start stop) = true := by
  simp only [hasNewline, List.contains_iff_mem, List.mem_iff_getElem?] at newline ⊢
  obtain ⟨index, found⟩ := newline
  have inside : index < stop - start := by
    have below := (List.getElem?_eq_some_iff.mp found).1
    exact Nat.lt_of_lt_of_le below (length_slice_le text start stop)
  refine ⟨index, ?_⟩
  rw [getElem?_slice _ inside] at found ⊢
  exact (same.newline _).mp found

theorem SameCode.hasNewline_slice (same : SameCode text other) (start stop : Nat) :
    hasNewline (slice text start stop) = hasNewline (slice other start stop) :=
  Bool.eq_iff_iff.mpr ⟨same.hasNewline_of, same.symm.hasNewline_of⟩

private theorem startsAfter_congr (length : text.length = other.length)
    (newline : ∀ offset : Nat, text[offset]? = some Byte.newline ↔ other[offset]? = some Byte.newline) (start : Nat) :
    Lines.startsAfter start text = Lines.startsAfter start other := by
  induction text generalizing other start with
  | nil =>
    obtain rfl : other = [] := List.eq_nil_of_length_eq_zero length.symm
    rfl
  | cons c text ih =>
    cases other with
    | nil => cases length
    | cons d other =>
      have first : c = Byte.newline ↔ d = Byte.newline := by simpa using newline 0
      have rest := ih (Nat.succ.inj length) (fun offset => newline (offset + 1)) (start + 1)
      simp only [Lines.startsAfter, first, rest]

theorem SameCode.position (same : SameCode text other) (offset : Nat) :
    (Lines.ofText text).position offset = (Lines.ofText other).position offset := by
  unfold Lines.position Lines.ofText
  rw [startsAfter_congr same.length same.newline 0, same.length]

end Readings
def Token.recast (text : Bytes) (token : Token) : Token := covering text token.kind token.start token.stop

structure Token.Within (text : Bytes) (region : Region) (token : Token) : Prop where
  code : region.kind = .code
  start : region.start ≤ token.start
  forward : token.start < token.stop
  stop : token.stop ≤ region.stop
  solid : solidAt text token.start = true

/-- What the cursor may find in some regions, and what it leaves of them. -/
structure Cursor.Finds (text : Bytes) (regions : List Region) (step : Token × Cursor) : Prop where
  covers : step.1 = step.1.recast text
  within : step.1.kind ∈ [TokenKind.endOfText, .string, .character, .directive] ∨
    ∃ region ∈ regions, step.1.Within text region
  left : ∀ region ∈ step.2.regions, region ∈ regions

theorem dropWhile_eq_cons {p : UInt8 → Bool} {bytes more : Bytes} {c : UInt8} (split : bytes.dropWhile p = c :: more) :
    bytes[(bytes.takeWhile p).length]? = some c ∧ p c = false ∧
      (bytes.takeWhile p).length + (more.length + 1) = bytes.length := by
  have whole : bytes.takeWhile p ++ bytes.dropWhile p = bytes := List.takeWhile_append_dropWhile
  have stays := List.head?_dropWhile_not p bytes
  rw [split] at whole stays
  refine ⟨?_, stays, ?_⟩
  · have found := congrArg (·[(bytes.takeWhile p).length]?) whole
    simpa using found.symm
  · have length := congrArg List.length whole
    simpa using length

namespace Cursor
variable {text : Bytes} {regions : List Region}

theorem Finds.skip {step : Token × Cursor} {region : Region} (finds : Finds text regions step) :
    Finds text (region :: regions) step where
  covers := finds.covers
  within := by
    apply finds.within.imp_right
    rintro ⟨region, member, within⟩
    exact ⟨region, List.mem_cons_of_mem _ member, within⟩
  left := fun region member => List.mem_cons_of_mem _ (finds.left region member)

private theorem readDirective_finds (text : Bytes) (start : Nat) (regions : List Region) (offset stop : Nat) :
    Finds text regions (readDirective text start regions offset stop) := by
  induction regions generalizing offset stop with
  | nil => exact ⟨rfl, .inl (by simp [readDirective, Token.covering]), fun region member => member⟩
  | cons region rest ih =>
    unfold readDirective
    split
    · exact (ih _ _).skip
    · dsimp only
      split
      · exact ⟨rfl, .inl (by simp [Token.covering]), fun region member => member⟩
      · exact (ih _ _).skip

theorem nextFrom_finds (text : Bytes) (regions : List Region) (offset : Nat) :
    Finds text regions (nextFrom text regions offset) := by
  induction regions generalizing offset with
  | nil => exact ⟨rfl, .inl (by simp [nextFrom, Token.covering]), fun region member => member⟩
  | cons region rest ih =>
    rw [nextFrom]
    split
    · exact (ih _).skip
    next unfinished =>
      split
      next => exact ⟨rfl, .inl (by simp [Token.covering]), fun _ member => List.mem_cons_of_mem _ member⟩
      next => exact ⟨rfl, .inl (by simp [Token.covering]), fun _ member => List.mem_cons_of_mem _ member⟩
      next => exact (ih _).skip
      next => exact (ih _).skip
      next code =>
        dsimp only
        split
        · exact (ih _).skip
        next c more split =>
          split
          · exact readDirective_finds ..
          · refine ⟨rfl, .inr ⟨region, by simp, ?_⟩, fun region member => member⟩
            obtain ⟨found, solid, length⟩ := dropWhile_eq_cons split
            have room := length_slice_le text (max offset region.start) region.stop
            have positive := readToken_pos c more
            have short := readToken_le c more
            rw [getElem?_slice text (by omega)] at found
            refine ⟨code, ?_, ?_, ?_, solidAt_of_getElem? found solid⟩
            · exact Nat.le_trans (Nat.le_max_right _ _) (Nat.le_add_right _ _)
            · exact Nat.lt_add_of_pos_right positive
            · simp only [Token.covering]
              omega

end Cursor
section Tokens
variable {text other : Bytes} {region : Region} {regions : List Region} {token : Token}

theorem SameCode.slice_code (same : SameCode text other) (member : region ∈ classify text) (code : region.kind = .code)
    {start stop : Nat} (after : region.start ≤ start) (before : stop ≤ region.stop) :
    slice text start stop = slice other start stop := by
  apply slice_congr
  intro offset past inside
  exact same.code region member code offset (Nat.le_trans after past) (Nat.lt_of_lt_of_le inside before)

theorem SameCode.directiveEnd (same : SameCode text other) (member : region ∈ classify text)
    (code : region.kind = .code) {here : Nat} (after : region.start ≤ here) (stop : Nat) :
    directiveEnd (slice text region.start here).reverse here stop (slice text here region.stop) =
      directiveEnd (slice other region.start here).reverse here stop (slice other here region.stop) := by
  by_cases inside : here ≤ region.stop
  · rw [same.slice_code member code (Nat.le_refl _) inside, same.slice_code member code after (Nat.le_refl _)]
  · have ended : ∀ bytes, slice bytes here region.stop = [] := by
      intro bytes
      rw [slice, Nat.sub_eq_zero_of_le (by omega), List.take_zero]
    rw [ended, ended, Allman.directiveEnd, Allman.directiveEnd]

theorem SameCode.readDirective (same : SameCode text other) (known : ∀ region ∈ regions, region ∈ classify text)
    (start offset stop : Nat) : Cursor.readDirective other start regions offset stop =
      ((Cursor.readDirective text start regions offset stop).1.recast other,
        (Cursor.readDirective text start regions offset stop).2) := by
  induction regions generalizing offset stop with
  | nil => rfl
  | cons region rest ih =>
    have member := known region (by simp)
    have later := ih fun region member => known region (by simp [member])
    rw [Cursor.readDirective, Cursor.readDirective]
    split
    · exact later _ _
    next code =>
      rw [Decidable.not_not] at code
      simp only [same.directiveEnd member code (Nat.le_max_right offset region.start) stop]
      split
      · rfl
      · exact later _ _

/-- The cursor finds the same stretch in both texts. -/
theorem SameCode.nextFrom (same : SameCode text other) (known : ∀ region ∈ regions, region ∈ classify text)
    (offset : Nat) : Cursor.nextFrom other regions offset =
      ((Cursor.nextFrom text regions offset).1.recast other, (Cursor.nextFrom text regions offset).2) := by
  induction regions generalizing offset with
  | nil =>
    rw [Cursor.nextFrom, Cursor.nextFrom, same.length]
    rfl
  | cons region rest ih =>
    have member := known region (by simp)
    have later := ih fun region member => known region (by simp [member])
    rw [Cursor.nextFrom, Cursor.nextFrom]
    split
    · exact later _
    next unfinished =>
      split
      next => rfl
      next => rfl
      next => exact later _
      next => exact later _
      next code =>
        have here := same.slice_code member code (Nat.le_max_right offset region.start) (Nat.le_refl region.stop)
        simp only [← here]
        split
        next => exact later _
        next c more split =>
          obtain ⟨found, solid, length⟩ := dropWhile_eq_cons split
          have room := length_slice_le text (max offset region.start) region.stop
          rw [getElem?_slice text (by omega)] at found
          have standing : CodeAt text (max offset region.start +
              ((slice text (max offset region.start) region.stop).takeWhile Byte.isSpace).length) :=
            ⟨solidAt_of_getElem? found solid, region, member, code, by omega, by omega⟩
          rw [same.startsLine standing]
          split
          next => exact same.readDirective known ..
          next => rfl

private theorem scanFrom_eq (text : Bytes) (cursor : Cursor) : Token.scanFrom text cursor =
    if (cursor.next text).1.kind = .endOfText then []
    else (cursor.next text).1 :: Token.scanFrom text (cursor.next text).2 := by
  rw [Token.scanFrom]
  split <;> simp_all

theorem SameCode.scanFrom (same : SameCode text other) (cursor : Cursor)
    (known : ∀ region ∈ cursor.regions, region ∈ classify text) :
    Token.scanFrom other cursor = (Token.scanFrom text cursor).map (Token.recast other) := by
  induction budget : cursor.budget using Nat.strongRecOn generalizing cursor with
  | ind budget ih =>
  subst budget
  have step : cursor.next other = ((cursor.next text).1.recast other, (cursor.next text).2) :=
    same.nextFrom known cursor.offset
  have finds : Cursor.Finds text cursor.regions (cursor.next text) := Cursor.nextFrom_finds ..
  have kind : (cursor.next other).1.kind = (cursor.next text).1.kind := by rw [step]; rfl
  rw [scanFrom_eq other, scanFrom_eq text, kind]
  split
  next => rfl
  next more =>
    rw [step, ih _ (Cursor.budget_next_lt text cursor more) (cursor.next text).2
      (fun region member => known region (finds.left region member)) rfl]
    rfl

/-- Both texts have tokens of the same kinds at the same places. -/
theorem SameCode.scan (same : SameCode text other) :
    Token.scan other (classify other) = (Token.scan text (classify text)).map (Token.recast other) := by
  rw [← same.regions]
  exact same.scanFrom ⟨classify text, 0⟩ fun region member => member

theorem scanFrom_within (cursor : Cursor) (known : ∀ region ∈ cursor.regions, region ∈ classify text)
    (member : token ∈ Token.scanFrom text cursor) : token = token.recast text ∧
      (token.kind ∈ [TokenKind.string, .character, .directive] ∨
        ∃ region ∈ classify text, token.Within text region) := by
  induction budget : cursor.budget using Nat.strongRecOn generalizing cursor with
  | ind budget ih =>
  subst budget
  have finds : Cursor.Finds text cursor.regions (cursor.next text) := Cursor.nextFrom_finds ..
  rw [scanFrom_eq] at member
  split at member
  next => cases member
  next more =>
    rcases List.mem_cons.mp member with rfl | member
    · refine ⟨finds.covers, ?_⟩
      rcases finds.within with kind | ⟨region, member, within⟩
      · exact .inl ((List.mem_cons.mp kind).resolve_left more)
      · exact .inr ⟨region, known region member, within⟩
    · exact ih _ (Cursor.budget_next_lt text cursor more) (cursor.next text).2
        (fun region member => known region (finds.left region member)) member rfl

end Tokens
end Allman
