import Allman.Proofs.Retouching

/-! Fixing keeps the meaning of a text. Every gap that a fix touches changes in a way
that no token and no comment can notice, so the fixed text, read again from the
start, has the same tokens and the same literals and comments in the same order. -/

namespace Allman
open Region

/-- The kind of the token before the one at `index`, where `previous` stands before them all. -/
def kindBefore (previous : Option TokenKind) (items : List Item) : Nat → Option TokenKind
  | 0 => previous
  | index + 1 => items[index]?.map Item.kind

theorem Respaced.of_regap {previous : Option TokenKind} {items : List Item} {last last' : Bytes}
    {change : Nat → Bytes → Bytes}
    (regap : ∀ index item, items[index]? = some item →
      Regap (kindBefore previous items index) item.bytes item.gap (change index item.gap))
    (ending : last' = last ∨ kindBefore previous items items.length = some .leftBrace ∧
      ∃ blanks, last = blanks ++ last' ∧ blanks.all Byte.isBlank = true ∧ (last' = [] ∨ startsLineBreak last' = true)) :
    Respaced previous items last (items.mapIdx fun index item => { item with gap := change index item.gap }) last' := by
  induction items generalizing previous change with
  | nil =>
    rcases ending with rfl | ⟨brace, blanks, rfl, blank, ends⟩
    · exact .nil
    · cases brace
      exact .trail blank ends
  | cons item items ih =>
    have shift : ∀ index,
        kindBefore (some item.kind) items index = kindBefore previous (item :: items) (index + 1) := by
      intro index
      cases index <;> rfl
    rw [List.mapIdx_cons]
    refine .cons (regap 0 item rfl) (ih (fun index other found => ?_) ?_)
    · rw [shift]
      exact regap (index + 1) other found
    · rwa [shift]

/-- What may stand behind the stars of a declarator makes no other token of a star,
and is no directive. -/
theorem Stands.head_of_endsStars {line : Bool} {kind : TokenKind} {bytes after : Bytes}
    (stands : Stands line kind bytes after) (ends : Outline.endsStars kind = true) :
    bytes.head? ≠ some Byte.equals ∧ bytes.head? ≠ some Byte.hash := by
  have punctuator : ∀ entry ∈ punctuators, Outline.endsStars entry.2 = true →
      entry.1.head? ≠ some Byte.equals ∧ entry.1.head? ≠ some Byte.hash := by decide
  by_cases name : kind = .identifier
  · subst name
    cases stands with
    | plain _ _ _ spells =>
      have start := spells.identifier
      constructor
      all_goals
        intro head
        rw [head] at start
        revert start
        decide
  · refine punctuator _ (stands.mem fun listed => ?_) ends
    revert listed ends
    cases kind <;> simp [Outline.endsStars] at *

section Gaps
variable {items : List Item} {last : Bytes} {index : Nat} {item : Item} {violation : Violation} {chosen : Rule → Bool}

theorem MisplacedBrace.regap (brace : MisplacedBrace items last index violation) (reads : Reads true items last)
    (previous : Option TokenKind) (found : items[index]? = some item) :
    Regap previous item.bytes item.gap (trimEnd Byte.isBlank item.gap ++ violation.suggested.dropLast) := by
  obtain rfl := Option.some.inj ((brace.item reads).symm.trans found)
  obtain ⟨old, split, blank⟩ := exists_trimEnd Byte.isBlank (gapAt items last index)
  obtain ⟨spaces, suggested, blank', newline⟩ := brace.suggested
  have inLine := brace.inLine
  rw [suggested, List.dropLast_concat]
  simp only
  generalize trimEnd Byte.isBlank (gapAt items last index) = kept at split ⊢
  rw [split] at inLine ⊢
  refine .spread inLine (allSpaces_of_blanks blank) blank' (by decide) fun empty => ?_
  rw [(List.append_eq_nil_iff.mp empty).2] at newline
  cases newline

/-- The gap behind a brace loses what ends the line, and nothing if more of the line follows. -/
theorem Reads.drop_absorbed (reads : Reads true items last) (index : Nat) :
    (gapAt items last index).drop ((outlineOf items last).absorbed chosen index) = gapAt items last index ∨
      kindBefore none items index = some .leftBrace ∧ ∃ blanks rest, gapAt items last index = blanks ++ rest ∧
        (gapAt items last index).drop ((outlineOf items last).absorbed chosen index) = rest ∧
        blanks.all Byte.isBlank = true ∧ (startsLineBreak rest = true ∨ rest = [] ∧ index = items.length) := by
  cases moved : (outlineOf items last).movedBrace? chosen (index - 1) with
  | none =>
    refine .inl ?_
    rw [Outline.absorbed, moved]
    rfl
  | some violation =>
    have brace := reads.movedBrace?_some moved
    obtain ⟨before, -, same, -⟩ := brace.previous
    obtain ⟨index, rfl⟩ : ∃ before, index = before + 1 := ⟨index - 1, by omega⟩
    rw [Nat.add_sub_cancel] at brace moved
    obtain ⟨blanks, rest, split, blank, stop, reason⟩ := brace.stop
    have taken : (outlineOf items last).absorbed chosen (index + 1) = blanks.length := by
      have whole := reads.absorbed_succ moved
      omega
    rw [taken]
    rcases reason with rfl | reason
    · exact .inl rfl
    · refine .inr ⟨?_, blanks, rest, split, by rw [split, List.drop_left], blank, reason⟩
      rw [kindBefore, brace.item reads]
      rfl

/-- No token of a declarator's stars, nor the one behind them, joins the star before it or is a directive. -/
theorem PointerStars.heads {first count : Nat} (stars : PointerStars items last first count)
    (reads : Reads true items last) (after : first ≤ index) (before : index ≤ first + count + 1)
    (found : items[index]? = some item) :
    item.bytes.head? ≠ some Byte.equals ∧ item.bytes.head? ≠ some Byte.hash := by
  rcases Nat.eq_or_lt_of_le before with rfl | within
  · obtain ⟨next, found', ends⟩ := stars.next
    obtain rfl := Option.some.inj (found'.symm.trans found)
    exact (reads.at found).2.head_of_endsStars ends
  · obtain rfl := Option.some.inj ((stars.run.item reads after (Nat.le_of_lt_succ within)).symm.trans found)
    have star : [Byte.star].head? ≠ some Byte.equals ∧ [Byte.star].head? ≠ some Byte.hash := by decide
    exact star

/-- A token stands before the gap of misplaced stars; if it is joined to the next one, it ends anyway. -/
theorem MisplacedStars.regap {first count : Nat} (stars : MisplacedStars items last first count violation)
    (reads : Reads true items last) (allowed : chosen violation.rule = true) (after : first ≤ index)
    (before : index ≤ first + count + 1) (found : items[index]? = some item) :
    Regap (kindBefore none items index) item.bytes item.gap
      ((outlineOf items last).retouch chosen index item.gap) := by
  have heads := stars.toPointerStars.heads reads after before found
  have blank := stars.allSpaces_gap reads after before
  rw [gapAt_eq found] at blank
  rw [stars.retouch_eq reads allowed after before]
  split
  · exact .same
  next inLine =>
    rw [Bool.not_eq_true] at inLine
    split
    next closes =>
      refine @Regap.spread _ _ [] item.gap [] inLine blank rfl heads.2 fun _ => ?_
      obtain ⟨previous, -, rfl, -⟩ := stars.previous
      obtain ⟨index, rfl⟩ : ∃ before, index = before + 1 := ⟨index - 1, by omega⟩
      rw [Nat.add_sub_cancel, Bool.or_eq_true, reads.is_iff, reads.is_iff] at closes
      rcases closes with ⟨star, found', kind⟩ | ⟨parenthesis, found', kind⟩
      · exact ⟨.star, by rw [kindBefore, found', Option.map_some, kind], .star heads.1⟩
      · exact ⟨.leftParen, by rw [kindBefore, found', Option.map_some, kind], .parenthesis⟩
    next => exact @Regap.spread _ _ [] item.gap [Byte.space] inLine blank (by decide) heads.2 (absurd · (by decide))

theorem Reads.regap (reads : Reads true items last) (found : items[index]? = some item) :
    Regap (kindBefore none items index) item.bytes item.gap
      ((outlineOf items last).retouch chosen index item.gap) := by
  cases moved : (outlineOf items last).movedBrace? chosen index with
  | some violation =>
    rw [Outline.retouch, moved]
    exact (reads.movedBrace?_some moved).regap reads _ found
  | none =>
    cases moves : (outlineOf items last).movesStars chosen index with
    | true =>
      obtain ⟨first, count, violation, stars, allowed, after, before⟩ := reads.movesStars_iff.mp moves
      exact stars.regap reads allowed after before found
    | false =>
      simp only [Outline.retouch, moved, moves, Bool.false_and, Bool.false_eq_true, if_false]
      have gap := @gapAt_eq items last index item found
      have below := (List.getElem?_eq_some_iff.mp found).1
      rcases @reads.drop_absorbed _ _ chosen index with same | ⟨brace, blanks, rest, split, dropped, blank, reason⟩
      · rw [gap] at same
        rw [same]
        exact .same
      · rw [gap] at split dropped
        rw [dropped, split]
        rcases reason with starts | ⟨-, ended⟩
        · exact .trail brace blank starts
        · omega

/-- A retouched layout is the layout with some of its gaps changed. -/
theorem Reads.respaced (reads : Reads true items last) (chosen : Rule → Bool) :
    Respaced none items last (retouchedItems chosen items last) (retouchedLast chosen items last) := by
  refine .of_regap (fun index item found => reads.regap found) ?_
  have gap : gapAt items last items.length = last := by
    rw [gapAt, List.getElem?_eq_none (Nat.le_refl _)]
    rfl
  have ending := @reads.drop_absorbed _ _ chosen items.length
  rw [gap] at ending
  rw [reads.retouchedLast_eq]
  rcases ending with same | ⟨brace, blanks, rest, split, dropped, blank, reason⟩
  · exact .inl same
  · rw [dropped]
    exact .inr ⟨brace, blanks, split, blank, (reason.imp_right And.left).symm⟩

end Gaps

theorem fix_text {items : List Item} {last : Bytes} (reads : Reads true items last) :
    (fix (woven items last)).text =
      woven (retouchedItems (fun _ => true) items last) (retouchedLast (fun _ => true) items last) := by
  rw [← reads.applyEdits_eq, ← reads.scan_violations]
  rfl

def Item.word (item : Item) : TokenKind × Bytes := (item.kind, item.bytes)

theorem words_placed (items : List Item) (offset : Nat) :
    (placed offset items).map Token.word = items.map Item.word := by
  induction items generalizing offset with
  | nil => rfl
  | cons item items ih =>
    simp only [placed, List.map_cons, ih]
    rfl

private theorem words_retouchedItems (chosen : Rule → Bool) (items : List Item) (last : Bytes) :
    (retouchedItems chosen items last).map Item.word = items.map Item.word := by
  refine List.ext_getElem? fun index => ?_
  simp only [retouchedItems, List.getElem?_map, List.getElem?_mapIdx, Option.map_map]
  rfl

theorem Reads.scan_retouched {items : List Item} {last : Bytes} (reads : Reads true items last) (chosen : Rule → Bool) :
    let text := woven items last
    let fixed := woven (retouchedItems chosen items last) (retouchedLast chosen items last)
    (Token.scan fixed (classify fixed)).map Token.word = (Token.scan text (classify text)).map Token.word := by
  intro text fixed
  rw [reads.scan_eq, ((reads.respaced chosen).reads reads).1.scan_eq, words_placed, words_placed, words_retouchedItems]

def solidBytes (text : Bytes) : Bytes := text.filter fun c => !Byte.isSpace c

private theorem solidBytes_append (first second : Bytes) :
    solidBytes (first ++ second) = solidBytes first ++ solidBytes second :=
  List.filter_append ..

private theorem solidBytes_spaces {spaces : Bytes} (blank : allSpaces spaces = true) : solidBytes spaces = [] := by
  refine List.filter_eq_nil_iff.mpr fun c member => ?_
  simp [List.all_eq_true.mp blank c member]

theorem Regap.solidBytes_eq {previous : Option TokenKind} {next gap gap' : Bytes}
    (regap : Regap previous next gap gap') :
    solidBytes gap' = solidBytes gap := by
  cases regap with
  | same => rfl
  | spread _ blank blank' =>
    rw [solidBytes_append, solidBytes_append, solidBytes_spaces blank, solidBytes_spaces blank']
  | trail _ blank => rw [solidBytes_append, solidBytes_spaces (allSpaces_of_blanks blank), List.nil_append]

theorem Respaced.solidBytes_eq {previous : Option TokenKind} {items items' : List Item} {last last' : Bytes}
    (respaced : Respaced previous items last items' last') :
    solidBytes (woven items' last') = solidBytes (woven items last) := by
  induction respaced with
  | nil => rfl
  | trail blank => rw [woven, woven, solidBytes_append, solidBytes_spaces (allSpaces_of_blanks blank), List.nil_append]
  | cons regap _ ih => simp only [woven, solidBytes_append, regap.solidBytes_eq, ih]

/-- Fixing a text changes spaces between its tokens and nothing else: the tokens of
the fixed text are the same words in the same order, its literals and comments are
the same, and so is every byte that is no space. -/
theorem fix_keeps_tokens (text : Bytes) :
    let fixed := (fix text).text
    (Token.scan fixed (classify fixed)).map Token.word = (Token.scan text (classify text)).map Token.word ∧
    nonCode fixed = nonCode text ∧
    solidBytes fixed = solidBytes text := by
  obtain ⟨items, last, rfl, reads⟩ := exists_reads true text
  have respaced := reads.respaced fun _ => true
  rw [fix_text reads]
  refine ⟨reads.scan_retouched _, ?_, respaced.solidBytes_eq⟩
  rw [nonCode_eq_passages, nonCode_eq_passages]
  exact (respaced.reads reads).2.symm

end Allman
