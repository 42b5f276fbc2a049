import Allman.Proofs.Layout

/-! Changing the gaps of a layout. A gap inside a line may get other spaces at its
end, and the blanks behind an opening brace may go where its line ends. Under such
changes every token stands as before and every literal and comment is kept, since
none of them looks further than the first bytes behind it. -/

namespace Allman
open Region

abbrev Byte.equals : UInt8 := 0x3d

theorem hasNewline_append (first second : Bytes) :
    hasNewline (first ++ second) = (hasNewline first || hasNewline second) := by
  simp [hasNewline, Bool.decide_or]

theorem startsLineBreak_solid {c : UInt8} (solid : Byte.isSpace c = false) (tail : Bytes) :
    startsLineBreak (c :: tail) = false := by
  simp only [Byte.isSpace, Bool.or_eq_false_iff, beq_eq_false_iff_ne] at solid
  cases tail <;> simp [startsLineBreak, startsCrLf, solid.2, solid.1.2]

theorem startsLineBreak_gap {gap : Bytes} {c : UInt8} (inLine : hasNewline gap = false)
    (solid : Byte.isSpace c = false) (tail : Bytes) : startsLineBreak (gap ++ c :: tail) = false := by
  refine Bool.eq_false_iff.mpr fun starts => ?_
  have inside := hasNewline_of_startsLineBreak (startsLineBreak_of_append starts (startsLineBreak_solid solid tail))
  rw [inLine] at inside
  cases inside

theorem Gap.startsAnew {after gap : Bytes} {c : UInt8} (isGap : Gap after (c :: gap)) :
    Byte.startsAnew c = true := by
  generalize whole : c :: gap = bytes at isGap
  cases isGap with
  | nil => cases whole
  | space space =>
    cases whole
    exact startsAnew_of_isSpace space
  | @comment kind bytes rest comment opens =>
    match bytes, opens with
    | d :: bytes, opens =>
      obtain rfl : c = d := (List.cons.inj whole).1
      cases anew : Byte.startsAnew c with
      | true => rfl
      | false =>
        have code := opens.eq_code (StartsCode.of_goesOn anew _)
        rcases comment with rfl | rfl <;> cases code

private theorem Gap.of_spaces {after spaces : Bytes} (blank : allSpaces spaces = true) : Gap after spaces := by
  induction spaces with
  | nil => exact .nil
  | cons c spaces ih =>
    obtain ⟨space, blank⟩ : Byte.isSpace c = true ∧ allSpaces spaces = true := by simpa [allSpaces] using blank
    exact .space space (ih blank)

theorem Gap.append {after first second : Bytes} (isGap : Gap (second ++ after) first) (more : Gap after second) :
    Gap after (first ++ second) := by
  induction isGap with
  | nil => exact more
  | space space _ ih => exact .space space ih
  | comment comment opens _ ih =>
    rw [List.append_assoc]
    refine .comment comment ?_ ih
    rwa [List.append_assoc]

/-- What ends a comment in front of a token lies in the gap, so that the comment
ends there whatever follows. -/
theorem Region.Opens.retarget {kind : RegionKind} {bytes gap after : Bytes} (opens : Opens kind bytes (gap ++ after))
    (passage : kind ≠ .code) (more : after ≠ []) (ahead : startsLineBreak after = false) (other : Bytes) :
    Opens kind bytes (gap ++ other) := by
  rcases opens.ending passage with finished | ⟨any, -⟩ | ⟨starts, same⟩
  · exact absurd (List.append_eq_nil_iff.mp finished).2 more
  · exact any _
  · have inside := startsLineBreak_of_append starts ahead
    have nonempty : gap ≠ [] := by rintro rfl; cases inside
    refine same _ ⟨starts, startsLineBreak_append inside other, ?_⟩
    exact head?_append_congr gap (.inl nonempty)

/-- A gap in front of a token is a gap in front of anything, and holds the same comments there. -/
theorem Gap.retarget {after gap : Bytes} (isGap : Gap after gap) (more : after ≠ [])
    (ahead : startsLineBreak after = false) (other : Bytes) :
    Gap other gap ∧ (passages after = passages other → passages (gap ++ after) = passages (gap ++ other)) := by
  induction isGap with
  | nil => exact ⟨.nil, id⟩
  | space space _ ih =>
    refine ⟨.space space ih.1, fun same => ?_⟩
    rw [List.cons_append, List.cons_append, passages_code (.of_isSpace space _), passages_code (.of_isSpace space _)]
    exact ih.2 same
  | @comment kind bytes gap comment opens _ ih =>
    have passage : kind ≠ .code := by rcases comment with rfl | rfl <;> decide
    have again := opens.retarget passage more ahead other
    refine ⟨.comment comment again ih.1, fun same => ?_⟩
    rw [List.append_assoc, List.append_assoc, opens.passages_eq passage, again.passages_eq passage, ih.2 same]

/-- The spaces at the end of a gap inside a line lie behind its comments. -/
theorem Gap.trim {after gap kept old : Bytes} (isGap : Gap after gap) (split : gap = kept ++ old)
    (blank : allSpaces old = true) (inLine : hasNewline gap = false) (more : after ≠ [])
    (ahead : startsLineBreak after = false) : Gap (old ++ after) kept := by
  induction isGap generalizing kept with
  | nil =>
    obtain ⟨rfl, -⟩ := List.append_eq_nil_iff.mp split.symm
    exact .nil
  | @space c gap space _ ih =>
    cases kept with
    | nil => exact .nil
    | cons d kept =>
      obtain ⟨rfl, behind⟩ := List.cons.inj split
      have inLine : hasNewline gap = false := by
        rw [← List.singleton_append, hasNewline_append, Bool.or_eq_false_iff] at inLine
        exact inLine.2
      exact .space space (ih behind inLine)
  | @comment kind bytes gap comment opens _ ih =>
    have passage : kind ≠ .code := by rcases comment with rfl | rfl <;> decide
    rw [hasNewline_append, Bool.or_eq_false_iff] at inLine
    rcases List.append_eq_append_iff.mp split with ⟨inner, rfl, rest⟩ | ⟨inner, rfl, rest⟩
    · refine .comment comment ?_ (ih rest inLine.2)
      rw [← List.append_assoc, ← rest]
      exact opens
    · -- The comment is closed inside the line, so its last byte is no space and lies in `kept`.
      rcases opens.ending passage with finished | ⟨any, d, closing, solid⟩ | ⟨starts, -⟩
      · exact absurd (List.append_eq_nil_iff.mp finished).2 more
      · rcases List.eq_nil_or_concat inner with rfl | ⟨inner, e, rfl⟩
        · have alone : Gap (old ++ after) (kept ++ []) := .comment comment (by simpa using any _) .nil
          simpa using alone
        · rw [List.concat_eq_append, ← List.append_assoc, List.getLast?_concat, Option.some_inj] at closing
          subst closing
          have space : Byte.isSpace e = true := by
            rw [allSpaces, rest] at blank
            exact List.all_eq_true.mp blank e (by simp)
          rw [solid] at space
          cases space
      · have inside := hasNewline_of_startsLineBreak (startsLineBreak_of_append starts ahead)
        rw [inLine.2] at inside
        cases inside

theorem Region.StartsCode.congr {c : UInt8} {rest other : Bytes} (code : StartsCode (c :: rest))
    (same : rest.head? = other.head?) : StartsCode (c :: other) := by
  refine ⟨code.1, ?_⟩
  have plain := code.2
  cases rest <;> cases other <;> simp_all [opensComment?]

private theorem startsLineBreak_newline (front after other : Bytes) :
    startsLineBreak (front ++ Byte.newline :: after) = startsLineBreak (front ++ Byte.newline :: other) := by
  match front with
  | [] => rfl
  | [_] => rfl
  | _ :: _ :: _ => rfl

private theorem head?_newline (front after other : Bytes) :
    (front ++ Byte.newline :: after).head? = (front ++ Byte.newline :: other).head? := by
  cases front <;> rfl

theorem Directive.ends {before body spaces after : Bytes} (directive : Directive before body spaces after) :
    after = [] ∨ ∃ rest, after = Byte.newline :: rest := by
  induction directive with
  | text => exact .inl rfl
  | line => exact .inr ⟨_, rfl⟩
  | space _ _ _ ih => exact ih
  | code _ _ _ _ ih => exact ih
  | passage _ _ _ ih => exact ih

theorem Directive.newline_before {before body spaces after gap tail : Bytes} {c : UInt8}
    (directive : Directive before body spaces after) (solid : Byte.isSpace c = false)
    (same : spaces ++ after = gap ++ c :: tail) :
    ∃ inner, gap = spaces ++ Byte.newline :: inner ∧ after = Byte.newline :: (inner ++ c :: tail) := by
  obtain ⟨inner, rfl, rfl⟩ := exists_gap_of_spaces directive.allSpaces_spaces solid same
  rcases directive.ends with finished | ⟨rest, newline⟩
  · simp at finished
  · cases inner with
    | nil =>
      obtain rfl : c = Byte.newline := (List.cons.inj newline).1
      cases solid
    | cons d inner =>
      obtain rfl : d = Byte.newline := (List.cons.inj newline).1
      exact ⟨inner, rfl, rfl⟩

/-- The newline that ends a directive is all it sees of what follows. -/
theorem Directive.relocate {before body spaces after : Bytes}
    (directive : Directive before body spaces (Byte.newline :: after)) (other : Bytes) :
    Directive before body spaces (Byte.newline :: other) ∧
    (passages after = passages other → passages (body ++ (spaces ++ Byte.newline :: after)) =
      passages (body ++ (spaces ++ Byte.newline :: other))) := by
  have newline (rest : Bytes) : passages (Byte.newline :: rest) = passages rest :=
    passages_code (.of_isSpace (by decide) rest)
  generalize whole : Byte.newline :: after = ending at directive
  induction directive with
  | text => cases whole
  | line visible =>
    cases whole
    refine ⟨.line visible, fun same => ?_⟩
    simp only [List.nil_append, newline, same]
  | space space hidden _ ih =>
    obtain ⟨rest, kept⟩ := ih whole
    subst whole
    refine ⟨.space space hidden rest, fun same => ?_⟩
    rw [List.nil_append, List.nil_append, List.cons_append, List.cons_append, passages_code (.of_isSpace space _),
      passages_code (.of_isSpace space _)]
    exact kept same
  | @code before body spaces ending c code hidden solid _ ih =>
    obtain ⟨rest, kept⟩ := ih whole
    subst whole
    have again : StartsCode (c :: (body ++ spaces ++ Byte.newline :: other)) := code.congr (head?_newline _ _ _)
    refine ⟨.code again hidden solid rest, fun same => ?_⟩
    rw [List.append_assoc] at code again
    rw [List.cons_append, List.cons_append, passages_code code, passages_code again]
    exact kept same
  | @passage before bytes body spaces ending kind passage opens _ ih =>
    obtain ⟨rest, kept⟩ := ih whole
    subst whole
    have again : Opens kind bytes (body ++ spaces ++ Byte.newline :: other) := by
      rcases opens.ending passage with finished | ⟨any, -⟩ | ⟨starts, same⟩
      · simp at finished
      · exact any _
      · exact same _ ⟨starts, (startsLineBreak_newline _ _ _).symm.trans starts, head?_newline _ _ _⟩
    refine ⟨.passage passage again rest, fun same => ?_⟩
    rw [List.append_assoc] at opens again
    rw [List.append_assoc, List.append_assoc, opens.passages_eq passage, again.passages_eq passage, kept same]

/-- The token stands before `other` as well, and the literals and comments from it
on are the same if those behind it are. -/
def Stands.Moves (line : Bool) (kind : TokenKind) (bytes after other : Bytes) : Prop :=
  Stands line kind bytes other ∧
  (passages after = passages other → passages (bytes ++ after) = passages (bytes ++ other))

section Moves
variable {line : Bool} {kind : TokenKind} {bytes after other : Bytes}

theorem Region.Opens.moves {region : RegionKind} (opens : Opens region bytes after) (again : Opens region bytes other)
    (passage : region ≠ .code) (stands : Stands line kind bytes other) : Stands.Moves line kind bytes after other := by
  refine ⟨stands, fun same => ?_⟩
  rw [opens.passages_eq passage, again.passages_eq passage, same]

theorem Stands.Moves.plain {c : UInt8} {rest : Bytes} (solid : Byte.isSpace c = false)
    (noDirective : c = Byte.hash → line = false) (code : StartsCode (c :: (rest ++ after)))
    (again : StartsCode (c :: (rest ++ other))) (spells : Spells kind (c :: rest) other) :
    Stands.Moves line kind (c :: rest) after other := by
  refine ⟨.plain solid again noDirective spells, fun same => ?_⟩
  rw [List.cons_append, List.cons_append, passages_code code, passages_code again,
    passages_append_goesOn spells.goesOn, passages_append_goesOn spells.goesOn, same]

/-- A change that starts behind the gap after a token leaves the token alone. -/
theorem Stands.keep {gap tail tail' : Bytes} {c : UInt8} (stands : Stands line kind bytes (gap ++ c :: tail))
    (solid : Byte.isSpace c = false) (alike : Alike 2 (gap ++ c :: tail) (gap ++ c :: tail')) :
    Stands.Moves line kind bytes (gap ++ c :: tail) (gap ++ c :: tail') := by
  have head : (gap ++ c :: tail).head? = (gap ++ c :: tail').head? := head?_append_congr gap (.inr rfl)
  have ahead := startsLineBreak_solid solid tail
  generalize whole : gap ++ c :: tail = after at stands
  cases stands with
  | string opens =>
    subst whole
    have again := opens.retarget (by decide) (by simp) ahead (c :: tail')
    exact opens.moves again (by decide) (.string again)
  | character opens =>
    subst whole
    have again := opens.retarget (by decide) (by simp) ahead (c :: tail')
    exact opens.moves again (by decide) (.character again)
  | @directive body spaces ending first directive =>
    obtain ⟨inner, rfl, rfl⟩ := directive.newline_before solid whole.symm
    obtain ⟨again, kept⟩ := directive.relocate (inner ++ c :: tail')
    simp only [List.append_assoc, List.cons_append, Stands.Moves]
    refine ⟨.directive first again, fun same => ?_⟩
    have behind : ∀ rest, passages (spaces ++ Byte.newline :: rest) = passages rest := fun rest => by
      rw [passages_append_spaces directive.allSpaces_spaces, passages_code (.of_isSpace (by decide) rest)]
    have hash : ∀ rest, passages (Byte.hash :: rest) = passages rest := fun rest =>
      passages_code (.of_goesOn (by decide) rest)
    rw [behind, behind] at same
    rw [hash, hash, kept same]
  | @plain _ d rest after solid code noDirective spells =>
    subst whole
    exact .plain solid noDirective code (code.congr (head?_append_congr rest (.inr head))) (spells.alike alike)

/-- In front of a token in the same line, another gap does as well if it starts
with the same byte or with a space. -/
theorem Stands.spread {gap gap' tail tail' : Bytes} {c : UInt8} (stands : Stands line kind bytes (gap ++ c :: tail))
    (solid : Byte.isSpace c = false) (inLine : hasNewline gap = false)
    (apart : ∃ d rest, gap' = d :: rest ∧ Byte.startsAnew d = true ∧ (Byte.isSpace d = true ∨ gap.head? = some d)) :
    Stands.Moves line kind bytes (gap ++ c :: tail) (gap' ++ c :: tail') := by
  obtain ⟨d, gap', rfl, anew, starts⟩ := apart
  have ahead := startsLineBreak_gap inLine solid tail
  have reopens : ∀ {region}, region ≠ RegionKind.code → Opens region bytes (gap ++ c :: tail) →
      Opens region bytes (d :: gap' ++ c :: tail') := by
    intro region passage opens
    exact @Opens.retarget region bytes [] _ opens passage (by simp) ahead _
  generalize whole : gap ++ c :: tail = after at stands
  cases stands with
  | string opens =>
    subst whole
    have again := reopens (by decide) opens
    exact opens.moves again (by decide) (.string again)
  | character opens =>
    subst whole
    have again := reopens (by decide) opens
    exact opens.moves again (by decide) (.character again)
  | directive first directive =>
    obtain ⟨inner, rfl, -⟩ := directive.newline_before solid whole.symm
    simp [hasNewline] at inLine
  | @plain _ e rest after solid code noDirective spells =>
    subst whole
    refine .plain solid noDirective code ?_ (spells.alike (.of_head _ _ _ anew))
    cases rest with
    | cons f rest => exact code.congr rfl
    | nil =>
      rcases starts with space | same
      · refine ⟨code.1, ?_⟩
        have printable : ∀ f ∈ [Byte.slash, Byte.star], Byte.isSpace f = false := by decide +kernel
        have others : ∀ f ∈ [Byte.slash, Byte.star], d ≠ f := by
          rintro f member rfl
          rw [printable d member] at space
          cases space
        simp [opensComment?, others]
      · refine code.congr ?_
        rw [List.nil_append, List.nil_append, List.head?_append, same]
        rfl

/-- A token of this kind goes no further before `other`: it is one byte long and starts
no other token there, or it is a word with a star behind it. -/
inductive Lone (other : Bytes) : TokenKind → Prop where
  | brace : Lone other .leftBrace
  | parenthesis : Lone other .leftParen
  | comma : Lone other .comma
  | star (apart : other.head? ≠ some Byte.equals) : Lone other .star
  | word (starred : other.head? = some Byte.star) : Lone other .identifier

/-- Only the punctuators that start with its first byte matter to a token. -/
theorem readPunctuator_eq_alone {c : UInt8} (ends : ∀ entry ∈ punctuators, entry.1.head? = some c →
    entry.1.tail.isPrefixOf other = entry.1.tail.isPrefixOf []) :
    readPunctuator (c :: other) = readPunctuator [c] := by
  have same : ∀ entry ∈ punctuators, entry.1.isPrefixOf (c :: other) = entry.1.isPrefixOf [c] := by
    intro entry member
    have tail := ends entry member
    generalize entry.1 = spelling at tail
    match spelling with
    | [] => rfl
    | d :: more =>
      by_cases first : d = c
      · have behind : more.isPrefixOf other = more.isPrefixOf [] := tail (congrArg some first)
        rw [List.isPrefixOf, List.isPrefixOf, behind]
      · rw [List.isPrefixOf, List.isPrefixOf, beq_eq_false_iff_ne.mpr first, Bool.false_and, Bool.false_and]
  rw [readPunctuator, readPunctuator, ← List.head?_filter, ← List.head?_filter, List.filter_congr same]

/-- A single byte is spelled in one way and starts code. -/
theorem Lone.spelling (lone : Lone other kind) (single : kind ≠ .identifier) :
    ∃ c, (∀ entry ∈ punctuators, entry.2 = kind → entry.1 = [c]) ∧
      Byte.startsAnew c = true ∧ (∀ after, StartsCode (c :: after)) ∧ Spells kind [c] other := by
  have code : ∀ c ∈ [Byte.leftBrace, 0x28, 0x2c, Byte.star], ∀ after, StartsCode (c :: after) := fun c member =>
    @StartsCode.of_class (· ∈ [Byte.leftBrace, 0x28, 0x2c, Byte.star]) (by decide +kernel) c (by simpa using member)
  have plain : ∀ c ∈ [Byte.leftBrace, 0x28, 0x2c, Byte.star],
      Byte.isIdentStart c = false ∧ Byte.isDigit c = false ∧ c ≠ Byte.dot := by decide +kernel
  have spells : ∀ c ∈ [Byte.leftBrace, 0x28, 0x2c, Byte.star], readPunctuator (c :: other) = readPunctuator [c] →
      readPunctuator [c] = (kind, 1) → Spells kind [c] other := by
    intro c member same alone
    simp [Spells, readToken, plain c member, same, alone]
  -- Nothing but the byte itself starts with it, save that a star may be part of an assignment.
  have only : ∀ c ∈ [Byte.leftBrace, 0x28, 0x2c], readPunctuator (c :: other) = readPunctuator [c] := by
    have tails : ∀ c ∈ [Byte.leftBrace, 0x28, 0x2c], ∀ entry ∈ punctuators, entry.1.head? = some c →
        entry.1.tail = [] := by decide +kernel
    intro c member
    apply readPunctuator_eq_alone
    intro entry listed first
    rw [tails c member entry listed first, List.isPrefixOf, List.isPrefixOf]
  have starred : ∀ entry ∈ punctuators, entry.1.head? = some Byte.star →
      entry.1.tail = [] ∨ entry.1.tail = [Byte.equals] := by decide
  cases lone with
  | brace =>
    exact ⟨_, by decide, by decide, code _ (by decide), spells 0x7b (by decide) (only _ (by decide)) (by decide)⟩
  | parenthesis =>
    exact ⟨_, by decide, by decide, code _ (by decide), spells 0x28 (by decide) (only _ (by decide)) (by decide)⟩
  | comma =>
    exact ⟨_, by decide, by decide, code _ (by decide), spells 0x2c (by decide) (only _ (by decide)) (by decide)⟩
  | star apart =>
    refine ⟨Byte.star, by decide, by decide, code _ (by decide), spells _ (by decide) ?_ (by decide)⟩
    refine readPunctuator_eq_alone fun entry member first => ?_
    rcases starred entry member first with tail | tail
    · rw [tail, List.isPrefixOf, List.isPrefixOf]
    · rw [tail]
      cases other with
      | nil => rfl
      | cons d other =>
        have differs : Byte.equals ≠ d := fun same => apart (congrArg some same.symm)
        simp [List.isPrefixOf, differs]
  | word => exact absurd rfl single

private theorem startsAnew_star : Byte.startsAnew Byte.star = true := by decide +kernel

theorem Stands.mem (stands : Stands line kind bytes after)
    (punctuator : kind ∉ [TokenKind.identifier, .number, .invalid, .string, .character, .directive]) :
    (bytes, kind) ∈ punctuators := by
  cases stands with
  | string => simp at punctuator
  | character => simp at punctuator
  | directive => simp at punctuator
  | plain _ _ _ spells =>
    refine spells.mem ?_ ?_ ?_ <;> rintro rfl <;> simp at punctuator

/-- A word ends before a star. -/
theorem Stands.word {tail : Bytes} (stands : Stands line .identifier bytes after) :
    Stands.Moves line .identifier bytes after (Byte.star :: tail) := by
  cases stands with
  | @plain _ c rest _ solid code noDirective spells =>
    have start : Byte.isIdentStart c = true := by simpa using spells.identifier
    have again : StartsCode (c :: (rest ++ Byte.star :: tail)) :=
      StartsCode.of_class (by decide +kernel) start _
    exact .plain solid noDirective code again (spells.alike (.of_head _ _ _ startsAnew_star))

theorem Stands.lone (stands : Stands line kind bytes after) (lone : Lone other kind) :
    Stands.Moves line kind bytes after other := by
  by_cases word : kind = .identifier
  · subst word
    cases lone with
    | word starred =>
      obtain ⟨tail, rfl⟩ := List.head?_eq_some_iff.mp starred
      exact stands.word
  obtain ⟨c, spelled, -, code, spells⟩ := lone.spelling word
  obtain rfl : bytes = [c] := spelled _ (stands.mem (by cases lone <;> simp at word ⊢)) rfl
  cases stands with
  | string => cases lone
  | character => cases lone
  | directive => cases lone
  | plain solid _ noDirective _ => exact .plain solid noDirective (code _) (code _) spells

end Moves

/-- How the gap between a token of the kind `previous` and the token `next` may change. -/
inductive Regap (previous : Option TokenKind) (next : Bytes) : (gap gap' : Bytes) → Prop where
  | same {gap : Bytes} : Regap previous next gap gap
  | spread {kept old new : Bytes} (inLine : hasNewline (kept ++ old) = false) (blank : allSpaces old = true)
      (blank' : allSpaces new = true) (noDirective : next.head? ≠ some Byte.hash)
      (apart : kept ++ new = [] → ∃ kind, previous = some kind ∧ Lone next kind) :
      Regap previous next (kept ++ old) (kept ++ new)
  | trail {blanks rest : Bytes} (brace : previous = some .leftBrace) (blank : blanks.all Byte.isBlank = true)
      (ends : startsLineBreak rest = true) : Regap previous next (blanks ++ rest) rest

/-- A layout with some of its gaps changed, where a token of the kind `previous` stands before it. -/
inductive Respaced : (previous : Option TokenKind) → (items : List Item) → (last : Bytes) →
    (items' : List Item) → (last' : Bytes) → Prop where
  | nil {previous : Option TokenKind} {last : Bytes} : Respaced previous [] last [] last
  | trail {blanks last : Bytes} (blank : blanks.all Byte.isBlank = true)
      (ends : last = [] ∨ startsLineBreak last = true) :
      Respaced (some .leftBrace) [] (blanks ++ last) [] last
  | cons {previous : Option TokenKind} {item : Item} {items items' : List Item} {last last' gap' : Bytes}
      (regap : Regap previous item.bytes item.gap gap')
      (rest : Respaced (some item.kind) items last items' last') :
      Respaced previous (item :: items) last ({ item with gap := gap' } :: items') last'

theorem allSpaces_of_blanks {blanks : Bytes} (blank : blanks.all Byte.isBlank = true) : allSpaces blanks = true := by
  rw [allSpaces, List.all_eq_true]
  intro c member
  simp [Byte.isSpace, List.all_eq_true.mp blank c member]

theorem Lone.append {next : Bytes} {kind : TokenKind} (lone : Lone next kind) (nonempty : next ≠ []) (tail : Bytes) :
    Lone (next ++ tail) kind := by
  cases lone with
  | brace => exact .brace
  | parenthesis => exact .parenthesis
  | comma => exact .comma
  | star apart =>
    cases next with
    | nil => exact absurd rfl nonempty
    | cons c next => exact .star apart
  | word starred =>
    cases next with
    | nil => exact absurd rfl nonempty
    | cons c next => exact .word starred

section Changes
variable {previous : Option TokenKind} {rest gap gap' tail tail' : Bytes} {c : UInt8}

theorem Regap.isGap (regap : Regap previous (c :: rest) gap gap') (isGap : Gap (c :: tail) gap)
    (solid : Byte.isSpace c = false) : Gap (c :: tail') gap' ∧
    (passages (c :: tail) = passages (c :: tail') → passages (gap ++ c :: tail) = passages (gap' ++ c :: tail')) := by
  have ahead := startsLineBreak_solid solid tail
  cases regap with
  | same => exact isGap.retarget (by simp) ahead _
  | @spread kept old new inLine blank blank' =>
    have inner : hasNewline old = false := by
      rw [hasNewline_append, Bool.or_eq_false_iff] at inLine
      exact inLine.2
    have before := isGap.trim rfl blank inLine (by simp) ahead
    obtain ⟨again, kept'⟩ := before.retarget (by simp) (startsLineBreak_gap inner solid tail) (new ++ c :: tail')
    refine ⟨again.append (.of_spaces blank'), fun same => ?_⟩
    rw [List.append_assoc, List.append_assoc]
    apply kept'
    rw [passages_append_spaces blank, passages_append_spaces blank', same]
  | @trail blanks _ _ blank =>
    have spaces := allSpaces_of_blanks blank
    obtain ⟨again, kept⟩ := (isGap.strip spaces).retarget (by simp) ahead (c :: tail')
    refine ⟨again, fun same => ?_⟩
    rw [List.append_assoc, passages_append_spaces spaces, kept same]

theorem Regap.stands {line : Bool} {kind : TokenKind} {after : Bytes} (regap : Regap previous (c :: rest) gap gap')
    (stands : Stands (lineAfter line gap) kind (c :: rest) after) :
    Stands (lineAfter line gap') kind (c :: rest) after := by
  cases regap with
  | same => exact stands
  | spread _ _ _ noDirective =>
    have plain : c ≠ Byte.hash := fun hash => noDirective (congrArg some hash)
    cases stands with
    | string opens => exact .string opens
    | character opens => exact .character opens
    | directive => exact absurd rfl plain
    | plain solid code _ spells => exact .plain solid code (fun hash => absurd hash plain) spells
  | trail _ blank ends =>
    rw [lineAfter_append, lineAfter_lineBreak ends _ line] at stands
    exact stands

end Changes

/-- A changed gap that is not empty keeps its tokens apart; two tokens are joined
only if the first one ends anyway. -/
theorem Regap.apart {previous : Option TokenKind} {next gap gap' after : Bytes} (regap : Regap previous next gap gap')
    (isGap : Gap after gap) : (gap' = gap ∧ (gap = [] ∨ ∃ c rest, gap = c :: rest ∧ Byte.startsAnew c = true)) ∨
    (hasNewline gap = false ∧ ∃ c rest, gap' = c :: rest ∧ Byte.startsAnew c = true ∧
      (Byte.isSpace c = true ∨ gap.head? = some c)) ∨ ∃ kind, previous = some kind ∧ Lone (gap' ++ next) kind := by
  cases regap with
  | same =>
    refine .inl ⟨rfl, ?_⟩
    cases gap with
    | nil => exact .inl rfl
    | cons c rest => exact .inr ⟨c, rest, rfl, isGap.startsAnew⟩
  | @spread kept old new inLine blank blank' noDirective apart =>
    cases kept with
    | cons c kept => exact .inr (.inl ⟨inLine, c, kept ++ new, rfl, isGap.startsAnew, .inr rfl⟩)
    | nil =>
      cases new with
      | nil => exact .inr (.inr (apart rfl))
      | cons c new =>
        have space : Byte.isSpace c = true := List.all_eq_true.mp blank' c (by simp)
        exact .inr (.inl ⟨inLine, c, new, rfl, startsAnew_of_isSpace space, .inl space⟩)
  | trail brace => exact .inr (.inr ⟨_, brace, .brace⟩)

private theorem Stands.alike_of_lone {line : Bool} {kind : TokenKind} {bytes after other : Bytes}
    (stands : Stands line kind bytes after) (lone : Lone other kind) (count : Nat) (tail : Bytes) :
    Alike count (bytes ++ tail) (bytes ++ other) := by
  by_cases word : kind = .identifier
  · subst word
    cases lone with
    | word starred =>
      obtain ⟨rest, rfl⟩ := List.head?_eq_some_iff.mp starred
      exact Alike.append bytes (.of_head _ _ _ startsAnew_star)
  obtain ⟨c, spelled, anew, -⟩ := lone.spelling word
  obtain rfl : bytes = [c] := spelled _ (stands.mem (by cases lone <;> simp at word ⊢)) rfl
  exact .of_head _ _ _ anew

/-- Seen from before a token, a layout with changed gaps shows nothing new to go on with. -/
theorem Respaced.alike {kind : TokenKind} {items items' : List Item} {last last' : Bytes}
    (respaced : Respaced (some kind) items last items' last') {line line' : Bool} {bytes : Bytes}
    (stands : Stands line kind bytes (woven items last)) (reads : Reads line' items last) (count : Nat) :
    Alike count (bytes ++ woven items last) (bytes ++ woven items' last') := by
  generalize same : some kind = previous at respaced
  induction respaced generalizing kind line line' bytes count with
  | nil => exact .refl _ _
  | trail =>
    cases same
    exact stands.alike_of_lone .brace count _
  | @cons previous item items items' last last' gap' regap rest ih =>
    subst same
    obtain ⟨isGap, itemStands, later⟩ := reads
    rcases regap.apart isGap with ⟨rfl, empty | ⟨c, rest, starts, anew⟩⟩ | ⟨-, c, rest, rfl, anew, -⟩ | ⟨_, ⟨⟩, lone⟩
    · refine Alike.append bytes ?_
      simp only [woven, empty, List.nil_append]
      exact ih itemStands later _ rfl
    · refine Alike.append bytes ?_
      simp only [woven, starts]
      exact .of_head _ _ _ anew
    · refine Alike.append bytes ?_
      simp only [woven]
      exact .of_head _ _ _ anew
    · obtain ⟨c, rest, first, -⟩ := itemStands.solid
      exact stands.alike_of_lone (lone.append (by simp [first]) _) count _

theorem Respaced.moves {kind : TokenKind} {items items' : List Item} {last last' : Bytes}
    (respaced : Respaced (some kind) items last items' last') {line line' : Bool} {bytes : Bytes}
    (stands : Stands line kind bytes (woven items last)) (reads : Reads line' items last) :
    Stands.Moves line kind bytes (woven items last) (woven items' last') := by
  cases respaced with
  | nil => exact ⟨stands, fun _ => rfl⟩
  | trail => exact stands.lone .brace
  | @cons _ item items items' _ _ gap' regap rest =>
    obtain ⟨isGap, itemStands, later⟩ := reads
    obtain ⟨c, more, first, solid⟩ := itemStands.solid
    have alike := rest.alike itemStands later 2
    simp only [woven, first, List.append_assoc, List.cons_append] at stands isGap alike ⊢
    rcases regap.apart isGap with ⟨rfl, -⟩ | ⟨inLine, apart⟩ | ⟨_, ⟨⟩, lone⟩
    · exact stands.keep solid ((alike.mono (Nat.sub_le _ _)).append item.gap)
    · exact stands.spread solid inLine apart
    · have whole := lone.append (by simp [first]) (woven items' last')
      rw [first, List.append_assoc, List.cons_append] at whole
      exact stands.lone whole

/-- Changing gaps keeps the layout: the same tokens stand in the new text, and it
has the same literals and comments. -/
theorem Respaced.reads {previous : Option TokenKind} {items items' : List Item} {last last' : Bytes}
    (respaced : Respaced previous items last items' last') {line : Bool} (reads : Reads line items last) :
    Reads line items' last' ∧ passages (woven items last) = passages (woven items' last') := by
  induction respaced generalizing line with
  | nil => exact ⟨reads, rfl⟩
  | trail blank =>
    have spaces := allSpaces_of_blanks blank
    exact ⟨Gap.strip reads spaces, passages_append_spaces spaces _⟩
  | @cons previous item items items' last last' gap' regap rest ih =>
    obtain ⟨isGap, stands, later⟩ := reads
    obtain ⟨again, same⟩ := ih later
    obtain ⟨moved, kept⟩ := rest.moves stands later
    obtain ⟨c, more, first, solid⟩ := stands.solid
    have flag : ∀ gap, lineAfter line (gap ++ item.bytes) = lineAfter false more := fun gap => by
      rw [first, lineAfter_append, lineAfter_solid solid]
    have behind := kept same
    rw [first] at regap isGap moved
    simp only [woven, Reads, first, List.append_assoc, List.cons_append] at behind ⊢
    obtain ⟨gapped, comments⟩ := @regap.isGap _ _ _ _ _ (more ++ woven items' last') _ isGap solid
    refine ⟨⟨gapped, regap.stands moved, ?_⟩, comments behind⟩
    have flag' := flag gap'
    rw [flag] at again
    rw [first] at flag'
    rwa [flag']

end Allman
