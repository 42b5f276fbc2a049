import Allman.Proofs.TokenEnds

/-! A text as tokens with gaps between them. A gap holds spaces and comments. Each
token is described by its own bytes and by what may stand behind it, with no
offsets and no cursor, so that two texts with the same tokens can be compared
although every offset in them differs. Every text has such a layout. -/

namespace Allman
open Region

/-- Whether nothing but blanks stands on the line so far, after some more bytes. -/
def lineAfter (line : Bool) (bytes : Bytes) : Bool :=
  bytes.foldl (fun line c => c == Byte.newline || line && Byte.isBlank c) line

@[simp] theorem lineAfter_nil (line : Bool) : lineAfter line [] = line := rfl

theorem lineAfter_append (line : Bool) (first second : Bytes) :
    lineAfter line (first ++ second) = lineAfter (lineAfter line first) second :=
  List.foldl_append

theorem isBlank_of_isSpace_eq_false {c : UInt8} (solid : Byte.isSpace c = false) :
    c ≠ Byte.newline ∧ Byte.isBlank c = false := by
  simp only [Byte.isSpace, Bool.or_eq_false_iff, beq_eq_false_iff_ne] at solid
  exact ⟨solid.1.2, solid.1.1⟩

theorem lineAfter_solid {c : UInt8} (solid : Byte.isSpace c = false) (line : Bool) (rest : Bytes) :
    lineAfter line (c :: rest) = lineAfter false rest := by
  obtain ⟨inLine, notBlank⟩ := isBlank_of_isSpace_eq_false solid
  have ends : (c == Byte.newline || line && Byte.isBlank c) = false := by simp [inLine, notBlank]
  change lineAfter (c == Byte.newline || line && Byte.isBlank c) rest = _
  rw [ends]

theorem lineAfter_lineBreak {bytes : Bytes} (starts : startsLineBreak bytes = true) (line other : Bool) :
    lineAfter line bytes = lineAfter other bytes := by
  match bytes with
  | [c] => simp_all [startsLineBreak, startsCrLf, lineAfter]
  | c :: d :: rest =>
    simp only [startsLineBreak, startsCrLf, Bool.or_eq_true, beq_iff_eq, Bool.and_eq_true] at starts
    rcases starts with rfl | ⟨-, rfl⟩ <;> simp [lineAfter]

theorem startsLine_eq (text : Bytes) (offset : Nat) : startsLine text offset = lineAfter true (text.take offset) := by
  unfold startsLine
  generalize reversed : (text.take offset).reverse = bytes
  rw [← List.reverse_reverse (text.take offset), reversed]
  clear reversed
  induction bytes with
  | nil => rfl
  | cons c bytes ih =>
    rw [List.reverse_cons, lineAfter_append, ← ih]
    by_cases blank : Byte.isBlank c = true
    · have inLine : c ≠ Byte.newline := by rintro rfl; revert blank; decide
      simp [blank, inLine, lineAfter]
    · simp [blank, lineAfter]

/-- Spaces and comments between tokens, where `after` stands behind them. -/
inductive Gap (after : Bytes) : Bytes → Prop where
  | nil : Gap after []
  | space {c : UInt8} {gap : Bytes} (space : Byte.isSpace c = true) (rest : Gap after gap) : Gap after (c :: gap)
  | comment {kind : RegionKind} {bytes gap : Bytes} (comment : kind = .lineComment ∨ kind = .blockComment)
      (opens : Opens kind bytes (gap ++ after)) (rest : Gap after gap) : Gap after (bytes ++ gap)

theorem Region.Opens.eq_code {kind : RegionKind} {c : UInt8} {rest after : Bytes}
    (opens : Opens kind (c :: rest) after) (code : StartsCode (c :: (rest ++ after))) : kind = .code := by
  change first c (rest ++ after) = (kind, rest.length + 1) at opens
  rw [code.first_eq] at opens
  exact (Prod.mk.inj opens).1.symm

theorem Gap.tail {after gap : Bytes} {c : UInt8} (isGap : Gap after (c :: gap)) (space : Byte.isSpace c = true) :
    Gap after gap := by
  generalize whole : c :: gap = bytes at isGap
  cases isGap with
  | nil => cases whole
  | space _ rest => cases whole; exact rest
  | @comment kind bytes rest comment opens isGap =>
    match bytes, opens with
    | d :: bytes, opens =>
      obtain rfl : c = d := (List.cons.inj whole).1
      have code := opens.eq_code (.of_isSpace space _)
      rcases comment with rfl | rfl <;> cases code

theorem Gap.strip {after spaces gap : Bytes} (isGap : Gap after (spaces ++ gap)) (blank : allSpaces spaces = true) :
    Gap after gap := by
  induction spaces with
  | nil => exact isGap
  | cons c spaces ih =>
    obtain ⟨space, blank⟩ : Byte.isSpace c = true ∧ allSpaces spaces = true := by simpa [allSpaces] using blank
    exact ih (isGap.tail space) blank

/-- The course of a directive. `body` is the rest of it, `spaces` follow it in its
line, and `after` is empty or starts with the newline that ends it. `before` holds
the bytes before `body` in their region, the last one first: they tell whether a
newline is hidden. Literals and comments belong to the directive whole. -/
inductive Directive : (before body spaces after : Bytes) → Prop where
  | text {before : Bytes} : Directive before [] [] []
  | line {before after : Bytes} (visible : joinsLines before = false) :
      Directive before [] [] (Byte.newline :: after)
  | space {before spaces after : Bytes} {c : UInt8} (space : Byte.isSpace c = true)
      (hidden : c = Byte.newline → joinsLines before = true) (rest : Directive (c :: before) [] spaces after) :
      Directive before [] (c :: spaces) after
  | code {before body spaces after : Bytes} {c : UInt8} (code : StartsCode (c :: (body ++ spaces ++ after)))
      (hidden : c = Byte.newline → joinsLines before = true) (solid : body ≠ [] ∨ Byte.isSpace c = false)
      (rest : Directive (c :: before) body spaces after) : Directive before (c :: body) spaces after
  | passage {before bytes body spaces after : Bytes} {kind : RegionKind} (passage : kind ≠ .code)
      (opens : Opens kind bytes (body ++ spaces ++ after)) (rest : Directive [] body spaces after) :
      Directive before (bytes ++ body) spaces after

/-- A token of the given kind stands first in `bytes ++ after` and ends where
`bytes` does. `line` tells whether it is the first thing on its line, which makes
a hash sign a directive. -/
inductive Stands (line : Bool) : TokenKind → (bytes after : Bytes) → Prop where
  | string {bytes after : Bytes} (opens : Opens .string bytes after) : Stands line .string bytes after
  | character {bytes after : Bytes} (opens : Opens .character bytes after) : Stands line .character bytes after
  | directive {body spaces after : Bytes} (first : line = true) (rest : Directive [Byte.hash] body spaces after) :
      Stands line .directive (Byte.hash :: body) (spaces ++ after)
  | plain {kind : TokenKind} {c : UInt8} {rest after : Bytes} (solid : Byte.isSpace c = false)
      (code : StartsCode (c :: (rest ++ after))) (noDirective : c = Byte.hash → line = false)
      (spells : Spells kind (c :: rest) after) : Stands line kind (c :: rest) after

structure Item where
  gap : Bytes
  kind : TokenKind
  bytes : Bytes
deriving DecidableEq

/-- The text of a layout, `last` being what follows its last token. -/
def woven : List Item → Bytes → Bytes
  | [], last => last
  | item :: rest, last => item.gap ++ item.bytes ++ woven rest last

/-- The items and the last gap are the layout of their text, where `line` tells
whether only blanks stand before it on its line. -/
def Reads (line : Bool) : List Item → Bytes → Prop
  | [], last => Gap [] last
  | item :: rest, last =>
    Gap (item.bytes ++ woven rest last) item.gap ∧
    Stands (lineAfter line item.gap) item.kind item.bytes (woven rest last) ∧
    Reads (lineAfter line (item.gap ++ item.bytes)) rest last

theorem Region.Opens.length_lt {kind : RegionKind} {bytes after : Bytes} (opens : Opens kind bytes after) :
    after.length < (bytes ++ after).length := by
  match bytes, opens with
  | _ :: _, _ =>
    simp only [List.length_append, List.length_cons]
    omega

private theorem exists_directive (before text : Bytes) :
    ∃ body spaces after, text = body ++ spaces ++ after ∧ Directive before body spaces after := by
  induction size : text.length using Nat.strongRecOn generalizing before text with
  | ind size ih =>
  subst size
  match text with
  | [] => exact ⟨[], [], [], rfl, .text⟩
  | c :: rest =>
    rcases startsCode_or_opens c rest with code | ⟨kind, bytes, after, passage, same, opens⟩
    · by_cases ends : c = Byte.newline ∧ joinsLines before = false
      · obtain ⟨rfl, visible⟩ := ends
        exact ⟨[], [], _, rfl, .line visible⟩
      have hidden : c = Byte.newline → joinsLines before = true := fun newline =>
        (Bool.eq_false_or_eq_true _).resolve_right fun visible => ends ⟨newline, visible⟩
      obtain ⟨body, spaces, after, rfl, directive⟩ := ih rest.length (by simp) (c :: before) rest rfl
      by_cases trailing : body = [] ∧ Byte.isSpace c = true
      · obtain ⟨rfl, space⟩ := trailing
        exact ⟨[], c :: spaces, after, rfl, .space space hidden directive⟩
      · refine ⟨c :: body, spaces, after, rfl, .code code hidden ?_ directive⟩
        by_cases empty : body = []
        · exact .inr (Bool.eq_false_iff.mpr fun space => trailing ⟨empty, space⟩)
        · exact .inl empty
    · have shorter : after.length < (c :: rest).length := same ▸ opens.length_lt
      obtain ⟨body, spaces, after, rfl, directive⟩ := ih after.length shorter [] after rfl
      refine ⟨bytes ++ body, spaces, after, by simp [same], .passage passage ?_ directive⟩
      simpa using opens

theorem Reads.prepend {line : Bool} {bytes : Bytes} {items : List Item} {last : Bytes}
    (reads : Reads (lineAfter line bytes) items last)
    (joins : ∀ gap after, woven items last = gap ++ after → Gap after gap → Gap after (bytes ++ gap)) :
    ∃ items' last', bytes ++ woven items last = woven items' last' ∧ Reads line items' last' := by
  cases items with
  | nil => exact ⟨[], bytes ++ last, rfl, joins last [] (List.append_nil _).symm reads⟩
  | cons item rest =>
    obtain ⟨gap, stands, later⟩ := reads
    rw [← lineAfter_append] at stands later
    refine ⟨{ item with gap := bytes ++ item.gap } :: rest, last, by simp [woven], joins _ _ ?_ gap, stands, ?_⟩
    · simp [woven]
    · simpa using later

/-- Every text has a layout. -/
theorem exists_reads (line : Bool) (text : Bytes) :
    ∃ items last, text = woven items last ∧ Reads line items last := by
  induction size : text.length using Nat.strongRecOn generalizing line text with
  | ind size ih =>
  subst size
  match text with
  | [] => exact ⟨[], [], rfl, .nil⟩
  | c :: rest =>
    -- A token stands first; the layout of what follows it is the rest.
    have token : ∀ {kind bytes after}, c :: rest = bytes ++ after → after.length < (c :: rest).length →
        Stands line kind bytes after → ∃ items last, c :: rest = woven items last ∧ Reads line items last := by
      intro kind bytes after same shorter stands
      obtain ⟨items, last, rfl, reads⟩ := ih after.length shorter (lineAfter line bytes) after rfl
      exact ⟨⟨[], kind, bytes⟩ :: items, last, by simp [woven, same], .nil, stands, by simpa using reads⟩
    rcases startsCode_or_opens c rest with code | ⟨kind, bytes, after, passage, same, opens⟩
    · by_cases space : Byte.isSpace c = true
      · obtain ⟨items, last, rfl, reads⟩ := ih rest.length (by simp) (lineAfter line [c]) rest rfl
        exact reads.prepend fun gap after _ => .space space
      have solid := Bool.eq_false_iff.mpr space
      by_cases directive : c = Byte.hash ∧ line = true
      · obtain ⟨rfl, first⟩ := directive
        obtain ⟨body, spaces, after, rfl, directive⟩ := exists_directive [Byte.hash] rest
        exact token (by simp) (by grind) (.directive first directive)
      · obtain ⟨kind, more, after, rfl, spells⟩ := exists_spells c rest
        refine token (by simp) (by grind) (.plain solid code (fun hash => ?_) spells)
        exact Bool.eq_false_iff.mpr fun first => directive ⟨hash, first⟩
    · have shorter : after.length < (c :: rest).length := same ▸ opens.length_lt
      rw [same]
      have comment : kind = .lineComment ∨ kind = .blockComment →
          ∃ items last, bytes ++ after = woven items last ∧ Reads line items last := by
        intro comment
        obtain ⟨items, last, rfl, reads⟩ := ih after.length shorter (lineAfter line bytes) after rfl
        exact reads.prepend fun gap after same => .comment comment (same ▸ opens)
      rw [← same] at comment ⊢
      cases kind with
      | code => exact absurd rfl passage
      | string => exact token same shorter (.string opens)
      | character => exact token same shorter (.character opens)
      | lineComment => exact comment (.inl rfl)
      | blockComment => exact comment (.inr rfl)

theorem Directive.allSpaces_spaces {before body spaces after : Bytes} (directive : Directive before body spaces after) :
    allSpaces spaces = true := by
  induction directive with
  | text => rfl
  | line => rfl
  | space space _ _ ih => simpa [allSpaces, space] using ih
  | code _ _ _ _ ih => exact ih
  | passage _ _ _ ih => exact ih

theorem Stands.solid {line : Bool} {kind : TokenKind} {bytes after : Bytes} (stands : Stands line kind bytes after) :
    ∃ c rest, bytes = c :: rest ∧ Byte.isSpace c = false := by
  have quoted : ∀ {kind}, kind ≠ RegionKind.code → Opens kind bytes after →
      ∃ c rest, bytes = c :: rest ∧ Byte.isSpace c = false := by
    intro kind passage opens
    match bytes with
    | c :: rest =>
      exact ⟨c, rest, rfl, Bool.eq_false_iff.mpr fun space => passage (opens.eq_code (.of_isSpace space _))⟩
  cases stands with
  | string opens => exact quoted (by decide) opens
  | character opens => exact quoted (by decide) opens
  | directive => exact ⟨_, _, rfl, by decide⟩
  | plain solid => exact ⟨_, _, rfl, solid⟩

theorem exists_gap_of_spaces {spaces gap ahead more : Bytes} {c : UInt8} (blank : allSpaces spaces = true)
    (solid : Byte.isSpace c = false) (same : spaces ++ ahead = gap ++ c :: more) :
    ∃ rest, gap = spaces ++ rest ∧ ahead = rest ++ c :: more := by
  rcases List.append_eq_append_iff.mp same with ⟨rest, split, later⟩ | ⟨rest, split, later⟩
  · exact ⟨rest, split, later⟩
  · match rest with
    | [] => exact ⟨[], by simpa using split.symm, by simpa using later.symm⟩
    | d :: rest =>
      obtain rfl : c = d := (List.cons.inj later).1
      have space : Byte.isSpace c = true := by
        simp only [allSpaces, split, List.all_append, Bool.and_eq_true, List.all_cons] at blank
        exact blank.2.1
      rw [solid] at space
      cases space

end Allman
