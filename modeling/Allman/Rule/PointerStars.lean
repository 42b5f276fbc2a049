import Allman.Outline.Declaration
import Allman.Violation

/-! The stars of a pointer declarator stand against the name, with one space after
the type: `int *p`. A parenthesis needs no space after it, and a line break on
either side of the stars is left where it is. -/

namespace Allman.Outline

/-- Two star tokens that follow one another with nothing but spaces of one line between them. -/
def linkedStars (outline : Outline) (first second : Nat) : Bool :=
  second == first + 1 && allSpaces (outline.gap first second) &&
    !hasNewline (outline.gap first second)

/-- The star tokens in document order, in runs that are as long as possible. -/
def starRuns (outline : Outline) : List (List Nat) :=
  ((List.range outline.size).filter (outline.is · .star)).splitBy outline.linkedStars

/-- A word that can follow the stars of a declarator: a name or a qualifier. -/
def canFollowStars (token : Token) : Bool :=
  token.isPlain || token.keyword? == some .qualifier

/-- The stars before `next` open a declarator in parentheses that a parameter list
or an array bound follows: `(*name)(…)`, `(*name(…))(…)` or `(*)[…]`. -/
def isGroupedDeclarator (outline : Outline) (first next : Nat) : Bool :=
  match first, outline.brackets.closer? first with
  | type + 1, some last =>
    let stop :=
      if next < last && outline.tokens[next]?.any Token.isPlain then
        (outline.skipSuffixes last (next + 1) false).1
      else next
    outline.isTypePosition type && stop == last &&
      (outline.is (last + 1) .leftParen || outline.is (last + 1) .leftBracket)
  | _, _ => false

/-- Stars between a type keyword or qualifier and the token `after` declare a pointer. -/
def declaresAfterType (after : Token) : Bool :=
  match after.kind with
  | .leftParen | .rightParen | .leftBracket | .comma => true
  | _ => canFollowStars after

/-- Stars between the plain name at `previous` and the token `after` at `next`
declare a pointer. Before a closing parenthesis or a comma a star cannot multiply. -/
def declaresAfterName (outline : Outline) (previous next : Nat) (after : Token) : Bool :=
  match after.kind with
  | .rightParen | .comma => true
  | _ =>
    canFollowStars after && outline.startsDeclaration previous &&
      (after.keyword? == some .qualifier || outline.endsDeclarator next)

/-- Stars between the tokens `previous` and `next` belong to a declarator. -/
def isDeclarator (outline : Outline) (previous next : Nat) : Bool :=
  match outline.tokens[previous]?, outline.tokens[next]? with
  | some before, some after =>
    match before.kind with
    | .identifier =>
      match KeywordClass.ofWord? before.lexeme with
      | some .type | some .qualifier => declaresAfterType after
      | some _ => false
      | none => outline.declaresAfterName previous next after
    | .leftParen => outline.isGroupedDeclarator previous next
    | .comma => after.isPlain && outline.endsDeclarator next && outline.inDeclaration previous
    | _ => false
  | _, _ => false

/-- What should stand between the tokens around `count` stars. -/
def starLayout (outline : Outline) (previous : Nat) (before after : Bytes) (count : Nat) : Bytes :=
  (if hasNewline before then before
    else if outline.is previous .leftParen then [] else [Byte.space]) ++
  List.replicate count Byte.star ++
  (if hasNewline after then after else [])

/-- The violation at a run of stars, if the stars belong to a declarator, nothing
but spaces surrounds them, and they do not stand as they should. -/
def checkStars? (outline : Outline) (run : List Nat) : Option Violation :=
  match run with
  | [] => none
  | 0 :: _ => none
  | (previous + 1) :: others =>
    let last := others.getLastD (previous + 1)
    let next := last + 1
    match outline.tokens[previous]?, outline.tokens[previous + 1]?, outline.tokens[next]? with
    | some left, some star, some right =>
      let before := outline.gap previous (previous + 1)
      let after := outline.gap last next
      let current := slice outline.text left.stop right.start
      let suggested := outline.starLayout previous before after (others.length + 1)
      if outline.isDeclarator previous next && allSpaces before && allSpaces after
          && current ≠ suggested then
        let position := outline.position star
        some {
          rule := .pointerSpacing
          site := star.start
          line := position.line
          column := position.column
          start := left.stop
          stop := right.start
          current
          suggested }
      else none
    | _, _, _ => none

def pointerViolations (outline : Outline) : List Violation :=
  outline.starRuns.filterMap outline.checkStars?

end Allman.Outline
