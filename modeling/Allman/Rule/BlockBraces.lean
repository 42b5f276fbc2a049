import Allman.Outline
import Allman.Violation

/-! The opening brace of a block stands first on a line of its own, as far in as
the line that the block belongs to. -/

namespace Allman.Outline

/-- The line that the block of a brace belongs to: that of the word before its
parentheses, or of the parentheses themselves, or else of the brace. -/
def owningLine (outline : Outline) (index : Nat) (brace : Token) : Nat :=
  let own := (outline.position brace).line
  match outline.previousCode? index with
  | none => own
  | some close =>
    match if outline.is close .rightParen then outline.brackets.opener? close else none with
    | none => own
    | some first =>
      match (outline.previousCode? first).bind (outline.tokens[·]?), outline.tokens[first]? with
      | some word, some paren =>
        (outline.position (if word.kind = .identifier then word else paren)).line
      | none, some paren => (outline.position paren).line
      | _, none => own

/-- The line break that ends the line at `offset`, or a newline where none follows. -/
def lineBreakAfter (text : Bytes) (offset : Nat) : Bytes :=
  match nextNewline? text offset with
  | some (last + 1) =>
    if text[last]? = some Byte.carriageReturn then [Byte.carriageReturn, Byte.newline]
    else [Byte.newline]
  | _ => [Byte.newline]

/-- The end of the text from `offset` on that a moved brace takes with it: blanks
that end the line. -/
def absorbBlanks (text : Bytes) (offset : Nat) : Nat :=
  let rest := text.drop offset
  let after := rest.dropWhile Byte.isBlank
  if after.isEmpty || startsLineBreak after then
    offset + (rest.takeWhile Byte.isBlank).length
  else offset

/-- The violation at a token, if it is the brace of a block and code stands before
it on its line. A brace after nothing but a comment is left alone. -/
def checkBrace? (outline : Outline) (index : Nat) : Option Violation :=
  match outline.tokens[index]?, outline.previousCode? index with
  | some brace, some previous =>
    if brace.kind ≠ .leftBrace || outline.role? index ≠ some .block
        || hasNewline (outline.gap previous index) || startsLine outline.text brace.start then none
    else
      let start := (trimEnd Byte.isBlank (outline.text.take brace.start)).length
      let stop := absorbBlanks outline.text brace.stop
      let indent := (outline.lines.line (outline.owningLine index brace)).takeWhile Byte.isBlank
      let position := outline.position brace
      some {
        rule := .bracePlacement
        site := brace.start
        line := position.line
        column := position.column
        start
        stop
        current := slice outline.text start stop
        suggested := lineBreakAfter outline.text brace.start ++ indent ++ [Byte.leftBrace] }
  | _, _ => none

def braceViolations (outline : Outline) : List Violation :=
  (List.range outline.size).filterMap outline.checkBrace?

end Allman.Outline
