import Allman.Region
import Allman.Token

/-! Reading tokens. A cursor holds the regions that are not used up and the offset
reached; each step takes the next token from it. The regions need not come from
`Region.classify`: they may overlap, leave gaps or stand in any order, and reading
still ends, because every token uses up part of the cursor's budget. -/

namespace Allman

/-- The spellings of the punctuators, longer ones first. -/
def punctuators : List (Bytes × TokenKind) :=
  [(ascii "...", .ellipsis), (ascii "<<=", .operator), (ascii ">>=", .operator),
    (ascii "->", .arrow), (ascii "*=", .operator), (ascii "&&", .operator),
    (ascii "&=", .operator), (ascii "==", .operator), (ascii "--", .operator),
    (ascii "-=", .operator), (ascii "++", .operator), (ascii "+=", .operator),
    (ascii "||", .operator), (ascii "|=", .operator), (ascii "<<", .operator),
    (ascii "<=", .operator), (ascii ">>", .operator), (ascii ">=", .operator),
    (ascii "/=", .operator), (ascii "%=", .operator), (ascii "^=", .operator),
    (ascii "!=", .operator), (ascii "##", .operator),
    (ascii "(", .leftParen), (ascii ")", .rightParen), (ascii "[", .leftBracket),
    (ascii "]", .rightBracket), (ascii "\x7b", .leftBrace), (ascii "\x7d", .rightBrace),
    (ascii ",", .comma), (ascii ";", .semicolon), (ascii ":", .colon), (ascii "?", .question),
    (ascii ".", .dot), (ascii "*", .star), (ascii "&", .ampersand), (ascii "=", .assign),
    (ascii "-", .operator), (ascii "+", .operator), (ascii "|", .operator),
    (ascii "<", .operator), (ascii ">", .operator), (ascii "/", .operator),
    (ascii "%", .operator), (ascii "^", .operator), (ascii "!", .operator),
    (ascii "#", .operator), (ascii "~", .operator)]

/-- The longest punctuator that the code starts with. A byte that starts none is
an invalid token of its own. -/
def readPunctuator (code : Bytes) : TokenKind × Nat :=
  match punctuators.find? (·.1.isPrefixOf code) with
  | some (spelling, kind) => (kind, spelling.length)
  | none => (.invalid, 1)

/-- How far a number goes on after the byte `last`: over letters, digits, dots,
and a sign right after the letter of an exponent. -/
def numberLength (last : UInt8) : Bytes → Nat
  | [] => 0
  | c :: rest =>
    if c = Byte.plus || c = Byte.minus then
      if Byte.toLower last = 0x65 || Byte.toLower last = 0x70 then numberLength c rest + 1 else 0
    else if Byte.isIdentContinue c || c = Byte.dot then numberLength c rest + 1
    else 0

/-- The kind and the length of the token that starts with the byte `c` and is no directive. -/
def readToken (c : UInt8) (rest : Bytes) : TokenKind × Nat :=
  if Byte.isIdentStart c then (.identifier, (rest.takeWhile Byte.isIdentContinue).length + 1)
  else if Byte.isDigit c || (c = Byte.dot && rest.head?.any Byte.isDigit) then
    (.number, numberLength c rest + 1)
  else readPunctuator (c :: rest)

/-- Only blanks stand between the start of the line and an offset. -/
def startsLine (text : Bytes) (offset : Nat) : Bool :=
  match (text.take offset).reverse.dropWhile Byte.isBlank with
  | [] => true
  | c :: _ => c == Byte.newline

/-- Whether a newline is hidden by a backslash before it, given the bytes before
the newline from the last to the first. -/
def joinsLines : Bytes → Bool
  | [] => false
  | [c] => c == Byte.backslash
  | c :: d :: _ =>
    c == Byte.backslash || (c == Byte.carriageReturn && d == Byte.backslash)

/-- How far a directive goes in a piece of code: up to the first newline that is
not hidden, if there is one. `before` holds the bytes of the region before the
piece, the last one first, `offset` is where the piece starts, and `stop` where
the directive ends so far: it does not end with spaces. -/
def directiveEnd (before : Bytes) (offset stop : Nat) : Bytes → Nat × Nat × Bool
  | [] => (offset, stop, false)
  | c :: rest =>
    if c = Byte.newline && !joinsLines before then (offset, stop, true)
    else
      directiveEnd (c :: before) (offset + 1) (if Byte.isSpace c then stop else offset + 1) rest

structure Cursor where
  regions : List Region
  offset : Nat := 0
deriving DecidableEq

namespace Cursor

/-- Follows the directive that starts at `start` and reaches up to `stop` so far.
Literals and comments belong to it whole, with any newline in them. -/
def readDirective (text : Bytes) (start : Nat) : List Region → Nat → Nat → Token × Cursor
  | [], offset, stop => (Token.covering text .directive start stop, ⟨[], offset⟩)
  | region :: rest, offset, stop =>
    if region.kind ≠ .code then readDirective text start rest region.stop region.stop
    else
      let here := max offset region.start
      let reached := directiveEnd (slice text region.start here).reverse here stop
        (slice text here region.stop)
      if reached.2.2 then
        (Token.covering text .directive start reached.2.1, ⟨region :: rest, reached.1⟩)
      else readDirective text start rest (max here region.stop) reached.2.1

/-- The next token. At the end of the regions it is the empty token at the end of the text. -/
def nextFrom (text : Bytes) : List Region → Nat → Token × Cursor
  | [], offset => (Token.covering text .endOfText text.length text.length, ⟨[], offset⟩)
  | region :: rest, offset =>
    if region.stop ≤ offset then nextFrom text rest offset
    else
      match region.kind with
      | .string =>
        (Token.covering text .string region.start region.stop, ⟨rest, region.stop⟩)
      | .character =>
        (Token.covering text .character region.start region.stop, ⟨rest, region.stop⟩)
      | .lineComment | .blockComment => nextFrom text rest region.stop
      | .code =>
        let here := max offset region.start
        let code := slice text here region.stop
        let start := here + (code.takeWhile Byte.isSpace).length
        match code.dropWhile Byte.isSpace with
        | [] => nextFrom text rest region.stop
        | c :: more =>
          if c = Byte.hash && startsLine text start then
            readDirective text start (region :: rest) (start + 1) (start + 1)
          else
            let stop := start + (readToken c more).2
            (Token.covering text (readToken c more).1 start stop, ⟨region :: rest, stop⟩)

def next (text : Bytes) (cursor : Cursor) : Token × Cursor :=
  nextFrom text cursor.regions cursor.offset

/-- The most tokens that a list of regions can hold: one for each of them and one for each byte. -/
def capacity : List Region → Nat
  | [] => 0
  | region :: rest => region.stop - region.start + 1 + capacity rest

/-- The most tokens that can still be read. -/
def budget : Cursor → Nat
  | ⟨[], _⟩ => 0
  | ⟨region :: rest, offset⟩ => region.stop - max offset region.start + 1 + capacity rest

theorem budget_le_capacity (regions : List Region) (offset : Nat) :
    budget ⟨regions, offset⟩ ≤ capacity regions := by
  cases regions with
  | nil => simp [budget]
  | cons region rest => simp only [budget, capacity]; omega

theorem offset_le_directiveEnd (before code : Bytes) (offset stop : Nat) :
    offset ≤ (directiveEnd before offset stop code).1 := by
  induction code generalizing before offset stop with
  | nil => exact Nat.le_refl _
  | cons c rest ih =>
    unfold directiveEnd
    split
    · exact Nat.le_refl _
    · exact Nat.le_trans (Nat.le_succ _) (ih _ _ _)

theorem budget_readDirective_le (text : Bytes) (start : Nat) (regions : List Region)
    (offset stop : Nat) :
    (readDirective text start regions offset stop).2.budget ≤ budget ⟨regions, offset⟩ := by
  induction regions generalizing offset stop with
  | nil => simp [readDirective, budget]
  | cons region rest ih =>
    have skip : ∀ offset' stop', (readDirective text start rest offset' stop').2.budget ≤
        budget ⟨region :: rest, offset⟩ := fun offset' stop' =>
      Nat.le_trans (ih offset' stop')
        (Nat.le_trans (budget_le_capacity rest offset') (by simp only [budget]; omega))
    unfold readDirective
    split
    · exact skip _ _
    · dsimp only
      split
      · have reached := offset_le_directiveEnd
          (slice text region.start (max offset region.start)).reverse
          (slice text (max offset region.start) region.stop) (max offset region.start) stop
        simp only [budget]
        omega
      · exact skip _ _

end Cursor

theorem readPunctuator_pos (code : Bytes) : 0 < (readPunctuator code).2 := by
  have spelled : ∀ entry ∈ punctuators, 0 < entry.1.length := by decide
  unfold readPunctuator
  split
  · exact spelled _ (List.mem_of_find?_eq_some (by assumption))
  · exact Nat.one_pos

theorem readToken_pos (c : UInt8) (rest : Bytes) : 0 < (readToken c rest).2 := by
  unfold readToken
  split
  · exact Nat.succ_pos _
  · split
    · exact Nat.succ_pos _
    · exact readPunctuator_pos _

namespace Cursor

/-- Every token but the one at the end of the text uses up some of the budget. -/
theorem budget_nextFrom_lt (text : Bytes) (regions : List Region) (offset : Nat)
    (more : (nextFrom text regions offset).1.kind ≠ .endOfText) :
    (nextFrom text regions offset).2.budget < budget ⟨regions, offset⟩ := by
  induction regions generalizing offset with
  | nil => simp [nextFrom, Token.covering] at more
  | cons region rest ih =>
    have skip : ∀ offset', (nextFrom text rest offset').1.kind ≠ .endOfText →
        (nextFrom text rest offset').2.budget < budget ⟨region :: rest, offset⟩ :=
      fun offset' more => Nat.lt_of_lt_of_le (ih offset' more)
        (Nat.le_trans (budget_le_capacity rest offset') (by simp only [budget]; omega))
    have leave : ∀ offset', budget ⟨rest, offset'⟩ < budget ⟨region :: rest, offset⟩ :=
      fun offset' => Nat.lt_of_le_of_lt (budget_le_capacity rest offset')
        (by simp only [budget]; omega)
    rw [nextFrom] at more ⊢
    split at more
    · rename_i finished
      rw [if_pos finished]
      exact skip _ more
    · rename_i unfinished
      rw [if_neg unfinished]
      split at more
      · exact leave _
      · exact leave _
      · exact skip _ more
      · exact skip _ more
      · dsimp only at more ⊢
        split at more
        · exact skip _ more
        · rename_i c rest' code
          have room := congrArg List.length
            (List.takeWhile_append_dropWhile (p := Byte.isSpace)
              (l := slice text (max offset region.start) region.stop))
          have within := length_slice_le text (max offset region.start) region.stop
          rw [List.length_append, code, List.length_cons] at room
          split
          · refine Nat.lt_of_le_of_lt (budget_readDirective_le ..) ?_
            simp only [budget]
            omega
          · have positive := readToken_pos c rest'
            simp only [budget]
            omega

theorem budget_next_lt (text : Bytes) (cursor : Cursor)
    (more : (cursor.next text).1.kind ≠ .endOfText) :
    (cursor.next text).2.budget < cursor.budget :=
  budget_nextFrom_lt text cursor.regions cursor.offset more

end Cursor

namespace Token

/-- The tokens from a cursor on, without the one at the end of the text. -/
def scanFrom (text : Bytes) (cursor : Cursor) : List Token :=
  let step := cursor.next text
  if _ : step.1.kind ≠ .endOfText then step.1 :: scanFrom text step.2 else []
termination_by cursor.budget
decreasing_by exact Cursor.budget_next_lt text cursor (by assumption)

/-- All tokens of a text that has been cut into the given regions. -/
def scan (text : Bytes) (regions : List Region) : List Token :=
  scanFrom text ⟨regions, 0⟩

end Token

/-- Reading with one token of lookahead. -/
structure Lexer where
  text : Bytes
  regions : List Region
  cursor : Cursor := ⟨regions, 0⟩
  ahead : Option Token := none

namespace Lexer

/-- The next token, which stays the next one. -/
def peek (lexer : Lexer) : Token × Lexer :=
  match lexer.ahead with
  | some token => (token, lexer)
  | none =>
    let (token, cursor) := lexer.cursor.next lexer.text
    (token, { lexer with cursor, ahead := some token })

def next (lexer : Lexer) : Token × Lexer :=
  match lexer.ahead with
  | some token => (token, { lexer with ahead := none })
  | none =>
    let (token, cursor) := lexer.cursor.next lexer.text
    (token, { lexer with cursor })

/-- Starts again at the first token. -/
def reset (lexer : Lexer) : Lexer :=
  { lexer with cursor := ⟨lexer.regions, 0⟩, ahead := none }

end Lexer
end Allman
