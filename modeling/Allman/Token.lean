import Allman.Bytes

/-! The tokens of a C text, as far as its layout depends on them. Operators that
never matter to a declarator or a brace share one kind. -/

namespace Allman

inductive TokenKind where
  | invalid
  | endOfText
  | directive
  | identifier
  | number
  | string
  | character
  | leftParen
  | rightParen
  | leftBracket
  | rightBracket
  | leftBrace
  | rightBrace
  | comma
  | semicolon
  | colon
  | question
  | dot
  | arrow
  | ellipsis
  | star
  | ampersand
  | assign
  | operator
deriving DecidableEq

namespace TokenKind

def all : List TokenKind :=
  [invalid, endOfText, directive, identifier, number, string, character, leftParen, rightParen,
    leftBracket, rightBracket, leftBrace, rightBrace, comma, semicolon, colon, question, dot,
    arrow, ellipsis, star, ampersand, assign, operator]

/-- Kinds are numbered in the order of `all`; every other number is an invalid token. -/
def ofNumber (n : Nat) : TokenKind := all[n]?.getD invalid

def name : TokenKind → Bytes
  | invalid => ascii "invalid"
  | endOfText => ascii "eof"
  | directive => ascii "directive"
  | identifier => ascii "identifier"
  | number => ascii "number"
  | string => ascii "string"
  | character => ascii "char"
  | leftParen => ascii "("
  | rightParen => ascii ")"
  | leftBracket => ascii "["
  | rightBracket => ascii "]"
  | leftBrace => ascii "\x7b"
  | rightBrace => ascii "\x7d"
  | comma => ascii ","
  | semicolon => ascii ";"
  | colon => ascii ":"
  | question => ascii "?"
  | dot => ascii "."
  | arrow => ascii "->"
  | ellipsis => ascii "..."
  | star => ascii "*"
  | ampersand => ascii "&"
  | assign => ascii "="
  | operator => ascii "operator"

def isOpener : TokenKind → Bool
  | leftParen | leftBracket | leftBrace => true
  | _ => false

/-- The opening bracket that a closing bracket pairs with. -/
def opener? : TokenKind → Option TokenKind
  | rightParen => some leftParen
  | rightBracket => some leftBracket
  | rightBrace => some leftBrace
  | _ => none

end TokenKind

structure Token where
  kind : TokenKind
  start : Nat
  stop : Nat
  lexeme : Bytes
deriving DecidableEq

/-- The token that covers a stretch of a text. -/
def Token.covering (text : Bytes) (kind : TokenKind) (start stop : Nat) : Token :=
  ⟨kind, start, stop, slice text start stop⟩

end Allman
