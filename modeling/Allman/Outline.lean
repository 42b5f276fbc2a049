import Allman.Brackets
import Allman.Lines
import Allman.Token.Keyword
import Allman.Token.Lexer

/-! The outline of a text: its tokens, their bracket structure, and for each brace
whether it encloses a block of statements or members, or the values of an
initializer. Both layout rules read nothing else. -/

namespace Allman

inductive BraceRole where
  | block
  | initializer
deriving DecidableEq

/-- The last token before `index` that is no preprocessor directive. -/
def previousCode? (tokens : Array Token) : Nat → Option Nat
  | 0 => none
  | index + 1 =>
    match tokens[index]? with
    | none => none
    | some token =>
      if token.kind = .directive then previousCode? tokens index else some index

/-- The keywords that a parenthesis and then a block follow. -/
def controlWords : List Bytes := [ascii "if", ascii "for", ascii "while", ascii "switch"]

namespace BraceRole

/-- The role of a brace that follows the closing parenthesis `close`. What stands
before the parentheses decides: after a control keyword, a function name or
another declarator they belong to a block, and after anything else they are the
type of a compound literal. -/
def afterParentheses (tokens : Array Token) (brackets : Brackets) (close : Nat) : BraceRole :=
  match (brackets.opener? close).bind (previousCode? tokens) |>.bind (tokens[·]?) with
  | none => .block
  | some before =>
    match before.kind with
    | .identifier =>
      if KeywordClass.ofWord? before.lexeme ≠ some .other || controlWords.contains before.lexeme
      then .block else .initializer
    | .rightParen | .rightBracket | .semicolon | .leftBrace | .rightBrace => .block
    | _ => .initializer

/-- The role of a brace in the light of the token before it. -/
def afterToken (tokens : Array Token) (brackets : Brackets) (index : Nat) : BraceRole :=
  match previousCode? tokens index with
  | none => .block
  | some previous =>
    match tokens[previous]?.map Token.kind with
    | some .assign | some .comma | some .operator | some .question | some .leftParen
    | some .leftBracket | some .star | some .ampersand | some .dot | some .arrow => .initializer
    | some .rightParen => afterParentheses tokens brackets previous
    | _ => .block

/-- The role of an opening brace, given the roles of the tokens before it. A brace
inside parentheses, square brackets or an initializer is an initializer. -/
def ofBrace (tokens : Array Token) (brackets : Brackets) (roles : Array (Option BraceRole))
    (index : Nat) : BraceRole :=
  match brackets.parent? index with
  | none => afterToken tokens brackets index
  | some outer =>
    match tokens[outer]?.map Token.kind, roles[outer]?.join with
    | some .leftParen, _ | some .leftBracket, _ => .initializer
    | some .leftBrace, some .initializer => .initializer
    | _, _ => afterToken tokens brackets index

/-- The role of any token, given the roles of the tokens before it. A closing
brace has the role of the brace it closes; only braces have a role. -/
def ofToken? (tokens : Array Token) (brackets : Brackets) (roles : Array (Option BraceRole))
    (index : Nat) : Option BraceRole :=
  match tokens[index]?.map Token.kind with
  | some .leftBrace => some (ofBrace tokens brackets roles index)
  | some .rightBrace => (brackets.opener? index).bind (roles[·]?.join)
  | _ => none

/-- The roles of all tokens, found from left to right. -/
def assign (tokens : Array Token) (brackets : Brackets) : Array (Option BraceRole) :=
  tokens.size.fold (fun index _ roles => roles.push (ofToken? tokens brackets roles index)) #[]

end BraceRole

structure Outline where
  lines : Lines
  tokens : Array Token
  brackets : Brackets
  roles : Array (Option BraceRole)

namespace Outline

/-- The outline of a text that has been cut into the given regions. -/
def ofRegions (text : Bytes) (regions : List Region) : Outline :=
  let tokens := Token.scan text regions
  let brackets := Brackets.ofKinds (tokens.map Token.kind)
  { lines := Lines.ofText text
    tokens := tokens.toArray
    brackets
    roles := BraceRole.assign tokens.toArray brackets }

def ofText (text : Bytes) : Outline := ofRegions text (Region.classify text)

def text (outline : Outline) : Bytes := outline.lines.text

def size (outline : Outline) : Nat := outline.tokens.size

def kind? (outline : Outline) (index : Nat) : Option TokenKind :=
  outline.tokens[index]?.map Token.kind

/-- The token exists and is of the given kind. -/
def is (outline : Outline) (index : Nat) (kind : TokenKind) : Bool :=
  outline.kind? index == some kind

def role? (outline : Outline) (index : Nat) : Option BraceRole :=
  outline.roles[index]?.join

def previousCode? (outline : Outline) (index : Nat) : Option Nat :=
  Allman.previousCode? outline.tokens index

/-- What stands between two tokens. -/
def gap (outline : Outline) (first second : Nat) : Bytes :=
  match outline.tokens[first]?, outline.tokens[second]? with
  | some a, some b => slice outline.text a.stop b.start
  | _, _ => []

def position (outline : Outline) (token : Token) : Position :=
  outline.lines.position token.start

end Outline
end Allman
