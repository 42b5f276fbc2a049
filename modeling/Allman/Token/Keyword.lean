import Allman.Token

/-! The keywords of C, in the classes that tell a declaration from an expression. -/

namespace Allman

inductive KeywordClass where
  /-- Names a type on its own, such as `int`. -/
  | type
  /-- Qualifies a type, such as `const`. -/
  | qualifier
  /-- Opens a declaration, such as `static`. -/
  | storage
  /-- Announces the name of a structure, union or enumeration. -/
  | tag
  /-- Belongs to a statement or an operator. -/
  | other
deriving DecidableEq

namespace KeywordClass

def words : KeywordClass → List Bytes
  | type => [ascii "void", ascii "char", ascii "short", ascii "int", ascii "long", ascii "float",
      ascii "double", ascii "signed", ascii "unsigned", ascii "bool", ascii "_Bool",
      ascii "_Complex"]
  | qualifier => [ascii "const", ascii "volatile", ascii "restrict", ascii "__restrict",
      ascii "_Atomic"]
  | storage => [ascii "static", ascii "extern", ascii "auto", ascii "register", ascii "typedef",
      ascii "inline", ascii "_Thread_local", ascii "thread_local"]
  | tag => [ascii "struct", ascii "union", ascii "enum"]
  | other => [ascii "if", ascii "else", ascii "for", ascii "while", ascii "do", ascii "switch",
      ascii "case", ascii "default", ascii "break", ascii "continue", ascii "goto",
      ascii "return", ascii "sizeof", ascii "alignof", ascii "_Alignof", ascii "_Alignas",
      ascii "_Generic", ascii "_Static_assert", ascii "static_assert"]

def all : List KeywordClass := [type, qualifier, storage, tag, other]

/-- The class of a keyword; a word that is none has no class. -/
def ofWord? (word : Bytes) : Option KeywordClass :=
  all.find? (·.words.contains word)

end KeywordClass

namespace Token

/-- The class of a token that is a keyword. Only identifiers can be keywords. -/
def keyword? (token : Token) : Option KeywordClass :=
  if token.kind = .identifier then KeywordClass.ofWord? token.lexeme else none

/-- An identifier that is no keyword. -/
def isPlain (token : Token) : Bool :=
  token.kind == .identifier && (KeywordClass.ofWord? token.lexeme).isNone

/-- A keyword that can only stand in a declaration. -/
def isSpecifier (token : Token) : Bool :=
  match token.keyword? with
  | some .type | some .qualifier | some .storage | some .tag => true
  | _ => false

end Token
end Allman
