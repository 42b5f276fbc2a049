/-! Texts are byte strings. A source file may hold any bytes at all, so offsets,
columns and lengths count bytes, and the classes below know ASCII alone: a byte
from 0x80 up belongs to none of them. -/

namespace Allman

abbrev Bytes := List UInt8

/-- The bytes of a text written in ASCII. -/
def ascii (text : String) : Bytes :=
  text.toList.map fun c => c.toNat.toUInt8

namespace Byte

abbrev tab : UInt8 := 0x09
abbrev newline : UInt8 := 0x0a
abbrev verticalTab : UInt8 := 0x0b
abbrev formFeed : UInt8 := 0x0c
abbrev carriageReturn : UInt8 := 0x0d
abbrev escape : UInt8 := 0x1b
abbrev space : UInt8 := 0x20
abbrev doubleQuote : UInt8 := 0x22
abbrev hash : UInt8 := 0x23
abbrev dollar : UInt8 := 0x24
abbrev singleQuote : UInt8 := 0x27
abbrev star : UInt8 := 0x2a
abbrev plus : UInt8 := 0x2b
abbrev minus : UInt8 := 0x2d
abbrev dot : UInt8 := 0x2e
abbrev slash : UInt8 := 0x2f
abbrev caret : UInt8 := 0x5e
abbrev backslash : UInt8 := 0x5c
abbrev underscore : UInt8 := 0x5f
abbrev leftBrace : UInt8 := 0x7b
abbrev tilde : UInt8 := 0x7e

def isUpper (c : UInt8) : Bool := 0x41 ≤ c && c ≤ 0x5a

def isLower (c : UInt8) : Bool := 0x61 ≤ c && c ≤ 0x7a

def isAlpha (c : UInt8) : Bool := isLower c || isUpper c

def isDigit (c : UInt8) : Bool := 0x30 ≤ c && c ≤ 0x39

def isAlnum (c : UInt8) : Bool := isAlpha c || isDigit c

def toLower (c : UInt8) : UInt8 := if isUpper c then c + 0x20 else c

def isIdentStart (c : UInt8) : Bool := isAlpha c || c == underscore || c == dollar

def isIdentContinue (c : UInt8) : Bool := isAlnum c || c == underscore || c == dollar

/-- Blanks separate words inside a line. -/
def isBlank (c : UInt8) : Bool :=
  c == space || c == tab || c == verticalTab || c == formFeed

/-- Spaces are the blanks and the two bytes that line breaks are made of. -/
def isSpace (c : UInt8) : Bool :=
  isBlank c || c == newline || c == carriageReturn

/-- The two bytes that line breaks are made of. -/
def isLineEnd (c : UInt8) : Bool := c == newline || c == carriageReturn

end Byte

/-- The bytes of `text` from `start` up to `stop`. A range that ends before it
starts is empty, and what lies past the end of the text is left out. -/
def slice (text : Bytes) (start stop : Nat) : Bytes :=
  (text.drop start).take (stop - start)

theorem length_slice_le (text : Bytes) (start stop : Nat) :
    (slice text start stop).length ≤ stop - start :=
  List.length_take_le _ _

/-- A text without the longest run of bytes of one class at its end. -/
def trimEnd (drop : UInt8 → Bool) (text : Bytes) : Bytes :=
  (text.reverse.dropWhile drop).reverse

def hasNewline (text : Bytes) : Bool := text.contains Byte.newline

def allSpaces (text : Bytes) : Bool := text.all Byte.isSpace

/-- A carriage return with its newline stands first. -/
def startsCrLf : Bytes → Bool
  | c :: d :: _ => c == Byte.carriageReturn && d == Byte.newline
  | _ => false

/-- A line break, either a newline or a carriage return with its newline, stands first. -/
def startsLineBreak : Bytes → Bool
  | [] => false
  | c :: rest => c == Byte.newline || startsCrLf (c :: rest)

/-- The offset of the first newline at or after `offset`. -/
def nextNewline? (text : Bytes) (offset : Nat) : Option Nat :=
  ((text.drop offset).findIdx? (· == Byte.newline)).map (offset + ·)

/-- The decimal digits of a number, without leading zeros. -/
def decimal (n : Nat) : Bytes :=
  (Nat.toDigits 10 n).map fun c => c.toNat.toUInt8

/-- The pieces of a text between the occurrences of a separator: one more piece
than there are separators. -/
def splitAt (separator : UInt8) : Bytes → List Bytes
  | [] => [[]]
  | c :: rest =>
    match splitAt separator rest with
    | [] => [[c]]
    | piece :: pieces =>
      if c = separator then [] :: piece :: pieces else (c :: piece) :: pieces

end Allman
