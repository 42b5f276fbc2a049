import Allman.Bytes

/-! Text with marks for its appearance. Where colour is wanted the marks become
terminal escape sequences; where it is not they vanish, and nothing else differs. -/

namespace Allman

inductive Style where
  | reset
  | bold
  | dim
  | red
  | green
  | yellow
  | cyan
deriving DecidableEq

/-- The number that selects a style on a terminal. -/
def Style.code : Style → Nat
  | reset => 0
  | bold => 1
  | dim => 2
  | red => 31
  | green => 32
  | yellow => 33
  | cyan => 36

def Style.sequence (style : Style) : Bytes :=
  Byte.escape :: ascii "[" ++ decimal style.code ++ ascii "m"

inductive Piece where
  | text (bytes : Bytes)
  | mark (style : Style)
deriving DecidableEq

def Piece.render (colour : Bool) : Piece → Bytes
  | text bytes => bytes
  | mark style => if colour then style.sequence else []

abbrev Styled := List Piece

def Styled.render (colour : Bool) (pieces : Styled) : Bytes :=
  pieces.flatMap (Piece.render colour)

/-- A text in some styles, after which the styles end. -/
def Styled.within (styles : List Style) (bytes : Bytes) : Styled :=
  styles.map .mark ++ [.text bytes, .mark .reset]

end Allman
