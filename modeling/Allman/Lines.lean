import Allman.Bytes
import Allman.Position
import Allman.Word

/-! A text with the offsets at which its lines start. Line `n` starts after the
`n - 1`st newline, so a text that ends with a newline has an empty last line. -/

namespace Allman

structure Lines where
  text : Bytes := []
  starts : List Nat := []
deriving DecidableEq

namespace Lines

/-- The offsets just after the newlines of a text whose first byte has offset `offset`. -/
def startsAfter (offset : Nat) : Bytes → List Nat
  | [] => []
  | c :: rest =>
    if c = Byte.newline then (offset + 1) :: startsAfter (offset + 1) rest
    else startsAfter (offset + 1) rest

def ofText (text : Bytes) : Lines := ⟨text, 0 :: startsAfter 0 text⟩

/-- The content of a line without the line break that ends it. A line that does
not exist is empty. -/
def line (lines : Lines) : Nat → Bytes
  | 0 => []
  | n + 1 =>
    match lines.starts[n]? with
    | none => []
    | some start =>
      let stop := (lines.starts[n + 1]?).getD lines.text.length
      trimEnd Byte.isLineEnd (slice lines.text start stop)

/-- The position of an offset; an offset past the end of the text names its end.
Before any text is there, everything stands in one endless line. -/
def position (lines : Lines) (offset : Nat) : Position :=
  if lines.starts.isEmpty then ⟨offset, 1, Word.add offset 1⟩
  else
    let offset := min offset lines.text.length
    let before := lines.starts.takeWhile (· ≤ offset)
    ⟨offset, before.length, offset - before.getLastD 0 + 1⟩

end Lines
end Allman
