/-! A position names a byte of a text by its offset and, for readers, by the line
and column that it stands in. Lines and columns count from one. -/

namespace Allman

structure Position where
  offset : Nat := 0
  line : Nat := 1
  column : Nat := 1
deriving DecidableEq

namespace Position

/-- Positions are ordered by offset, then by line, then by column. -/
def compare (a b : Position) : Ordering :=
  (Ord.compare a.offset b.offset).then
    ((Ord.compare a.line b.line).then (Ord.compare a.column b.column))

theorem compare_eq_eq_iff {a b : Position} : a.compare b = .eq ↔ a = b := by
  cases a; cases b
  simp [compare, Ordering.then_eq_eq]

end Position

/-- A stretch of the text of a numbered buffer. Buffer 0 does not exist, so an
extent in it is a place outside every text. -/
structure Extent where
  buffer : Nat := 0
  start : Position := {}
  stop : Position := {}
deriving DecidableEq

def Extent.singleLine (extent : Extent) : Bool :=
  extent.start.line == extent.stop.line

end Allman
